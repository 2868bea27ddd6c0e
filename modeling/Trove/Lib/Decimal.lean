import Trove.Lib.Strings

/-!
# Decimal numbers of a fixed width

`padded width n` is `fmt.Sprintf("%0*d", width, n)`: the decimal digits, with zeros in front up to
the width. The order of the strings of numbers that fit the width is the order of the numbers
(`padded_lt_padded`); the place of a longer one is decided by its first digits.
-/

namespace Trove.Lib

open List

/-- `%0*d`. -/
def padded (width n : ℕ) : String := String.ofList ((Nat.toDigits 10 n).leftpad width '0')

theorem toList_padded (width n : ℕ) :
    (padded width n).toList = List.replicate (width - (Nat.toDigits 10 n).length) '0' ++
      Nat.toDigits 10 n := by
  rw [padded, String.toList_ofList]
  rfl

variable {width n : ℕ}

theorem isDigit_of_mem_padded {c : Char} (h : c ∈ (padded width n).toList) : c.isDigit = true := by
  rw [toList_padded, mem_append] at h
  rcases h with h | h
  · rw [eq_of_mem_replicate h]
    rfl
  · exact Nat.isDigit_of_mem_toDigits (by decide) (by decide) h

theorem ofDigitChars_padded (width n : ℕ) : Nat.ofDigitChars 10 (padded width n).toList 0 = n := by
  rw [toList_padded, Nat.ofDigitChars_append, Nat.ofDigitChars_replicate_zero, Nat.mul_zero,
    Nat.ofDigitChars_ten_toDigits]

theorem padded_injective (width : ℕ) : Function.Injective (padded width) := by
  intro m n h
  have := congrArg (fun s => Nat.ofDigitChars 10 s.toList 0) h
  simpa only [ofDigitChars_padded] using this

theorem padded_ne_nil (width n : ℕ) : (padded width n).toList ≠ [] := by
  rw [toList_padded]
  simp

theorem length_padded (hwd : 0 < width) (h : n < 10 ^ width) :
    (padded width n).toList.length = width := by
  have hle := (Nat.length_toDigits_le_iff (by decide) hwd).mpr h
  rw [toList_padded, length_append, length_replicate]
  omega

theorem parseInt_padded (h : n < 2 ^ 63) : Strings.parseInt (padded width n) = some (n : ℤ) := by
  have hdg : (padded width n).toList.all Char.isDigit = true :=
    all_eq_true.mpr fun _ => isDigit_of_mem_padded
  have hvl := ofDigitChars_padded width n
  unfold Nat.ofDigitChars at hvl
  have hsg : ∀ c cs, (padded width n).toList = c :: cs → c ≠ '-' ∧ c ≠ '+' := by
    intro c cs hcn
    have hc : c.isDigit = true := @isDigit_of_mem_padded width n c (by rw [hcn]; exact .head _)
    constructor <;> rintro rfl <;> simp at hc
  unfold Strings.parseInt
  cases hls : (padded width n).toList with
  | nil => exact absurd hls (padded_ne_nil width n)
  | cons c cs =>
    obtain ⟨hmn, hpl⟩ := hsg c cs hls
    rw [hls] at hdg hvl
    split
    rename_i negative digits heq
    split at heq
    · rename_i hcn
      exact absurd (List.cons.inj hcn).1 hmn
    · rename_i hcn
      exact absurd (List.cons.inj hcn).1 hpl
    · cases heq
      simp only [hdg, hvl]
      simp
      omega

theorem ofDigitChars_cons_zero (c : Char) (l : List Char) :
    Nat.ofDigitChars 10 (c :: l) 0 =
      10 ^ l.length * (c.toNat - '0'.toNat) + Nat.ofDigitChars 10 l 0 := by
  rw [Nat.ofDigitChars_cons, Nat.ofDigitChars_eq_ofDigitChars_zero, Nat.mul_zero, Nat.zero_add]

theorem ofDigitChars_lt {l : List Char} (h : ∀ c ∈ l, c.isDigit = true) :
    Nat.ofDigitChars 10 l 0 < 10 ^ l.length := by
  induction l with
  | nil => simp
  | cons c l ih =>
    have hc := Char.isDigit_iff_toNat.mp (h c (.head _))
    have hl := ih fun d hd => h d (.tail _ hd)
    rw [ofDigitChars_cons_zero, length_cons, Nat.pow_succ]
    have hd : c.toNat - '0'.toNat ≤ 9 := by
      simp at hc ⊢
      omega
    have hmul := Nat.mul_le_mul_left (10 ^ l.length) hd
    omega

theorem eq_nil_of_padded_zero {rest : List Char} (h : (padded 0 n).toList = '0' :: rest) :
    rest = [] := by
  by_contra hne
  have hln : 0 < rest.length := length_pos_iff.mpr hne
  have hvl := ofDigitChars_padded 0 n
  rw [h, ofDigitChars_cons_zero, Nat.sub_self, Nat.mul_zero, Nat.zero_add] at hvl
  have hlt : Nat.ofDigitChars 10 rest 0 < 10 ^ rest.length := ofDigitChars_lt fun c hc =>
    @isDigit_of_mem_padded 0 n c (by rw [h]; exact .tail _ hc)
  have hle := (Nat.length_toDigits_le_iff (by decide) hln).mpr (hvl ▸ hlt)
  rw [toList_padded, Nat.zero_sub, replicate_zero, nil_append] at h
  rw [h, length_cons] at hle
  omega

theorem leading_lt_iff {p d e x y : ℕ} (hx : x < p) (hy : y < p) :
    p * d + x < p * e + y ↔ d < e ∨ d = e ∧ x < y := by
  rcases Nat.lt_trichotomy d e with h | rfl | h
  · have hmul := Nat.mul_le_mul_left p (Nat.succ_le_of_lt h)
    rw [Nat.mul_succ] at hmul
    exact iff_of_true (by omega) (.inl h)
  · simp
  · have hmul := Nat.mul_le_mul_left p (Nat.succ_le_of_lt h)
    rw [Nat.mul_succ] at hmul
    exact iff_of_false (by omega) (by omega)

theorem digits_lt_iff {a b : List Char} (hlen : a.length = b.length)
    (ha : ∀ c ∈ a, c.isDigit = true) (hb : ∀ c ∈ b, c.isDigit = true) :
    a < b ↔ Nat.ofDigitChars 10 a 0 < Nat.ofDigitChars 10 b 0 := by
  induction a generalizing b with
  | nil =>
    obtain rfl : b = [] := length_eq_zero_iff.mp hlen.symm
    simp
  | cons c a ih =>
    cases b with
    | nil => simp at hlen
    | cons d b =>
      have hrs : a.length = b.length := Nat.succ.inj hlen
      have ha' : ∀ c ∈ a, c.isDigit = true := fun c hc => ha c (.tail _ hc)
      have hb' : ∀ c ∈ b, c.isDigit = true := fun c hc => hb c (.tail _ hc)
      have hc := Char.isDigit_iff_toNat.mp (ha c (.head _))
      have hd := Char.isDigit_iff_toNat.mp (hb d (.head _))
      have hbn : Nat.ofDigitChars 10 b 0 < 10 ^ a.length := hrs ▸ ofDigitChars_lt hb'
      have hlt : c < d ↔ c.toNat < d.toNat := UInt32.lt_iff_toNat_lt
      rw [cons_lt_cons_iff, ih hrs ha' hb', ofDigitChars_cons_zero, ofDigitChars_cons_zero,
        ← hrs, leading_lt_iff (ofDigitChars_lt ha') hbn, hlt, ← Char.toNat_inj]
      omega

/-- **Padded order.** -/
theorem padded_lt_padded {m : ℕ} (hwd : 0 < width) (hm : m < 10 ^ width) (hn : n < 10 ^ width) :
    padded width m < padded width n ↔ m < n := by
  rw [String.lt_iff_toList_lt, digits_lt_iff _ (fun _ => isDigit_of_mem_padded)
    (fun _ => isDigit_of_mem_padded), ofDigitChars_padded, ofDigitChars_padded]
  rw [length_padded hwd hm, length_padded hwd hn]

theorem append_lt_append_iff (p a b : String) : p ++ a < p ++ b ↔ a < b := by
  rw [String.lt_iff_toList_lt, String.lt_iff_toList_lt, String.toList_append, String.toList_append]
  induction p.toList with
  | nil => rfl
  | cons c p ih =>
    rw [cons_append, cons_append, cons_lt_cons_iff, ← ih]
    simp

end Trove.Lib
