import Mathlib.Data.List.GetD
import Mathlib.Data.Nat.Digits.Lemmas
import Mathlib.Data.UInt

/-!
# Numbers as bytes and as digits

The number that a list of bytes writes, most significant first, and its digits in another base. The
counter on bytes with its carry is the successor (`value_increment`). Digits of one width are in the
order of the numbers they write (`spell_lt_spell`).
-/

namespace Trove.Lib

open List

/-- The number the bytes write, most significant first. -/
def value (bytes : List UInt8) : ℕ := Nat.ofDigits 256 (bytes.reverse.map UInt8.toNat)

theorem value_append (xs ys : List UInt8) :
    value (xs ++ ys) = 256 ^ ys.length * value xs + value ys := by
  rw [value, reverse_append, map_append, Nat.ofDigits_append, length_map,
    length_reverse, add_comm]
  rfl

theorem value_lt (bytes : List UInt8) : value bytes < 256 ^ bytes.length := by
  have hlt := Nat.ofDigits_lt_base_pow_length (by decide : 1 < 256)
    (l := bytes.reverse.map UInt8.toNat) fun x hx => by
      obtain ⟨byte, -, rfl⟩ := mem_map.mp hx
      exact byte.toNat_lt
  simpa [value] using hlt

theorem value_injOn {xs ys : List UInt8} (hln : xs.length = ys.length)
    (h : value xs = value ys) : xs = ys := by
  have hdg : ∀ (l : List UInt8), ∀ d ∈ l.reverse.map UInt8.toNat, d < 256 := by
    intro l d hd
    obtain ⟨byte, -, rfl⟩ := mem_map.mp hd
    exact byte.toNat_lt
  have hmap := Nat.ofDigits_inj_of_len_eq (by decide : 1 < 256) (by simpa using hln)
    (hdg xs) (hdg ys) h
  exact reverse_injective
    ((map_injective_iff.mpr fun _ _ => UInt8.toNat_inj.mp) hmap)

theorem getD_eq_value_div (bytes : List UInt8) {k : ℕ} (hk : k < bytes.length) :
    (bytes.getD (bytes.length - 1 - k) 0).toNat = value bytes / 256 ^ k % 256 := by
  induction bytes using List.reverseRecOn generalizing k with
  | nil => exact absurd hk (Nat.not_lt_zero k)
  | append_singleton bytes byte ih =>
    have hby := byte.toNat_lt
    have hvl : value (bytes ++ [byte]) = 256 * value bytes + byte.toNat := by
      rw [value_append]
      simp [value]
    rw [length_append, length_singleton] at hk ⊢
    cases k with
    | zero =>
      simp only [getD_append_right _ _ _ _ le_rfl, Nat.add_sub_cancel, Nat.sub_zero,
        Nat.sub_self, getD_cons_zero, pow_zero, Nat.div_one]
      omega
    | succ k =>
      rw [getD_append _ _ _ _ (by omega), show bytes.length + 1 - 1 - (k + 1) =
        bytes.length - 1 - k by omega, ih (by omega), pow_succ', ← Nat.div_div_eq_div_mul]
      congr 2
      omega

/-! ## A counter with its carry -/

/-- One is added to the first byte, and to the next ones while it wraps. -/
def carry : List UInt8 → List UInt8 × Bool
  | [] => ([], false)
  | b :: rest =>
    if b + 1 ≠ 0 then ((b + 1) :: rest, true) else ((b + 1) :: (carry rest).1, (carry rest).2)

/-- One is added to a big-endian counter; `false` when it wrapped. -/
def increment (bytes : List UInt8) : List UInt8 × Bool :=
  ((carry bytes.reverse).1.reverse, (carry bytes.reverse).2)

theorem carry_spec (l : List UInt8) :
    (carry l).1.length = l.length ∧
      Nat.ofDigits 256 ((carry l).1.map UInt8.toNat) + (if (carry l).2 then 0 else 256 ^ l.length) =
        Nat.ofDigits 256 (l.map UInt8.toNat) + 1 := by
  induction l with
  | nil => simp [carry]
  | cons b l ih =>
    obtain ⟨hln, hvl⟩ := ih
    have hb := b.toNat_lt
    have hsc : (b + 1).toNat = (b.toNat + 1) % 256 := by simp
    have hzr : b + 1 = 0 ↔ (b + 1).toNat = 0 := UInt8.toNat_inj.symm
    rw [carry]
    by_cases hwr : b + 1 = 0
    · rw [if_neg (not_not.mpr hwr)]
      rw [hzr] at hwr
      simp only [map_cons, Nat.ofDigits_cons, length_cons, hln, pow_succ, true_and]
      split_ifs at hvl ⊢ <;> omega
    · rw [if_pos hwr]
      rw [hzr] at hwr
      simp only [map_cons, Nat.ofDigits_cons, length_cons, hsc, if_true, true_and]
      omega

@[simp] theorem length_increment (bytes : List UInt8) :
    (increment bytes).1.length = bytes.length := by
  simp [increment, (carry_spec bytes.reverse).1]

theorem value_increment (bytes : List UInt8) :
    value (increment bytes).1 + (if (increment bytes).2 then 0 else 256 ^ bytes.length) =
      value bytes + 1 := by
  have hcr := (carry_spec bytes.reverse).2
  rw [length_reverse] at hcr
  rwa [value, increment, reverse_reverse]

/-! ## Digits in order -/

variable {β : Type*} (b : ℕ) (digit : ℕ → β)

/-- The `n` lowest digits of the number in base `b`, most significant first, each spelled. -/
def spell (n v : ℕ) : List β := (List.range n).map fun i => digit (v / b ^ (n - 1 - i) % b)

variable {b digit}

theorem spell_succ (n v : ℕ) :
    spell b digit (n + 1) v = digit (v / b ^ n % b) :: spell b digit n v := by
  rw [spell, range_succ_eq_map, map_cons, map_map]
  refine congrArg₂ _ (by simp) (map_congr_left fun i _ => ?_)
  rw [Function.comp_apply, Nat.succ_eq_add_one, show n + 1 - 1 - (i + 1) = n - 1 - i by omega]

variable [LinearOrder β]

theorem spell_lt_of_mod_lt (hb : 0 < b) (hdg : ∀ i j, i < j → j < b → digit i < digit j)
    {n v w : ℕ} (h : v % b ^ n < w % b ^ n) : spell b digit n v < spell b digit n w := by
  induction n with
  | zero =>
    rw [pow_zero, Nat.mod_one, Nat.mod_one] at h
    omega
  | succ n ih =>
    rw [Nat.mod_pow_succ, Nat.mod_pow_succ] at h
    rw [spell_succ, spell_succ, cons_lt_cons_iff]
    have hw := Nat.mod_lt w (pow_pos hb n)
    rcases lt_trichotomy (v / b ^ n % b) (w / b ^ n % b) with hlt | heq | hgt
    · exact .inl (hdg _ _ hlt (Nat.mod_lt _ hb))
    · rw [heq] at h ⊢
      exact .inr ⟨rfl, ih (by omega)⟩
    · have hmul := Nat.mul_le_mul_left (b ^ n) (Nat.succ_le_of_lt hgt)
      rw [Nat.mul_succ] at hmul
      have hrs := Nat.zero_le (v % b ^ n)
      omega

theorem spell_lt_spell (hb : 0 < b) (hdg : ∀ i j, i < j → j < b → digit i < digit j)
    {n v w : ℕ} (hv : v < b ^ n) (hw : w < b ^ n) :
    spell b digit n v < spell b digit n w ↔ v < w := by
  have hmn : ∀ {v w : ℕ}, v < b ^ n → w < b ^ n → v < w →
      spell b digit n v < spell b digit n w := fun hv hw hlt =>
    spell_lt_of_mod_lt hb hdg (by rwa [Nat.mod_eq_of_lt hv, Nat.mod_eq_of_lt hw])
  refine ⟨fun h => ?_, hmn hv hw⟩
  rcases lt_trichotomy v w with hlt | rfl | hgt
  · exact hlt
  · exact absurd h (lt_irrefl _)
  · exact absurd h (lt_asymm (hmn hw hv hgt))

end Trove.Lib
