import Mathlib.Data.String.Basic
import Trove.Lib.Digits
import Trove.Lib.Run
import Trove.Meta.Types

/-!
# Event ids

An id is 48 bits of milliseconds and 80 bits of entropy, written as 26 digits of base 32 whose order
is the order of the ids. Within one millisecond, and when the clock goes back, the entropy of the
last id is counted up instead of being drawn again; when the count wraps, it is drawn afresh, and
the id is not greater than the one before it (`lt_new_iff`).
-/

namespace Trove.Event

open Lib Meta List

/-- The Unix epoch, from Go's zero time. -/
def unixEpoch : Time := 62135596800 * second

def unixMilli (at_ : Time) : ℤ := (at_ - unixEpoch) / 10 ^ 6

/-- What `io.ReadFull` does to the ten bytes: it fills them, or fails behind the first few. -/
inductive Draw
  | filled (bytes : List UInt8) (whole : bytes.length = 10)
  | failed (bytes : List UInt8) (short : bytes.length < 10)

structure IDSource where
  lastMS : ℤ := 0
  last : List UInt8 := List.replicate 10 0
  started : Bool := false
  size : last.length = 10 := by decide

structure Call where
  at_ : Time
  draw : Draw

def Call.InRange (c : Call) : Prop := 0 ≤ unixMilli c.at_ ∧ unixMilli c.at_ < 2 ^ 48

instance (c : Call) : Decidable c.InRange := inferInstanceAs (Decidable (_ ∧ _))

/-! ## The text of an id -/

def crockford : List Char := "0123456789ABCDEFGHJKMNPQRSTVWXYZ".toList

def idLength : ℕ := 26

/-- Bit `n` of the 128-bit value, counted from the least significant. -/
def bitAt (raw : List UInt8) (n : ℕ) : ℕ :=
  if 128 ≤ n then 0 else ((raw.getD (15 - n / 8) 0).toNat >>> (n % 8)) &&& 1

def digitAt (raw : List UInt8) (shift : ℕ) : ℕ :=
  [4, 3, 2, 1, 0].foldl (fun digit bit => digit <<< 1 ||| bitAt raw (shift + bit)) 0

def encodeCrockford (raw : List UInt8) : String :=
  String.ofList ((List.range idLength).map fun i =>
    crockford.getD (digitAt raw (5 * (idLength - 1 - i))) '0')

def byteAt (ms : ℤ) (shift : ℕ) : UInt8 := UInt8.ofNat (ms / 2 ^ shift % 256).toNat

def rawID (ms : ℤ) (last : List UInt8) : List UInt8 :=
  [byteAt ms 40, byteAt ms 32, byteAt ms 24, byteAt ms 16, byteAt ms 8, byteAt ms 0] ++ last

namespace IDSource

variable (s : IDSource)

/-- A reader that fails leaves what it did not overwrite, which is counted up. -/
def drawn (d : Draw) (last : List UInt8) : List UInt8 :=
  match d with
  | .filled bytes _ => bytes
  | .failed bytes _ => (increment (bytes ++ last.drop bytes.length)).1

/-- The entropy of the same millisecond, or of an earlier one. -/
def stepped (d : Draw) : List UInt8 :=
  if (increment s.last).2 then (increment s.last).1 else drawn d (increment s.last).1

/-- The milliseconds and the entropy of the next id. -/
def next (c : Call) : ℤ × List UInt8 :=
  if s.started ∧ unixMilli c.at_ = s.lastMS then (unixMilli c.at_, s.stepped c.draw)
  else if s.started ∧ unixMilli c.at_ < s.lastMS then (s.lastMS, s.stepped c.draw)
  else (unixMilli c.at_, drawn c.draw s.last)

theorem length_drawn (d : Draw) {last : List UInt8} (h : last.length = 10) :
    (drawn d last).length = 10 := by
  cases d with
  | filled bytes whole => exact whole
  | failed bytes short =>
    rw [drawn, length_increment, length_append, length_drop]
    omega

theorem length_stepped (d : Draw) : (s.stepped d).length = 10 := by
  have hsz : (increment s.last).1.length = 10 := (length_increment _).trans s.size
  unfold stepped
  split_ifs
  · exact hsz
  · exact length_drawn d hsz

theorem length_next (c : Call) : (s.next c).2.length = 10 := by
  unfold next
  split_ifs
  · exact s.length_stepped c.draw
  · exact s.length_stepped c.draw
  · exact length_drawn c.draw s.size

/-- The next id. -/
def new (c : Call) : String × IDSource :=
  (encodeCrockford (rawID (s.next c).1 (s.next c).2),
    ⟨(s.next c).1, (s.next c).2, true, s.length_next c⟩)

end IDSource

/-! ## The order of ids -/

variable {raw : List UInt8}

theorem bitAt_eq (h : raw.length = 16) (n : ℕ) : bitAt raw n = value raw / 2 ^ n % 2 := by
  unfold bitAt
  split_ifs with hn
  · have hlt : value raw < 2 ^ n :=
      (value_lt raw).trans_le (by rw [h]; exact Nat.pow_le_pow_right two_pos hn)
    rw [Nat.div_eq_of_lt hlt]
  · have hby := getD_eq_value_div raw (k := n / 8) (by omega)
    have hsp : (2 : ℕ) ^ n = 256 ^ (n / 8) * 2 ^ (n % 8) := by
      rw [show (256 : ℕ) = 2 ^ 8 from rfl, ← pow_mul, ← pow_add, Nat.div_add_mod]
    rw [h] at hby
    rw [hby, Nat.shiftRight_eq_div_pow, Nat.and_one_is_mod, hsp, ← Nat.div_div_eq_div_mul]
    have hr : n % 8 < 8 := Nat.mod_lt n (by decide)
    interval_cases n % 8 <;> omega

theorem digitAt_eq (h : raw.length = 16) (shift : ℕ) :
    digitAt raw shift = value raw / 2 ^ shift % 32 := by
  have hor : ∀ digit n, digit <<< 1 ||| bitAt raw n = 2 * digit + value raw / 2 ^ n % 2 := by
    intro digit n
    rw [bitAt_eq h, ← Nat.shiftLeft_add_eq_or_of_lt (by omega), Nat.shiftLeft_eq]
    omega
  simp only [digitAt, foldl_cons, foldl_nil, hor, pow_add, ← Nat.div_div_eq_div_mul]
  omega

theorem encodeCrockford_eq (h : raw.length = 16) :
    encodeCrockford raw = String.ofList (spell 32 (crockford.getD · '0') idLength (value raw)) := by
  refine congrArg _ (map_congr_left fun i _ => ?_)
  rw [digitAt_eq h, pow_mul]
  rfl

theorem encodeCrockford_lt_iff {raw' : List UInt8} (h : raw.length = 16) (h' : raw'.length = 16) :
    encodeCrockford raw < encodeCrockford raw' ↔ value raw < value raw' := by
  have hft : ∀ {bytes : List UInt8}, bytes.length = 16 → value bytes < 32 ^ idLength :=
    fun hby => (value_lt _).trans_le (by rw [hby]; decide)
  have hal : ∀ j < 32, ∀ i < j, crockford.getD i '0' < crockford.getD j '0' := by decide
  rw [encodeCrockford_eq h, encodeCrockford_eq h', String.lt_iff_toList_lt, String.toList_ofList,
    String.toList_ofList]
  exact spell_lt_spell (by decide) (fun i j hij hj => hal j hj i hij) (hft h) (hft h')

/-- **Order of ids.** Ids of 16 bytes have 26 characters, in the order of the 128-bit numbers the
bytes write, and distinct bytes have distinct ids. -/
theorem encodeCrockford_orders (raw raw' : {bytes : List UInt8 // bytes.length = 16}) :
    (encodeCrockford raw.1).length = 26 ∧
      (encodeCrockford raw.1 < encodeCrockford raw'.1 ↔ value raw.1 < value raw'.1) ∧
      (encodeCrockford raw.1 = encodeCrockford raw'.1 ↔ raw = raw') := by
  refine ⟨by simp [encodeCrockford, idLength], encodeCrockford_lt_iff raw.2 raw'.2, ?_⟩
  refine ⟨fun heq => Subtype.ext ?_, fun heq => by rw [heq]⟩
  -- neither number is below the other
  have hge := (encodeCrockford_lt_iff raw.2 raw'.2).not.mp (heq ▸ lt_irrefl _)
  have hle := (encodeCrockford_lt_iff raw'.2 raw.2).not.mp (heq ▸ lt_irrefl _)
  exact value_injOn (raw.2.trans raw'.2.symm) (le_antisymm (not_lt.mp hle) (not_lt.mp hge))

theorem toNat_byteAt (ms shift : ℕ) : (byteAt ms shift).toNat = ms / 2 ^ shift % 256 := by
  have hcs : ((ms : ℤ) / 2 ^ shift % 256).toNat = ms / 2 ^ shift % 256 := by
    rfl
  rw [byteAt, hcs, UInt8.toNat_ofNat', Nat.mod_eq_of_lt (Nat.mod_lt _ (by decide))]

theorem value_stamp {ms : ℕ} (hms : ms < 2 ^ 48) :
    value [byteAt ms 40, byteAt ms 32, byteAt ms 24, byteAt ms 16, byteAt ms 8, byteAt ms 0] =
      ms := by
  simp only [value, reverse_cons, reverse_nil, nil_append, cons_append,
    map_cons, map_nil, Nat.ofDigits_cons, Nat.ofDigits_nil, toNat_byteAt]
  omega

theorem value_rawID {ms : ℤ} (hms : 0 ≤ ms ∧ ms < 2 ^ 48) {last : List UInt8}
    (hls : last.length = 10) : value (rawID ms last) = 256 ^ 10 * ms.toNat + value last := by
  obtain ⟨n, rfl⟩ := Int.eq_ofNat_of_zero_le hms.1
  rw [rawID, value_append, hls, value_stamp (by exact_mod_cast hms.2), Int.toNat_natCast]

namespace IDSource

/-- The last id, as text. -/
def lastID (s : IDSource) : String := encodeCrockford (rawID s.lastMS s.last)

def number (s : IDSource) : ℕ := 256 ^ 10 * s.lastMS.toNat + value s.last

/-- Its milliseconds fit the 48 bits. -/
def Stamped (s : IDSource) : Prop := 0 ≤ s.lastMS ∧ s.lastMS < 2 ^ 48

/-- The call is not later than the last id, whose entropy cannot be counted up. -/
def Overflows (s : IDSource) (c : Call) : Prop :=
  s.started = true ∧ unixMilli c.at_ ≤ s.lastMS ∧ (increment s.last).2 = false

instance (s : IDSource) (c : Call) : Decidable (s.Overflows c) :=
  inferInstanceAs (Decidable (_ ∧ _ ∧ _))

variable {s : IDSource} {c : Call}

theorem lastID_lt_iff {t : IDSource} (hs : s.Stamped) (ht : t.Stamped) :
    s.lastID < t.lastID ↔ s.number < t.number := by
  have hln : ∀ u : IDSource, (rawID u.lastMS u.last).length = 16 := fun u => by
    simp [rawID, u.size]
  rw [lastID, lastID, encodeCrockford_lt_iff (hln s) (hln t), value_rawID hs s.size,
    value_rawID ht t.size]
  rfl

theorem new_fst : (s.new c).1 = (s.new c).2.lastID := rfl

theorem stamped_new (hc : c.InRange) (hs : s.started = true → s.Stamped) :
    (s.new c).2.Stamped := by
  show 0 ≤ (s.next c).1 ∧ (s.next c).1 < 2 ^ 48
  unfold next
  split_ifs with _ hbc
  · exact hc
  · exact hs hbc.1
  · exact hc

section

variable (hst : s.started = true) (hs : s.Stamped)
include hst hs

theorem number_lt_new_iff : s.number < (s.new c).2.number ↔ ¬ s.Overflows c := by
  have hls := value_lt s.last
  have hnx := value_lt (s.next c).2
  have hsp := value_increment s.last
  rw [s.length_next c] at hnx
  rw [s.size] at hls hsp
  have hnm : (s.new c).2.number = 256 ^ 10 * (s.next c).1.toNat + value (s.next c).2 := rfl
  obtain ⟨hms', -⟩ := hs
  rw [hnm, number, Overflows]
  rcases lt_or_ge s.lastMS (unixMilli c.at_) with hlr | her
  · -- a later millisecond outweighs the entropy
    have hfst : (s.next c).1 = unixMilli c.at_ := by
      rw [next, if_neg (fun h => hlr.ne' h.2), if_neg (fun h => lt_asymm hlr h.2)]
    rw [hfst]
    refine iff_of_true ?_ fun h => (not_le.mpr hlr) h.2.1
    omega
  · have hpr : s.next c = (s.lastMS, s.stepped c.draw) := by
      unfold next
      rcases her.lt_or_eq with hlt | heq
      · rw [if_neg (fun h => hlt.ne h.2), if_pos ⟨hst, hlt⟩]
      · rw [if_pos ⟨hst, heq⟩, heq]
    rw [hpr] at hnx ⊢
    simp only [hst, her, true_and]
    unfold stepped at hnx ⊢
    cases hwr : (increment s.last).2 with
    | true =>
      simp only [hwr, if_true] at hsp ⊢
      exact iff_of_true (by omega) (by decide)
    | false =>
      simp only [hwr, Bool.false_eq_true, if_false] at hsp hnx ⊢
      exact iff_of_false (by omega) (by simp)

theorem lt_new_iff (hc : c.InRange) : s.lastID < (s.new c).1 ↔ ¬ s.Overflows c := by
  rw [new_fst, lastID_lt_iff hs (stamped_new hc fun _ => hs)]
  exact number_lt_new_iff hst hs

theorem lt_outputs {calls : List Call}
    (hcl : Along (fun s c => some (s.new c).2) (fun s c => ¬ s.Overflows c ∧ c.InRange) s calls) :
    (∀ x ∈ outputs new s calls, s.lastID < x) ∧ (outputs new s calls).Pairwise (· < ·) := by
  induction calls generalizing s with
  | nil => simp [outputs]
  | cons c calls ih =>
    obtain ⟨⟨hov, hc⟩, hrs⟩ := hcl
    have hlt := (lt_new_iff hst hs hc).mpr hov
    obtain ⟨hgr, hsr⟩ := ih rfl (stamped_new hc fun _ => hs) (hrs _ rfl)
    rw [outputs, forall_mem_cons, pairwise_cons]
    exact ⟨⟨hlt, fun x hx => hlt.trans (hgr x hx)⟩, hgr, hsr⟩

end

end IDSource

/-- **Ids increase.** For every list of calls with instants from the epoch to 2^48 milliseconds, in
any order, and whatever the reader does: if no call has to count the entropy of the last id past its
end, each id is greater than all before it. -/
theorem ids_increase (calls : List Call) (hrange : ∀ c ∈ calls, c.InRange)
    (hcount : Along (fun s c => some (IDSource.new s c).2) (fun s c => ¬ s.Overflows c) {} calls) :
    (outputs IDSource.new {} calls).Pairwise (· < ·) := by
  have hcl := hcount.and hrange
  cases calls with
  | nil => exact List.Pairwise.nil
  | cons c calls =>
    obtain ⟨⟨-, hc⟩, hrs⟩ := hcl
    have hst := IDSource.stamped_new (s := {}) hc fun h => by cases h
    exact pairwise_cons.mpr (IDSource.lt_outputs rfl hst (hrs _ rfl))

def fifthMilli (byte : UInt8) : Call :=
  ⟨unixEpoch + 5 * 10 ^ 6, .filled (List.replicate 10 byte) length_replicate⟩

/-- Two ids of one millisecond. -/
theorem ids_increase_sameTick :
    (outputs IDSource.new {} [fifthMilli 7, fifthMilli 7]).Pairwise (· < ·) := by
  have hc : (fifthMilli 7).InRange := by decide
  exact ids_increase [fifthMilli 7, fifthMilli 7] (by simp [hc]) (by decide)

/-- The greatest entropy is drawn, and what is drawn when its count wraps is the least. -/
theorem wrapped_id_decreases :
    (fifthMilli 255).InRange ∧ (fifthMilli 0).InRange ∧
      outputs IDSource.new {} [fifthMilli 255, fifthMilli 0] =
        ["0000000005ZZZZZZZZZZZZZZZZ", "00000000050000000000000000"] ∧
      ¬ "0000000005ZZZZZZZZZZZZZZZZ" < "00000000050000000000000000" := by
  refine ⟨by decide, by decide, by decide +kernel, by decide⟩

end Trove.Event
