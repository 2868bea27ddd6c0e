import Mathlib.Algebra.BigOperators.Group.List.Basic
import Mathlib.Tactic.Linarith
import Mathlib.Tactic.Ring

/-!
# Draining a list to a level

Items are taken off the front of a list, each lowering a level by its size, until the level is at
most a target. They are taken a page at a time, and a page that leaves the level as it was ends the
draining. `drain` counts what is taken, `levelAt` is the level after a number of items, and
`Drained` says what is taken.
-/

namespace Trove.Lib

open List

variable {α : Type*} (size : α → ℤ) (target : ℤ)

/-- The level once the first `n` items are gone. -/
def levelAt (level : ℤ) (items : List α) (n : ℕ) : ℤ := level - ((items.take n).map size).sum

def takeDown (level : ℤ) : List α → ℕ
  | [] => 0
  | a :: items => if level ≤ target then 0 else takeDown (level - size a) items + 1

/-- How many items are taken in all, in pages of `page`. Nothing when the fuel runs out. -/
def drain (page : ℕ) : ℕ → ℤ → List α → Option ℕ
  | 0, _, _ => none
  | fuel + 1, level, items =>
    if level ≤ target then some 0
    else if items.take page = [] then some 0
    else
      let taken := takeDown size target level (items.take page)
      let left := levelAt size level items taken
      if left = level then some taken
      else (drain page fuel left (items.drop taken)).map (· + taken)

variable {size target} {level : ℤ} {items : List α}

@[simp] theorem levelAt_zero : levelAt size level items 0 = level := by simp [levelAt]

theorem levelAt_cons_succ (a : α) (n : ℕ) :
    levelAt size level (a :: items) (n + 1) = levelAt size (level - size a) items n := by
  simp only [levelAt, take_succ_cons, map_cons, sum_cons]
  ring

theorem levelAt_add (m n : ℕ) :
    levelAt size level items (m + n) =
      levelAt size (levelAt size level items m) (items.drop m) n := by
  simp only [levelAt, take_add, map_append, sum_append]
  ring

theorem levelAt_take {m n : ℕ} (h : n ≤ m) :
    levelAt size level (items.take m) n = levelAt size level items n := by
  rw [levelAt, take_take, min_eq_left h, levelAt]

/-! ## One page -/

theorem takeDown_le_length : takeDown size target level items ≤ items.length := by
  induction items generalizing level with
  | nil => simp [takeDown]
  | cons a items ih =>
    rw [takeDown]
    split_ifs
    · exact Nat.zero_le _
    · simpa using ih

theorem takeDown_pos (hlv : target < level) (him : items ≠ []) :
    0 < takeDown size target level items := by
  cases items with
  | nil => exact absurd rfl him
  | cons a items =>
    rw [takeDown, if_neg (not_le.mpr hlv)]
    exact Nat.succ_pos _

theorem target_lt_of_lt_takeDown {n : ℕ} (hn : n < takeDown size target level items) :
    target < levelAt size level items n := by
  induction items generalizing level n with
  | nil => simp [takeDown] at hn
  | cons a items ih =>
    rw [takeDown] at hn
    split_ifs at hn with hlv
    · exact absurd hn (Nat.not_lt_zero _)
    · cases n with
      | zero => simpa using hlv
      | succ n =>
        rw [levelAt_cons_succ]
        exact ih (by omega)

theorem takeDown_eq_length_or :
    takeDown size target level items = items.length ∨
      levelAt size level items (takeDown size target level items) ≤ target := by
  induction items generalizing level with
  | nil => exact .inl rfl
  | cons a items ih =>
    rw [takeDown]
    split_ifs with hlv
    · exact .inr (by simpa using hlv)
    · rw [levelAt_cons_succ, length_cons]
      exact ih.imp_left (congrArg (· + 1))

/-! ## All pages -/

/-- A page of the list that is reached above the target, weighs nothing and has items behind it. -/
def Stalls (size : α → ℤ) (target : ℤ) (page : ℕ) (level : ℤ) (items : List α) : Prop :=
  ∃ k, (k + 1) * page < items.length ∧
    (∀ n ≤ (k + 1) * page, target < levelAt size level items n) ∧
    levelAt size level items ((k + 1) * page) = levelAt size level items (k * page)

structure Drained (size : α → ℤ) (target : ℤ) (page : ℕ) (level : ℤ) (items : List α) (n : ℕ) :
    Prop where
  le_length : n ≤ items.length
  above : ∀ m < n, target < levelAt size level items m
  ends : levelAt size level items n ≤ target ∨ n = items.length ∨
    Stalls size target page level items
  short : Stalls size target page level items →
    target < levelAt size level items n ∧ n < items.length

theorem Drained.zero {page : ℕ} (hend : level ≤ target ∨ items = []) :
    Drained size target page level items 0 where
  le_length := Nat.zero_le _
  above := fun m hm => absurd hm (Nat.not_lt_zero m)
  ends := by
    rcases hend with hlv | rfl
    · exact .inl (by simpa using hlv)
    · exact .inr (.inl rfl)
  short := by
    rintro ⟨k, hln, hab, -⟩
    rcases hend with hlv | rfl
    · have hst := hab 0 (Nat.zero_le _)
      rw [levelAt_zero] at hst
      exact absurd hlv (not_le.mpr hst)
    · simp at hln

theorem stalls_drop_iff {page : ℕ} (hpg : page ≤ items.length)
    (hab : ∀ n ≤ page, target < levelAt size level items n)
    (hwg : levelAt size level items page ≠ level) :
    Stalls size target page (levelAt size level items page) (items.drop page) ↔
      Stalls size target page level items := by
  constructor
  · rintro ⟨k, hln, hrs, hst⟩
    rw [length_drop] at hln
    refine ⟨k + 1, ?_, fun n hn => ?_, ?_⟩
    · rw [add_mul]
      omega
    · rcases le_total n page with hle | hle
      · exact hab n hle
      · obtain ⟨m, rfl⟩ := Nat.exists_eq_add_of_le hle
        rw [levelAt_add]
        refine hrs m ?_
        rw [add_mul, one_mul] at hn
        omega
    · rw [add_mul, one_mul, add_comm, levelAt_add, hst, ← levelAt_add]
      congr 1
      ring
  · rintro ⟨k, hln, hall, hst⟩
    cases k with
    | zero =>
      refine absurd ?_ hwg
      simpa using hst
    | succ k =>
      have hsp : (k + 1 + 1) * page = page + (k + 1) * page := by ring
      have hsp' : (k + 1) * page = page + k * page := by ring
      refine ⟨k, ?_, fun n hn => ?_, ?_⟩
      · rw [length_drop]
        omega
      · rw [← levelAt_add]
        exact hall _ (by omega)
      · rw [← levelAt_add, ← levelAt_add, ← hsp, ← hsp']
        exact hst

theorem Drained.stall {page : ℕ} (hlv : target < level)
    (hst : levelAt size level items (takeDown size target level (items.take page)) = level) :
    Drained size target page level items (takeDown size target level (items.take page)) := by
  set taken := takeDown size target level (items.take page) with htk
  have hle : taken ≤ (items.take page).length := takeDown_le_length
  rw [length_take] at hle
  have hab : ∀ m < taken, target < levelAt size level items m := by
    intro m hm
    rw [← levelAt_take (show m ≤ page by omega)]
    exact target_lt_of_lt_takeDown hm
  have hwh : taken = (items.take page).length := by
    refine takeDown_eq_length_or.resolve_right ?_
    rw [← htk, levelAt_take (by omega), hst]
    exact not_le.mpr hlv
  rw [length_take] at hwh
  -- the page stalls the draining unless it is the last one
  have hcs : taken = items.length ∨ taken = page ∧ page < items.length := by omega
  refine ⟨by omega, hab, ?_, ?_⟩
  · rcases hcs with hall | ⟨hpg, hmr⟩
    · exact .inr (.inl hall)
    · refine .inr (.inr ⟨0, by simpa using hmr, fun n hn => ?_, ?_⟩)
      · rw [zero_add, one_mul, ← hpg] at hn
        rcases hn.lt_or_eq with hlt | rfl
        · exact hab n hlt
        · rw [hst]
          exact hlv
      · rw [zero_add, one_mul, zero_mul, levelAt_zero, ← hpg]
        exact hst
  · rintro ⟨k, hln, -, -⟩
    have hmr : page < items.length := by
      have hone : page ≤ (k + 1) * page := Nat.le_mul_of_pos_left page (Nat.succ_pos k)
      omega
    refine ⟨?_, by omega⟩
    rw [hst]
    exact hlv

theorem Drained.page {page n : ℕ} (him : items.take page ≠ [])
    (hwg : levelAt size level items (takeDown size target level (items.take page)) ≠ level)
    (hrs : Drained size target page
      (levelAt size level items (takeDown size target level (items.take page)))
      (items.drop (takeDown size target level (items.take page))) n) :
    Drained size target page level items (n + takeDown size target level (items.take page)) := by
  set taken := takeDown size target level (items.take page) with htk
  have hle : taken ≤ (items.take page).length := takeDown_le_length
  rw [length_take] at hle
  have hab : ∀ m < taken, target < levelAt size level items m := by
    intro m hm
    rw [← levelAt_take (show m ≤ page by omega)]
    exact target_lt_of_lt_takeDown hm
  -- above the target, the page was taken whole
  have hwh : target < levelAt size level items taken → taken = min page items.length := by
    intro hlf
    rw [← length_take]
    refine takeDown_eq_length_or.resolve_right ?_
    rw [← htk, levelAt_take (by omega)]
    exact not_le.mpr hlf
  have hst : target < levelAt size level items taken → page < items.length →
      (Stalls size target page (levelAt size level items taken) (items.drop taken) ↔
        Stalls size target page level items) := by
    intro hlf hmr
    have hpg : taken = page := by
      have := hwh hlf
      omega
    rw [hpg] at hlf hwg hab ⊢
    refine stalls_drop_iff hmr.le (fun n hn => ?_) hwg
    rcases hn.lt_or_eq with hlt | rfl
    · exact hab n hlt
    · exact hlf
  have hln := hrs.le_length
  rw [length_drop] at hln
  refine ⟨by omega, fun m hm => ?_, ?_, ?_⟩
  · rcases lt_or_ge m taken with hlt | hge
    · exact hab m hlt
    · obtain ⟨d, rfl⟩ := Nat.exists_eq_add_of_le hge
      rw [levelAt_add]
      exact hrs.above d (by omega)
  · rw [add_comm, levelAt_add]
    rcases hrs.ends with hdn | hall | hsl
    · exact .inl hdn
    · rw [length_drop] at hall
      exact .inr (.inl (by omega))
    · obtain ⟨k, hmr, hrc, -⟩ := id hsl
      have hlf := hrc 0 (Nat.zero_le _)
      rw [levelAt_zero] at hlf
      rw [length_drop] at hmr
      have hpg := hwh hlf
      exact .inr (.inr ((hst hlf (by omega)).mp hsl))
  · intro hsl
    obtain ⟨k, hmr, hrc, -⟩ := id hsl
    have hone : page ≤ (k + 1) * page := Nat.le_mul_of_pos_left page (Nat.succ_pos k)
    have hlf : target < levelAt size level items taken := hrc taken (by omega)
    obtain ⟨hsh, hfw⟩ := hrs.short ((hst hlf (by omega)).mpr hsl)
    rw [length_drop] at hfw
    rw [add_comm, levelAt_add]
    exact ⟨hsh, by omega⟩

/-- **Draining.** It ends within as many pages as there are items and one. -/
theorem drain_eq {page : ℕ} (hpg : 0 < page) {fuel : ℕ} (hfl : items.length < fuel) :
    ∃ n, drain size target page fuel level items = some n ∧
      Drained size target page level items n := by
  induction fuel generalizing level items with
  | zero => exact absurd hfl (Nat.not_lt_zero _)
  | succ fuel ih =>
    rw [drain]
    by_cases hlv : level ≤ target
    · rw [if_pos hlv]
      exact ⟨0, rfl, Drained.zero (.inl hlv)⟩
    rw [if_neg hlv]
    by_cases him : items.take page = []
    · rw [if_pos him]
      rcases take_eq_nil_iff.mp him with hzr | hnil
      · omega
      · exact ⟨0, rfl, Drained.zero (.inr hnil)⟩
    rw [if_neg him]
    by_cases hst :
        levelAt size level items (takeDown size target level (items.take page)) = level
    · rw [if_pos hst]
      exact ⟨_, rfl, Drained.stall (not_le.mp hlv) hst⟩
    · rw [if_neg hst]
      set taken := takeDown size target level (items.take page)
      have hpos : 0 < taken := takeDown_pos (not_le.mp hlv) him
      have hne : items ≠ [] := fun hnil => him (by rw [hnil, take_nil])
      have hln := length_pos_iff.mpr hne
      have hfw : (items.drop taken).length < fuel := by
        rw [length_drop]
        omega
      obtain ⟨n, hdr, hdn⟩ : ∃ n,
          drain size target page fuel (levelAt size level items taken) (items.drop taken) = some n ∧
            Drained size target page (levelAt size level items taken) (items.drop taken) n :=
        ih hfw
      exact ⟨n + taken, by rw [hdr]; rfl, Drained.page him hst hdn⟩

end Trove.Lib
