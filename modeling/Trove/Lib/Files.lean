import Mathlib.Data.List.Basic

/-!
# Files behind names

A directory maps names to files and a descriptor is the file itself, so it keeps its content when
the name is moved, removed or given to another file. No two names share a file: there are no links.
Every operation is one system call.
-/

namespace Trove.Lib

open Function

/-- Names of type `π`, contents of members of `β`; files are numbered in the order they are made. -/
structure Files (π β : Type) where
  entry : π → Option ℕ
  content : ℕ → List β
  next : ℕ
  fresh : ∀ p i, entry p = some i → i < next
  single : ∀ p q i, entry p = some i → entry q = some i → p = q

namespace Files

variable {π β : Type}

/-- A disk with nothing on it. -/
def empty : Files π β where
  entry _ := none
  content _ := []
  next := 0
  fresh _ _ h := by cases h
  single _ _ _ h := by cases h

variable (f : Files π β)

def contentAt (p : π) : Option (List β) := (f.entry p).map f.content

/-- The file's content is replaced. -/
def store (i : ℕ) (c : List β) : Files π β := { f with content := update f.content i c }

def append (i : ℕ) (bytes : List β) : Files π β := f.store i (f.content i ++ bytes)

def writeAt (i offset : ℕ) (bytes : List β) : Files π β :=
  f.store i ((f.content i).take offset ++ bytes ++ (f.content i).drop (offset + bytes.length))

section Content

variable {f} {p : π} {i : ℕ}

theorem contentAt_eq_some {c : List β} :
    f.contentAt p = some c ↔ ∃ i, f.entry p = some i ∧ f.content i = c := by
  unfold contentAt
  rw [Option.map_eq_some_iff]

theorem content_store_self (c : List β) : (f.store i c).content i = c := update_self ..

theorem content_store_ne {j : ℕ} (c : List β) (h : j ≠ i) : (f.store i c).content j = f.content j :=
  update_of_ne h ..

theorem contentAt_store_ne {c : List β} (h : f.entry p ≠ some i) :
    (f.store i c).contentAt p = f.contentAt p := by
  show (f.entry p).map (f.store i c).content = (f.entry p).map f.content
  cases hp : f.entry p with
  | none => rfl
  | some j =>
    have hj : j ≠ i := by
      rintro rfl
      exact h hp
    rw [Option.map_some, Option.map_some, content_store_ne c hj]

theorem writeAt_length (bytes : List β) (offset : ℕ) (h : offset = (f.content i).length) :
    f.writeAt i offset bytes = f.append i bytes := by
  subst h
  unfold writeAt append
  rw [List.take_length, List.drop_eq_nil_of_le (by omega), List.append_nil]

end Content

variable [DecidableEq π]

def link (p : π) : Files π β where
  entry := update f.entry p (some f.next)
  content := update f.content f.next []
  next := f.next + 1
  fresh q i h := by
    by_cases hq : q = p
    · subst hq
      rw [update_self] at h
      cases h
      exact Nat.lt_succ_self _
    · rw [update_of_ne hq] at h
      exact Nat.lt_succ_of_lt (f.fresh q i h)
  single q r i hq hr := by
    by_cases hqp : q = p
    · subst hqp
      by_cases hrp : r = q
      · exact hrp.symm
      · rw [update_self] at hq
        rw [update_of_ne hrp] at hr
        cases hq
        exact absurd (f.fresh r _ hr) (Nat.lt_irrefl _)
    · rw [update_of_ne hqp] at hq
      by_cases hrp : r = p
      · subst hrp
        rw [update_self] at hr
        cases hr
        exact absurd (f.fresh q _ hq) (Nat.lt_irrefl _)
      · rw [update_of_ne hrp] at hr
        exact f.single q r i hq hr

def createExcl (p : π) : Option (ℕ × Files π β) :=
  if (f.entry p).isSome then none else some (f.next, f.link p)

/-- The name refers to nothing. -/
def remove (p : π) : Files π β where
  entry := update f.entry p none
  content := f.content
  next := f.next
  fresh q i h := by
    by_cases hq : q = p
    · subst hq
      rw [update_self] at h
      cases h
    · rw [update_of_ne hq] at h
      exact f.fresh q i h
  single q r i hq hr := by
    by_cases hqp : q = p
    · subst hqp
      rw [update_self] at hq
      cases hq
    · by_cases hrp : r = p
      · subst hrp
        rw [update_self] at hr
        cases hr
      · rw [update_of_ne hqp] at hq
        rw [update_of_ne hrp] at hr
        exact f.single q r i hq hr

variable {f} {p q : π} {i : ℕ}

theorem entry_remove_self : (f.remove p).entry p = none := update_self ..

theorem entry_remove_ne (h : q ≠ p) : (f.remove p).entry q = f.entry q := update_of_ne h ..

theorem entry_of_remove (h : (f.remove p).entry q = some i) : q ≠ p ∧ f.entry q = some i := by
  by_cases hq : q = p
  · subst hq
    rw [entry_remove_self] at h
    cases h
  · exact ⟨hq, (entry_remove_ne hq).symm.trans h⟩

theorem entry_link_self : (f.link p).entry p = some f.next := update_self ..

theorem entry_link_ne (h : q ≠ p) : (f.link p).entry q = f.entry q := update_of_ne h ..

theorem content_link_self : (f.link p).content f.next = [] := update_self ..

theorem content_link_of_lt (h : i < f.next) : (f.link p).content i = f.content i :=
  update_of_ne (Nat.ne_of_lt h) ..

theorem entry_of_link (h : (f.link p).entry q = some i) (hi : i < f.next) :
    q ≠ p ∧ f.entry q = some i := by
  by_cases hq : q = p
  · subst hq
    rw [entry_link_self] at h
    exact absurd (Option.some.inj h) (Nat.ne_of_gt hi)
  · exact ⟨hq, (entry_link_ne hq).symm.trans h⟩

variable (f p) in
/-- The file of the first name is the second's, in place of what that had; `none` when there is no
file of the first name. -/
def rename (q : π) : Option (Files π β) :=
  match h : f.entry p with
  | none => none
  | some i => some {
      entry := update (f.remove p).entry q (some i)
      content := f.content
      next := f.next
      fresh := fun r j hr => by
        by_cases hrq : r = q
        · subst hrq
          rw [update_self] at hr
          cases hr
          exact f.fresh p _ h
        · rw [update_of_ne hrq] at hr
          exact f.fresh r j (entry_of_remove hr).2
      single := fun r t j hr ht => by
        -- the moved file had the first name only, and that is gone
        have hmoved : ∀ u, (f.remove p).entry u ≠ some i := fun u hu =>
          (entry_of_remove hu).1 (f.single u p i (entry_of_remove hu).2 h)
        by_cases hrq : r = q
        · subst hrq
          rw [update_self] at hr
          cases hr
          by_cases htr : t = r
          · exact htr.symm
          · rw [update_of_ne htr] at ht
            exact absurd ht (hmoved t)
        · rw [update_of_ne hrq] at hr
          by_cases htq : t = q
          · subst htq
            rw [update_self] at ht
            cases ht
            exact absurd hr (hmoved r)
          · rw [update_of_ne htq] at ht
            exact (f.remove p).single r t j hr ht }

theorem rename_eq_some {f' : Files π β} (h : f.rename p q = some f') (hpq : p ≠ q) :
    ∃ i, f.entry p = some i ∧ f'.content = f.content ∧ f'.next = f.next ∧ f'.entry q = some i ∧
      f'.entry p = none ∧ ∀ r, r ≠ p → r ≠ q → f'.entry r = f.entry r := by
  unfold rename at h
  split at h
  · cases h
  · rename_i i hi
    cases h
    refine ⟨i, hi, rfl, rfl, update_self .., ?_, fun r hrp hrq => ?_⟩
    · exact (update_of_ne hpq ..).trans entry_remove_self
    · exact (update_of_ne hrq ..).trans (entry_remove_ne hrp)

end Files

end Trove.Lib
