import Mathlib.Data.List.AList
import Mathlib.Data.List.Induction

/-!
# Finite maps and tables

`AList` is the model of a Go map: entries with distinct keys, in an order no operation depends on.
This module adds the values in entry order, the restriction of a map to the entries that pass a
test, and what both do to lookups.

A `Table key` is a map that stores each value under its own key. A map of lists that is only built
up and read is a function, and `appendAt` is `m[k] = append(m[k], v)`.
-/

namespace AList

variable {κ ν : Type*} [DecidableEq κ]

/-- In entry order. -/
def values (m : AList fun _ : κ => ν) : List ν := m.entries.map Sigma.snd

def restrict (p : κ → ν → Bool) (m : AList fun _ : κ => ν) : AList fun _ : κ => ν where
  entries := m.entries.filter fun e => p e.1 e.2
  nodupKeys := m.nodupKeys.sublist List.filter_sublist

variable {m : AList fun _ : κ => ν} {v : ν} {k : κ}

theorem mem_values : v ∈ m.values ↔ ∃ k, m.lookup k = some v := by
  constructor
  · intro h
    obtain ⟨⟨k, w⟩, he, rfl⟩ := List.mem_map.mp h
    exact ⟨k, mem_lookup_iff.mpr he⟩
  · rintro ⟨k, hk⟩
    exact List.mem_map.mpr ⟨⟨k, v⟩, mem_lookup_iff.mp hk, rfl⟩

theorem lookup_restrict_eq_some {p : κ → ν → Bool} :
    (m.restrict p).lookup k = some v ↔ m.lookup k = some v ∧ p k v = true := by
  have h := mem_lookup_iff (s := m.restrict p) (a := k) (b := v)
  have h' := mem_lookup_iff (s := m) (a := k) (b := v)
  rw [Option.mem_def] at h h'
  rw [h, h']
  exact List.mem_filter

theorem lookup_insert_eq_some {k' : κ} {w : ν} :
    (m.insert k v).lookup k' = some w ↔ (k' = k ∧ v = w) ∨ (k' ≠ k ∧ m.lookup k' = some w) := by
  by_cases h : k' = k
  · subst h
    simp
  · simp [h]

theorem lookup_erase_eq_some {k' : κ} {w : ν} :
    (m.erase k).lookup k' = some w ↔ k' ≠ k ∧ m.lookup k' = some w := by
  by_cases h : k' = k
  · subst h
    simp
  · simp [h]

theorem lookup_foldl_insert {σ : Type*} {key : σ → κ} {value : σ → ν} {l : List σ}
    (hag : ∀ a ∈ l, ∀ b ∈ l, key a = key b → value a = value b) :
    (l.foldl (fun (m : AList fun _ : κ => ν) x => m.insert (key x) (value x)) ∅).lookup k =
        some v ↔
      ∃ x ∈ l, key x = k ∧ value x = v := by
  induction l using List.reverseRecOn with
  | nil => simp
  | append_singleton l x ih =>
    have ih := ih fun a ha b hb => hag a (by simp [ha]) b (by simp [hb])
    rw [List.foldl_concat, lookup_insert_eq_some, ih]
    constructor
    · rintro (⟨rfl, rfl⟩ | ⟨-, y, hy, hkey, hvl⟩)
      · exact ⟨x, by simp, rfl, rfl⟩
      · exact ⟨y, by simp [hy], hkey, hvl⟩
    · rintro ⟨y, hy, hkey, hvl⟩
      by_cases hx : k = key x
      · exact .inl ⟨hx, (hag y hy x (by simp) (hkey.trans hx)).symm.trans hvl⟩
      · rcases List.mem_append.mp hy with hy | hy
        · exact .inr ⟨hx, y, hy, hkey, hvl⟩
        · rw [List.mem_singleton.mp hy] at hkey
          exact absurd hkey.symm hx

end AList

namespace Trove.Lib

/-- A Go map. -/
abbrev GoMap (κ ν : Type) : Type := AList fun _ : κ => ν

/-- A map in which every value stands under its own key. -/
structure Table {κ ν : Type} [DecidableEq κ] (key : ν → κ) where
  rows : GoMap κ ν
  keyed : ∀ k v, rows.lookup k = some v → key v = k

namespace Table

variable {κ ν : Type} [DecidableEq κ] {key : ν → κ}

instance [DecidableEq ν] : DecidableEq (Table key) := fun a b =>
  decidable_of_iff (a.rows.entries = b.rows.entries) <| by
    constructor
    · intro h
      obtain ⟨rows, _⟩ := a
      obtain ⟨rows', _⟩ := b
      obtain rfl : rows = rows' := AList.ext h
      rfl
    · exact fun h => h ▸ rfl

/-- A table without rows. -/
def empty : Table key := ⟨∅, by simp⟩

instance : EmptyCollection (Table key) := ⟨empty⟩

def lookup (k : κ) (t : Table key) : Option ν := t.rows.lookup k

def values (t : Table key) : List ν := t.rows.values

def insert (v : ν) (t : Table key) : Table key where
  rows := t.rows.insert (key v) v
  keyed k w h := by
    rcases AList.lookup_insert_eq_some.mp h with ⟨rfl, rfl⟩ | ⟨-, h⟩
    · rfl
    · exact t.keyed k w h

def erase (k : κ) (t : Table key) : Table key where
  rows := t.rows.erase k
  keyed k' w h := t.keyed k' w (AList.lookup_erase_eq_some.mp h).2

def restrict (p : ν → Bool) (t : Table key) : Table key where
  rows := t.rows.restrict fun _ v => p v
  keyed k v h := t.keyed k v (AList.lookup_restrict_eq_some.mp h).1

variable {t : Table key} {k : κ} {v w : ν} {P : ν → Prop}

theorem key_of_lookup (h : t.lookup k = some v) : key v = k :=
  t.keyed k v h

theorem mem_values : v ∈ t.values ↔ t.lookup (key v) = some v := by
  refine AList.mem_values.trans ⟨?_, fun h => ⟨key v, h⟩⟩
  rintro ⟨k, h⟩
  obtain rfl := t.keyed k v h
  exact h

theorem lookup_insert (k : κ) (v : ν) :
    (t.insert v).lookup k = if k = key v then some v else t.lookup k := by
  split_ifs with h
  · subst h
    exact AList.lookup_insert _
  · exact AList.lookup_insert_ne h

theorem lookup_erase (k k' : κ) : (t.erase k).lookup k' = if k' = k then none else t.lookup k' := by
  split_ifs with h
  · subst h
    exact AList.lookup_erase _ _
  · exact AList.lookup_erase_ne h

variable {p : ν → Bool}

theorem lookup_restrict_eq_some :
    (t.restrict p).lookup k = some v ↔ t.lookup k = some v ∧ p v = true :=
  AList.lookup_restrict_eq_some

theorem mem_values_of_lookup (h : t.lookup k = some v) : v ∈ t.values := by
  obtain rfl := key_of_lookup h
  exact mem_values.mpr h

theorem eq_of_lookup (h : t.lookup k = some v) (hw : w ∈ t.values) (hk : key w = k) : w = v := by
  subst hk
  exact Option.some.inj ((mem_values.mp hw).symm.trans h)

theorem key_ne_of_lookup (h : t.lookup k = none) (hw : w ∈ t.values) : key w ≠ k := by
  rintro rfl
  rw [mem_values.mp hw] at h
  cases h

theorem mem_values_insert : w ∈ (t.insert v).values ↔ w = v ∨ (key w ≠ key v ∧ w ∈ t.values) := by
  rw [mem_values, lookup_insert, mem_values]
  split_ifs with h
  · simp [h, eq_comm]
  · have hne : w ≠ v := fun hw => h (congrArg key hw)
    simp [h, hne]

theorem mem_values_erase : w ∈ (t.erase k).values ↔ key w ≠ k ∧ w ∈ t.values := by
  rw [mem_values, lookup_erase, mem_values]
  split_ifs with h <;> simp [h]

theorem mem_values_restrict : w ∈ (t.restrict p).values ↔ w ∈ t.values ∧ p w = true := by
  rw [mem_values, lookup_restrict_eq_some, mem_values]

/-- Some row stands under the key. -/
def Has (t : Table key) (k : κ) : Prop := ∃ v, t.lookup k = some v

theorem has_iff_isSome : t.Has k ↔ (t.lookup k).isSome = true :=
  Option.isSome_iff_exists.symm

theorem has_iff_mem_values : t.Has k ↔ ∃ v ∈ t.values, key v = k := by
  constructor
  · rintro ⟨v, hv⟩
    exact ⟨v, mem_values_of_lookup hv, key_of_lookup hv⟩
  · rintro ⟨v, hv, rfl⟩
    exact ⟨v, mem_values.mp hv⟩

theorem has_of_not_isNone (h : ¬(t.lookup k).isNone = true) : t.Has k := by
  rw [has_iff_isSome]
  simpa [Option.isSome_iff_ne_none] using h

instance (t : Table key) (k : κ) : Decidable (t.Has k) := decidable_of_iff _ has_iff_isSome.symm

@[simp] theorem values_empty : (∅ : Table key).values = [] := rfl

@[simp] theorem not_has_empty (k : κ) : ¬(∅ : Table key).Has k := by
  rintro ⟨v, h⟩
  cases h

theorem has_insert : (t.insert v).Has k ↔ k = key v ∨ t.Has k := by
  unfold Has
  rw [lookup_insert]
  split_ifs with h <;> simp [h]

theorem has_erase {k' : κ} : (t.erase k).Has k' ↔ k' ≠ k ∧ t.Has k' := by
  unfold Has
  rw [lookup_erase]
  split_ifs with h <;> simp [h]

theorem forall_insert (h : ∀ w ∈ t.values, P w) (hv : P v) : ∀ w ∈ (t.insert v).values, P w := by
  intro w hw
  rcases mem_values_insert.mp hw with rfl | ⟨-, hw⟩
  · exact hv
  · exact h w hw

theorem forall_erase (k : κ) (h : ∀ w ∈ t.values, P w) : ∀ w ∈ (t.erase k).values, P w :=
  fun w hw => h w (mem_values_erase.mp hw).2

theorem forall_restrict (p : ν → Bool) (h : ∀ w ∈ t.values, P w) :
    ∀ w ∈ (t.restrict p).values, P w :=
  fun w hw => h w (mem_values_restrict.mp hw).1

theorem forall_of_restrict {Q : ν → Prop} (h : ∀ w ∈ t.values, P w)
    (hq : ∀ w, p w = true → P w → Q w) : ∀ w ∈ (t.restrict p).values, Q w :=
  fun w hw => hq w (mem_values_restrict.mp hw).2 (h w (mem_values_restrict.mp hw).1)

theorem map_key_values (t : Table key) : t.values.map key = t.rows.keys := by
  unfold values AList.values AList.keys List.keys
  rw [List.map_map]
  exact List.map_congr_left fun e he => t.keyed e.1 e.2 (AList.mem_lookup_iff.mpr he)

theorem nodup_map_key_values (t : Table key) : (t.values.map key).Nodup := by
  rw [map_key_values]
  exact t.rows.keys_nodup

end Table

/-! ## Maps of lists -/

section AppendAt

variable {κ ν σ : Type*} [DecidableEq κ]

/-- Append to the list at the key. -/
def appendAt (m : κ → List ν) (k : κ) (v : ν) : κ → List ν := Function.update m k (m k ++ [v])

theorem foldl_appendAt (key : σ → κ) (value : σ → ν) (l : List σ) (m : κ → List ν) (k : κ) :
    l.foldl (fun m x => appendAt m (key x) (value x)) m k =
      m k ++ (l.filter fun x => key x = k).map value := by
  induction l generalizing m with
  | nil => simp
  | cons x l ih =>
    rw [List.foldl_cons, ih]
    unfold appendAt
    by_cases hx : key x = k
    · subst hx
      simp
    · rw [Function.update_of_ne (Ne.symm hx), List.filter_cons_of_neg (by simpa using hx)]

theorem mem_foldl_appendAt (p : σ → Bool) (key : σ → κ) (value : σ → ν) (l : List σ)
    (m : κ → List ν) (k : κ) (v : ν) :
    v ∈ l.foldl (fun m x => if p x then appendAt m (key x) (value x) else m) m k ↔
      v ∈ m k ∨ ∃ x ∈ l, p x ∧ key x = k ∧ value x = v := by
  rw [← List.foldl_filter, foldl_appendAt, List.mem_append]
  simp only [List.mem_map, List.mem_filter, decide_eq_true_eq, and_assoc]

end AppendAt

end Trove.Lib
