import Mathlib.Data.List.Sort
import Mathlib.Data.String.Basic

/-!
# Lists sorted by a key

`sortBy key` is a stable sort by a key. A list whose keys are distinct has one arrangement in
increasing key order, so sorting forgets the order the list came in. `compact` drops repetitions
that stand next to each other, which in a sorted list are all of them.
-/

namespace Trove.Lib

open List

variable {α κ : Type*} [LinearOrder κ] {key : α → κ}

/-- The list in key order, equal keys in the order they came. -/
def sortBy (key : α → κ) (l : List α) : List α := l.insertionSort fun a b => key a ≤ key b

def Increasing (key : α → κ) (l : List α) : Prop := l.Pairwise fun a b => key a < key b

theorem perm_sortBy (l : List α) : (sortBy key l).Perm l := perm_insertionSort _ l

variable {a : α} {l l' : List α} {p : α → Bool}

@[simp] theorem mem_sortBy : a ∈ sortBy key l ↔ a ∈ l :=
  (perm_sortBy l).mem_iff

theorem Increasing.nodup (h : Increasing key l) : l.Nodup :=
  h.imp fun hlt heq => hlt.ne (congrArg key heq)

theorem increasing_sortBy (h : (l.map key).Nodup) : Increasing key (sortBy key l) := by
  have hle : (sortBy key l).Pairwise fun a b => key a ≤ key b :=
    pairwise_insertionSort (fun a b => key a ≤ key b) l
  have hne : (sortBy key l).Pairwise fun a b => key a ≠ key b :=
    pairwise_map.mp (((perm_sortBy l).map key).nodup_iff.mpr h)
  exact hle.and hne |>.imp fun hab => lt_of_le_of_ne hab.1 hab.2

theorem Increasing.exists_concat (h : Increasing key l) (ha : a ∈ l)
    (hmax : ∀ b ∈ l, key b ≤ key a) :
    ∃ front, l = front ++ [a] := by
  rcases eq_nil_or_concat l with rfl | ⟨front, last, rfl⟩
  · simp at ha
  · rw [concat_eq_append] at h ha hmax ⊢
    rcases mem_append.mp ha with hfr | hls
    · have hlt := (pairwise_append.mp h).2.2 a hfr last (by simp)
      exact absurd (hmax last (by simp)) (not_le_of_gt hlt)
    · exact ⟨front, by rw [mem_singleton.mp hls]⟩

theorem Increasing.eq_of_mem_iff (h : Increasing key l) (h' : Increasing key l')
    (hmem : ∀ a, a ∈ l ↔ a ∈ l') : l = l' := by
  have hpr : l.Perm l' := (perm_ext_iff_of_nodup h.nodup h'.nodup).mpr hmem
  exact hpr.eq_of_pairwise (fun a b _ _ hab hba => absurd hba hab.asymm) h h'

theorem sortBy_eq_of_perm (hnd : (l.map key).Nodup) (hpr : l.Perm l') :
    sortBy key l = sortBy key l' :=
  (increasing_sortBy hnd).eq_of_mem_iff
    (increasing_sortBy ((hpr.map key).nodup_iff.mp hnd)) fun a => by
      rw [mem_sortBy, mem_sortBy, hpr.mem_iff]

theorem filter_key_eq {κ : Type*} [DecidableEq κ] {key : α → κ} (hnd : (l.map key).Nodup)
    (ha : a ∈ l) : (l.filter fun b => key b = key a) = [a] := by
  induction l with
  | nil => cases ha
  | cons b l ih =>
    rw [map_cons, nodup_cons] at hnd
    rcases mem_cons.mp ha with rfl | ha
    · have hnil : (l.filter fun b => key b = key a) = [] :=
        filter_eq_nil_iff.mpr fun b hb heq =>
          hnd.1 (mem_map.mpr ⟨b, hb, by simpa using heq⟩)
      rw [filter_cons_of_pos (by simp), hnil]
    · have hne : key b ≠ key a := fun heq => hnd.1 (mem_map.mpr ⟨a, ha, heq.symm⟩)
      rw [filter_cons_of_neg (by simpa using hne), ih hnd.2 ha]

theorem map_filterMap_sublist {β κ : Type*} {f : α → Option β} {key : α → κ} {key' : β → κ}
    (h : ∀ a b, f a = some b → key' b = key a) (l : List α) :
    ((l.filterMap f).map key').Sublist (l.map key) := by
  induction l with
  | nil => exact .slnil
  | cons a l ih =>
    cases hf : f a with
    | none =>
      rw [filterMap_cons_none hf]
      exact ih.cons _
    | some b =>
      rw [filterMap_cons_some hf, map_cons, map_cons, h a b hf]
      exact ih.cons_cons _

theorem filter_filterMap_key {β κ : Type*} [DecidableEq κ] {f : α → Option β} {key : α → κ}
    {key' : β → κ} (h : ∀ a b, f a = some b → key' b = key a) (hnd : (l.map key).Nodup)
    (ha : a ∈ l) :
    ((l.filterMap f).filter fun b => key' b = key a) = (f a).toList := by
  have hpn : ∀ x, (f x).filter (fun b => key' b = key a) =
      if key x = key a then f x else none := by
    intro x
    cases hf : f x with
    | none => simp
    | some b => simp [Option.filter, h x b hf]
  have hsw : ((l.filterMap f).filter fun b => key' b = key a) =
      (l.filter fun x => key x = key a).filterMap f := by
    rw [filter_filterMap, filterMap_filter]
    simp only [hpn, decide_eq_true_eq]
  rw [hsw, filter_key_eq hnd ha, filterMap_eq_flatMap_toList, flatMap_singleton]

theorem sortBy_eq_of_perm_of_injective (hkey : Function.Injective key) (hpr : l.Perm l') :
    sortBy key l = sortBy key l' :=
  ((perm_sortBy l).trans (hpr.trans (perm_sortBy l').symm)).eq_of_pairwise
    (fun _ _ _ _ hab hba => hkey (le_antisymm hab hba))
    (pairwise_insertionSort (fun a b => key a ≤ key b) l)
    (pairwise_insertionSort (fun a b => key a ≤ key b) l')

def compact [DecidableEq α] : List α → List α
  | [] => []
  | [a] => [a]
  | a :: b :: l => if a = b then compact (b :: l) else a :: compact (b :: l)

@[simp] theorem mem_compact [DecidableEq α] {l : List α} {a : α} : a ∈ compact l ↔ a ∈ l := by
  fun_induction compact l with
  | case1 => rfl
  | case2 => rfl
  | case3 b l ih => rw [ih, mem_cons (l := b :: l), mem_cons, or_self_left]
  | case4 b c l hne ih => rw [mem_cons, ih, ← mem_cons]

theorem Increasing.mem_tail {b : α} (h : Increasing key (a :: l)) :
    b ∈ l ↔ b ∈ a :: l ∧ key a < key b := by
  constructor
  · intro hb
    exact ⟨mem_cons_of_mem a hb, (pairwise_cons.mp h).1 b hb⟩
  · rintro ⟨hb, hlt⟩
    rcases mem_cons.mp hb with rfl | hb
    · exact absurd hlt (lt_irrefl _)
    · exact hb

example : sortBy id ["b", "a", "c"] = ["a", "b", "c"] := by decide

/-! ## The first hit -/

theorem sortBy_map {β : Type*} {key' : β → κ} {f : α → β} (h : ∀ a, key' (f a) = key a)
    (l : List α) : sortBy key' (l.map f) = (sortBy key l).map f := by
  refine (map_insertionSort _ _ f l fun a _ b _ => ?_).symm
  rw [h, h]

theorem sortBy_sortBy (l : List α) : sortBy key (sortBy key l) = sortBy key l :=
  (pairwise_insertionSort (fun a b => key a ≤ key b) l).insertionSort_eq

/-- No hit of `p` stands before `a`. -/
def UpToFirst (key : α → κ) (p : α → Bool) (l : List α) (a : α) : Prop :=
  ∀ d ∈ l, p d → key a ≤ key d

theorem Increasing.find?_eq_some (h : Increasing key l) :
    l.find? p = some a ↔ a ∈ l ∧ p a ∧ UpToFirst key p l a := by
  induction l with
  | nil => simp
  | cons b l ih =>
    rw [Increasing, pairwise_cons] at h
    rw [List.find?_cons]
    cases hb : p b with
    | true =>
      simp only [Option.some.injEq]
      constructor
      · rintro rfl
        refine ⟨mem_cons_self, hb, fun d hd _ => ?_⟩
        rcases mem_cons.mp hd with rfl | hd
        · exact le_rfl
        · exact (h.1 d hd).le
      · rintro ⟨ha, -, hfr⟩
        rcases mem_cons.mp ha with rfl | ha
        · rfl
        · exact absurd (hfr b mem_cons_self hb) (h.1 a ha).not_ge
    | false =>
      rw [ih h.2]
      constructor
      · rintro ⟨ha, hpa, hfr⟩
        refine ⟨mem_cons_of_mem b ha, hpa, fun d hd hpd => ?_⟩
        rcases mem_cons.mp hd with rfl | hd
        · exact absurd hpd (by simp [hb])
        · exact hfr d hd hpd
      · rintro ⟨ha, hpa, hfr⟩
        rcases mem_cons.mp ha with rfl | ha
        · exact absurd hpa (by simp [hb])
        · exact ⟨ha, hpa, fun d hd => hfr d (mem_cons_of_mem b hd)⟩

theorem Increasing.upToFirst_of_mem_takeWhile (h : Increasing key l) (ha : a ∈ l.takeWhile (!p ·)) :
    UpToFirst key p l a := by
  induction l with
  | nil => cases ha
  | cons b l ih =>
    rw [Increasing, pairwise_cons] at h
    rw [takeWhile_cons] at ha
    cases hb : p b with
    | true => simp [hb] at ha
    | false =>
      simp only [hb, Bool.not_false, if_true] at ha
      intro d hd hpd
      rcases mem_cons.mp hd with rfl | hdl
      · exact absurd hpd (by simp [hb])
      · rcases mem_cons.mp ha with rfl | hal
        · exact (h.1 d hdl).le
        · exact ih h.2 hal d hdl hpd

theorem Increasing.first_congr (h : Increasing key l) {q : α → Bool}
    (hpq : ∀ a ∈ l, UpToFirst key p l a → p a = q a) :
    l.find? p = l.find? q ∧ l.takeWhile (!p ·) = l.takeWhile (!q ·) := by
  induction l with
  | nil => exact ⟨rfl, rfl⟩
  | cons b l ih =>
    rw [Increasing, pairwise_cons] at h
    have hb : p b = q b := by
      refine hpq b mem_cons_self fun d hd _ => ?_
      rcases mem_cons.mp hd with rfl | hd
      · exact le_rfl
      · exact (h.1 d hd).le
    rw [List.find?_cons, List.find?_cons, takeWhile_cons, takeWhile_cons, ← hb]
    cases hpb : p b with
    | true => exact ⟨rfl, rfl⟩
    | false =>
      have hrs := ih h.2 fun a ha hfr => by
        refine hpq a (mem_cons_of_mem b ha) fun d hd hpd => ?_
        rcases mem_cons.mp hd with rfl | hd
        · exact absurd hpd (by simp [hpb])
        · exact hfr d hd hpd
      simp only [Bool.not_false, if_true, hrs.1, hrs.2, and_self]

theorem Increasing.map_eq_append (h : Increasing key l) {keys : List κ} (hky : Increasing id keys)
    (hmem : ∀ k ∈ keys, k ∈ l.map key) (hbh : ∀ a ∈ l, key a ∉ keys → ∀ k ∈ keys, k < key a) :
    l.map key = keys ++ (l.filter fun a => key a ∉ keys).map key := by
  have hl : Increasing id (l.map key) := pairwise_map.mpr h
  refine hl.eq_of_mem_iff (pairwise_append.mpr ⟨hky, ?_, fun k hk b hb => ?_⟩) fun k => ?_
  · exact pairwise_map.mpr (h.sublist filter_sublist)
  · obtain ⟨a, ha, rfl⟩ := mem_map.mp hb
    obtain ⟨hal, han⟩ := mem_filter.mp ha
    exact hbh a hal (of_decide_eq_true han) k hk
  · rw [mem_append]
    constructor
    · intro hk
      obtain ⟨a, ha, rfl⟩ := mem_map.mp hk
      by_cases hin : key a ∈ keys
      · exact .inl hin
      · exact .inr (mem_map_of_mem (mem_filter.mpr ⟨ha, decide_eq_true hin⟩))
    · rintro (hk | hk)
      · exact hmem k hk
      · obtain ⟨a, ha, rfl⟩ := mem_map.mp hk
        exact mem_map_of_mem (mem_of_mem_filter ha)

end Trove.Lib
