import Mathlib.Data.List.Chain
import Mathlib.Data.List.Nodup
import Mathlib.Data.List.Perm.Subperm

/-!
# Breadth-first search

`reach next fuel root` is the list of nodes a search from `root` finds, in the order it finds them
and without `root`. Over a finite universe the successors never leave, one unit of fuel for each
node and one for the root are enough, and then the nodes found are exactly those reachable. `levels`
is the same search a level at a time.
-/

namespace Trove.Lib

open List

variable {α : Type*} [DecidableEq α]

def fresh (seen : List α) : List α → List α
  | [] => []
  | x :: xs => if x ∈ seen then fresh seen xs else x :: fresh (x :: seen) xs

def bfs (next : α → List α) : ℕ → List α → List α → List α
  | 0, _, _ => []
  | _ + 1, _, [] => []
  | fuel + 1, seen, x :: queue =>
    fresh seen (next x) ++
      bfs next fuel (seen ++ fresh seen (next x)) (queue ++ fresh seen (next x))

def reach (next : α → List α) (fuel : ℕ) (root : α) : List α := bfs next fuel [root] [root]

/-! ## One round -/

variable {seen nodes : List α} {y : α} {next : α → List α} {fuel : ℕ}

theorem mem_fresh {xs : List α} : y ∈ fresh seen xs ↔ y ∈ xs ∧ y ∉ seen := by
  induction xs generalizing seen with
  | nil => simp [fresh]
  | cons x xs ih =>
    by_cases hx : x ∈ seen
    · rw [fresh, if_pos hx, ih, mem_cons]
      constructor
      · rintro ⟨hy, hsn⟩
        exact ⟨.inr hy, hsn⟩
      · rintro ⟨rfl | hy, hsn⟩
        · exact absurd hx hsn
        · exact ⟨hy, hsn⟩
    · rw [fresh, if_neg hx, mem_cons, ih, mem_cons, mem_cons, not_or]
      constructor
      · rintro (rfl | ⟨hy, -, hsn⟩)
        · exact ⟨.inl rfl, hx⟩
        · exact ⟨.inr hy, hsn⟩
      · rintro ⟨rfl | hy, hsn⟩
        · exact .inl rfl
        · by_cases hyx : y = x
          · exact .inl hyx
          · exact .inr ⟨hy, hyx, hsn⟩

theorem nodup_fresh (seen xs : List α) : (fresh seen xs).Nodup := by
  induction xs generalizing seen with
  | nil => exact nodup_nil
  | cons x xs ih =>
    rw [fresh]
    split_ifs
    · exact ih seen
    · refine nodup_cons.mpr ⟨fun h => ?_, ih _⟩
      exact (mem_fresh.mp h).2 mem_cons_self

theorem length_unseen_append {new : List α} (seen : List α) (hnew : new.Nodup)
    (hmem : ∀ x ∈ new, x ∈ nodes ∧ x ∉ seen) (hU : nodes.Nodup) :
    new.length + (nodes.filter (· ∉ seen ++ new)).length ≤
      (nodes.filter (· ∉ seen)).length := by
  rw [← length_append]
  refine (List.Nodup.subperm ?_ ?_).length_le
  · refine List.Nodup.append hnew (hU.filter _) fun x hx hx' => ?_
    have hno : x ∉ seen ++ new := by simpa using (mem_filter.mp hx').2
    exact hno (mem_append_right seen hx)
  · intro x hx
    rcases mem_append.mp hx with hx | hx
    · exact mem_filter.mpr ⟨(hmem x hx).1, by simpa using (hmem x hx).2⟩
    · obtain ⟨hxU, hno⟩ := mem_filter.mp hx
      have hno' : x ∉ seen ++ new := by simpa using hno
      exact mem_filter.mpr ⟨hxU, by simpa using fun h => hno' (mem_append_left new h)⟩

/-! ## The whole search -/

theorem nodup_bfs (next : α → List α) (fuel : ℕ) (seen queue : List α) (hsn : seen.Nodup) :
    (seen ++ bfs next fuel seen queue).Nodup := by
  induction fuel generalizing seen queue with
  | zero => simpa [bfs] using hsn
  | succ fuel ih =>
    cases queue with
    | nil => simpa [bfs] using hsn
    | cons x queue =>
      rw [bfs, ← append_assoc]
      refine ih _ _ (hsn.append (nodup_fresh _ _) fun y hy hy' => ?_)
      exact (mem_fresh.mp hy').2 hy

theorem transGen_of_mem_bfs {queue : List α} (h : y ∈ bfs next fuel seen queue) :
    ∃ x ∈ queue, Relation.TransGen (fun a b => b ∈ next a) x y := by
  induction fuel generalizing seen queue with
  | zero => simp [bfs] at h
  | succ fuel ih =>
    cases queue with
    | nil => simp [bfs] at h
    | cons x queue =>
      have hst : ∀ z ∈ fresh seen (next x), z ∈ next x := fun z hz => (mem_fresh.mp hz).1
      rcases mem_append.mp h with h | h
      · exact ⟨x, mem_cons_self, .single (hst y h)⟩
      · obtain ⟨z, hz, htr⟩ := ih h
        rcases mem_append.mp hz with hz | hz
        · exact ⟨z, mem_cons_of_mem x hz, htr⟩
        · exact ⟨x, mem_cons_self, .head (hst z hz) htr⟩

/-- With enough fuel the nodes seen and found are closed under successors: every node seen and not
queued has its successors seen. -/
theorem closed_bfs (hU : nodes.Nodup) (hnx : ∀ x, ∀ y ∈ next x, y ∈ nodes) (seen queue : List α)
    (hdn : ∀ x ∈ seen, x ∉ queue → ∀ y ∈ next x, y ∈ seen)
    (hfl : queue.length + (nodes.filter (· ∉ seen)).length ≤ fuel) :
    ∀ x ∈ seen ++ bfs next fuel seen queue, ∀ y ∈ next x,
      y ∈ seen ++ bfs next fuel seen queue := by
  induction fuel generalizing seen queue with
  | zero =>
    have hq : queue = [] := length_eq_zero_iff.mp (by omega)
    simpa [bfs, hq] using hdn
  | succ fuel ih =>
    cases queue with
    | nil => simpa [bfs] using hdn
    | cons x queue =>
      rw [bfs, ← append_assoc]
      refine ih _ _ (fun z hz hzq y hy => ?_) ?_
      · by_cases hzx : z = x
        · subst hzx
          by_cases hy' : y ∈ seen
          · exact mem_append_left _ hy'
          · exact mem_append_right _ (mem_fresh.mpr ⟨hy, hy'⟩)
        · rw [mem_append, not_or] at hzq
          rcases mem_append.mp hz with hz | hz
          · exact mem_append_left _ (hdn z hz (by simp [hzx, hzq.1]) y hy)
          · exact absurd hz hzq.2
      · have hlen := length_unseen_append seen (nodup_fresh seen (next x))
          (fun y hy => ⟨hnx x y (mem_fresh.mp hy).1, (mem_fresh.mp hy).2⟩) hU
        rw [length_append]
        rw [length_cons] at hfl
        omega

theorem nodup_reach (next : α → List α) (fuel : ℕ) (root : α) :
    (root :: reach next fuel root).Nodup :=
  nodup_bfs next fuel [root] [root] (nodup_singleton root)

/-- **Search.** The nodes found are the nodes reachable from the root, other than the root. -/
theorem mem_reach (hU : nodes.Nodup) (hnx : ∀ x, ∀ y ∈ next x, y ∈ nodes)
    (hfl : nodes.length < fuel) {root : α} :
    y ∈ reach next fuel root ↔
      y ≠ root ∧ Relation.ReflTransGen (fun a b => b ∈ next a) root y := by
  have hcl : ∀ x ∈ root :: reach next fuel root, ∀ z ∈ next x,
      z ∈ root :: reach next fuel root := by
    refine closed_bfs hU hnx [root] [root] (by simp) ?_
    have := length_filter_le (fun x => decide (x ∉ [root])) nodes
    simp only [length_singleton]
    omega
  constructor
  · intro h
    obtain ⟨x, hx, htr⟩ := transGen_of_mem_bfs h
    obtain rfl := mem_singleton.mp hx
    refine ⟨?_, htr.to_reflTransGen⟩
    rintro rfl
    exact (nodup_cons.mp (nodup_reach next fuel y)).1 h
  · rintro ⟨hne, hrc⟩
    have hmem : y ∈ root :: reach next fuel root := by
      clear hne
      induction hrc with
      | refl => exact mem_cons_self
      | tail _ hst ih => exact hcl _ ih _ hst
    exact (mem_cons.mp hmem).resolve_left hne

/-! ## Search by levels -/

/-- The levels below `current`: each holds the nodes first found from the one above it. -/
def levelsFrom (next : α → List α) : ℕ → List α → List α → List (List α)
  | 0, _, _ => []
  | fuel + 1, seen, current =>
    if fresh seen (current.flatMap next) = [] then []
    else fresh seen (current.flatMap next) ::
      levelsFrom next fuel (seen ++ fresh seen (current.flatMap next))
        (fresh seen (current.flatMap next))

/-- The levels from the root on. -/
def levels (next : α → List α) (fuel : ℕ) (root : α) : List (List α) :=
  [root] :: levelsFrom next fuel [root] [root]

theorem nodup_levelsFrom (next : α → List α) (fuel : ℕ) (seen current : List α)
    (hsn : seen.Nodup) : (seen ++ (levelsFrom next fuel seen current).flatten).Nodup := by
  induction fuel generalizing seen current with
  | zero => simpa [levelsFrom] using hsn
  | succ fuel ih =>
    rw [levelsFrom]
    split_ifs with hnil
    · simpa using hsn
    · rw [flatten_cons, ← append_assoc]
      refine ih _ _ (hsn.append (nodup_fresh _ _) fun y hy hy' => ?_)
      exact (mem_fresh.mp hy').2 hy

theorem transGen_of_mem_levelsFrom {current : List α}
    (h : y ∈ (levelsFrom next fuel seen current).flatten) :
    ∃ x ∈ current, Relation.TransGen (fun a b => b ∈ next a) x y := by
  induction fuel generalizing seen current with
  | zero => simp [levelsFrom] at h
  | succ fuel ih =>
    have hst : ∀ z ∈ fresh seen (current.flatMap next), ∃ x ∈ current, z ∈ next x := fun z hz =>
      mem_flatMap.mp (mem_fresh.mp hz).1
    rw [levelsFrom] at h
    split_ifs at h
    · simp at h
    · rcases mem_append.mp (flatten_cons ▸ h) with h | h
      · obtain ⟨x, hx, hy⟩ := hst y h
        exact ⟨x, hx, .single hy⟩
      · obtain ⟨z, hz, htr⟩ := ih h
        obtain ⟨x, hx, hxz⟩ := hst z hz
        exact ⟨x, hx, .head hxz htr⟩

/-- With enough fuel the nodes seen and found are closed under successors: every node seen before
the current level has its successors seen. -/
theorem closed_levelsFrom (hU : nodes.Nodup) (hnx : ∀ x, ∀ y ∈ next x, y ∈ nodes)
    (seen current : List α) (hdn : ∀ x ∈ seen, x ∉ current → ∀ y ∈ next x, y ∈ seen)
    (hfl : (nodes.filter (· ∉ seen)).length < fuel) :
    ∀ x ∈ seen ++ (levelsFrom next fuel seen current).flatten, ∀ y ∈ next x,
      y ∈ seen ++ (levelsFrom next fuel seen current).flatten := by
  induction fuel generalizing seen current with
  | zero => omega
  | succ fuel ih =>
    -- a successor of the current level is seen already or new
    have hcr : ∀ x ∈ seen, ∀ y ∈ next x,
        y ∈ seen ++ fresh seen (current.flatMap next) := by
      intro x hx y hy
      by_cases hsn : y ∈ seen
      · exact mem_append_left _ hsn
      · by_cases hxc : x ∈ current
        · exact mem_append_right _
            (mem_fresh.mpr ⟨mem_flatMap.mpr ⟨x, hxc, hy⟩, hsn⟩)
        · exact absurd (hdn x hx hxc y hy) hsn
    rw [levelsFrom]
    split_ifs with hnil
    · rw [hnil] at hcr
      simpa using hcr
    · rw [flatten_cons, ← append_assoc]
      refine ih _ _ (fun z hz hzn y hy => ?_) ?_
      · exact hcr z ((mem_append.mp hz).resolve_right hzn) y hy
      · have hlen := length_unseen_append seen (nodup_fresh seen (current.flatMap next))
          (fun y hy => ⟨?_, (mem_fresh.mp hy).2⟩) hU
        · have hpos := length_pos_iff.mpr hnil
          omega
        · obtain ⟨x, -, hxy⟩ := mem_flatMap.mp (mem_fresh.mp hy).1
          exact hnx x y hxy

theorem nodup_levels (next : α → List α) (fuel : ℕ) (root : α) :
    (levels next fuel root).flatten.Nodup :=
  nodup_levelsFrom next fuel [root] [root] (nodup_singleton root)

/-- **Search by levels.** The nodes on the levels are the nodes reachable from the root. -/
theorem mem_levels (hU : nodes.Nodup) (hnx : ∀ x, ∀ y ∈ next x, y ∈ nodes)
    (hfl : nodes.length < fuel) {root : α} :
    y ∈ (levels next fuel root).flatten ↔ Relation.ReflTransGen (fun a b => b ∈ next a) root y := by
  have hcl : ∀ x ∈ (levels next fuel root).flatten, ∀ z ∈ next x,
      z ∈ (levels next fuel root).flatten := by
    refine closed_levelsFrom hU hnx [root] [root] (by simp) ?_
    have := length_filter_le (fun x => decide (x ∉ [root])) nodes
    omega
  constructor
  · intro h
    rw [levels, flatten_cons, mem_append, mem_singleton] at h
    rcases h with rfl | h
    · exact .refl
    · obtain ⟨x, hx, htr⟩ := transGen_of_mem_levelsFrom h
      obtain rfl := mem_singleton.mp hx
      exact htr.to_reflTransGen
  · intro hrc
    induction hrc with
    | refl => simp [levels]
    | tail _ hst ih => exact hcl _ ih _ hst

/-! ## Forests -/

section Forest

open Relation

variable {β : Type*} {r : β → β → Prop}

theorem parent_below (hun : ∀ a b c, r a c → r b c → a = b) {root p x : β}
    (hx : ReflTransGen r root x) (hp : r p x) : x = root ∨ ReflTransGen r root p := by
  rcases ReflTransGen.cases_tail hx with h | ⟨q, hq, hqx⟩
  · exact .inl h
  · exact .inr (hun p q x hp hqx ▸ hq)

theorem root_unique (hun : ∀ a b c, r a c → r b c → a = b) {a b x : β}
    (ha : ReflTransGen r a x) (hb : ReflTransGen r b x) (hrt : ∀ p, ¬ r p a)
    (hrb : ∀ p, ¬ r p b) : a = b := by
  induction ha with
  | refl =>
    rcases ReflTransGen.cases_tail hb with h | ⟨q, -, hq⟩
    · exact h
    · exact absurd hq (hrt q)
  | @tail y x _ hyx ih =>
    rcases parent_below hun hb hyx with h | h
    · exact absurd (h ▸ hyx) (hrb y)
    · exact ih h

end Forest

/-! ## Cycles -/

section Cycles

open Relation

variable {β : Type*} {r : β → β → Prop}

/-- No cycle can be reached from the node. -/
def NoCycleFrom (r : β → β → Prop) (a : β) : Prop := ∀ c, ReflTransGen r a c → ¬ TransGen r c c

variable {a : β} {path : List β}

theorem noCycleFrom_of_next (h : ∀ b, r a b → NoCycleFrom r b) : NoCycleFrom r a := by
  intro c hac hcy
  rcases ReflTransGen.cases_head hac with rfl | ⟨b, hab, hbc⟩
  · obtain ⟨b, hab, hba⟩ := TransGen.head'_iff.mp hcy
    exact h b hab a hba hcy
  · exact h b hab c hbc hcy

theorem noCycleFrom_of_chain (hfun : ∀ a b c, r a b → r a c → b = c) {last : β}
    (hch : (path ++ [last]).IsChain r) (hls : NoCycleFrom r last) :
    ∀ a ∈ path, NoCycleFrom r a := by
  induction path with
  | nil => simp
  | cons a path ih =>
    have ih := ih hch.tail
    have hhd : NoCycleFrom r a := by
      refine noCycleFrom_of_next fun b hab => ?_
      cases path with
      | nil =>
        obtain rfl := hfun a b last hab (isChain_cons_cons.mp hch).1
        exact hls
      | cons p path =>
        obtain rfl := hfun a b p hab (isChain_cons_cons.mp hch).1
        exact ih b mem_cons_self
    intro b hb
    rcases mem_cons.mp hb with rfl | hb
    · exact hhd
    · exact ih b hb

theorem transGen_of_chain {b : β} (h : (a :: (path ++ [b])).IsChain r) : TransGen r a b := by
  induction path generalizing a with
  | nil => exact .single (isChain_cons_cons.mp h).1
  | cons c path ih =>
    obtain ⟨hac, hrs⟩ := isChain_cons_cons.mp h
    exact .head hac (ih hrs)

theorem cycle_of_chain (hch : (path ++ [a]).IsChain r) (ha : a ∈ path) : TransGen r a a := by
  obtain ⟨before, behind, rfl⟩ := append_of_mem ha
  rw [append_assoc, cons_append] at hch
  exact transGen_of_chain hch.right_of_append

end Cycles

end Trove.Lib
