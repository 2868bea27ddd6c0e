import Trove.Lib.Except
import Trove.Policy.Inventory

/-!
# What an accepted snapshot is

Which snapshots `newInventory` accepts, said without the order they are read in, and what the
inventory it builds holds: `Inventory.Valid`, the facts everything about plans rests on.
-/

namespace Trove.Policy

open Lib List Function

/-! ## One row -/

/-- The checks that look at no other row. -/
structure Manifest.WellFormed (m : Manifest) : Prop where
  digest : m.digest ≠ ""
  pushedAt : m.pushedAt ≠ 0
  size : ¬ m.size < 0
  pullCount : ¬ m.pullCount < 0
  subject : m.subject ≠ m.digest
  tags : ∀ t ∈ m.tags, t.name ≠ ""
  children : ∀ c ∈ m.children, c ≠ "" ∧ c ≠ m.digest

/-- The owners with the manifest's tags. -/
def claimTags (m : Manifest) (tagOwner : String → Option Digest) : String → Option Digest :=
  fun name => if name ∈ m.tags.map Tag.name then some m.digest else tagOwner name

variable {digest d : Digest} {tagOwner : String → Option Digest} {loading : Loading}
  {state : Digest → Mark} {fuel fuel' : ℕ} {reasons : Manifest → List Exclusion}

theorem validateTags_eq_ok {tags : List Tag} {tagsHere : List String}
    {tagOwner' : String → Option Digest} :
    validateTags digest tags tagsHere tagOwner = .ok tagOwner' ↔
      (∀ t ∈ tags, t.name ≠ "" ∧ t.name ∉ tagsHere ∧ tagOwner t.name = none) ∧
        (tags.map Tag.name).Nodup ∧
          tagOwner' = fun name =>
            if name ∈ tags.map Tag.name then some digest else tagOwner name := by
  induction tags generalizing tagsHere tagOwner with
  | nil =>
    refine ⟨fun h => ⟨by simp, by simp, ?_⟩, fun h => ?_⟩
    · simpa using (Except.ok.inj h).symm
    · simpa [validateTags] using h.2.2.symm
  | cons tag tags ih =>
    unfold validateTags
    split_ifs with hem hhr
    · simp [hem]
    · simp [hhr]
    · cases how : tagOwner tag.name with
      | some owner => simp [how]
      | none =>
        rw [ih, forall_mem_cons, map_cons, nodup_cons]
        simp only [mem_cons]
        have hupd : ∀ name, update tagOwner tag.name (some digest) name =
            if name = tag.name then some digest else tagOwner name := fun name => by
          simp [update_apply]
        have hmap : (fun name => if name ∈ tags.map Tag.name then some digest
            else update tagOwner tag.name (some digest) name) =
            fun name => if name = tag.name ∨ name ∈ tags.map Tag.name then some digest
              else tagOwner name := by
          funext name
          by_cases h : name ∈ tags.map Tag.name <;> by_cases h' : name = tag.name <;> simp [h, h']
        rw [hmap]
        constructor
        · rintro ⟨hrs, hnd, rfl⟩
          refine ⟨⟨⟨hem, hhr, how⟩, fun t ht => ?_⟩, ⟨fun hmem => ?_, hnd⟩, rfl⟩
          · obtain ⟨hne, hnot, hnn⟩ := hrs t ht
            rw [not_or] at hnot
            rw [hupd, if_neg hnot.1] at hnn
            exact ⟨hne, hnot.2, hnn⟩
          · obtain ⟨t, ht, heq⟩ := mem_map.mp hmem
            exact (hrs t ht).2.1 (.inl heq)
        · rintro ⟨⟨-, hrs⟩, ⟨hnot, hnd⟩, rfl⟩
          refine ⟨fun t ht => ?_, hnd, rfl⟩
          obtain ⟨hne, hhr', hnn⟩ := hrs t ht
          have htag : t.name ≠ tag.name := fun h => hnot (mem_map.mpr ⟨t, ht, h⟩)
          exact ⟨hne, not_or.mpr ⟨htag, hhr'⟩, by rw [hupd, if_neg htag, hnn]⟩

theorem validateChildren_eq_ok {children : List Digest} :
    validateChildren digest children = .ok () ↔ ∀ c ∈ children, c ≠ "" ∧ c ≠ digest := by
  induction children with
  | nil => simp [validateChildren]
  | cons child children ih =>
    unfold validateChildren
    split_ifs with hem hown
    · simp [hem]
    · simp [hown]
    · simp [ih, hem, hown]

variable {m : Manifest} {ms snapshot : List Manifest} {nodes : List Digest}
  {byDigest : Digest → Option Manifest} {repository : String} {inv : Inventory}

theorem validateManifest_eq_ok {seen : Digest → Option Manifest}
    {r : Manifest × (String → Option Digest)} :
    validateManifest m seen tagOwner = .ok r ↔
      (m.WellFormed ∧ seen m.digest = none ∧ (m.tags.map Tag.name).Nodup ∧
        ∀ t ∈ m.tags, tagOwner t.name = none) ∧ r = (m.clone, claimTags m tagOwner) := by
  have htg : ∀ name, name ∈ m.clone.tags.map Tag.name ↔ name ∈ m.tags.map Tag.name := fun name =>
    ((perm_sortBy m.tags).map Tag.name).mem_iff
  have hcl : (fun name => if name ∈ m.clone.tags.map Tag.name then some m.digest
      else tagOwner name) = claimTags m tagOwner := by
    funext name
    simp only [claimTags, htg]
  have hnp : (m.clone.tags.map Tag.name).Nodup ↔ (m.tags.map Tag.name).Nodup :=
    ((perm_sortBy m.tags).map Tag.name).nodup_iff
  have hmem : ∀ t, t ∈ m.clone.tags ↔ t ∈ m.tags := fun t => mem_sortBy
  have hch : ∀ c, c ∈ m.clone.children ↔ c ∈ m.children := fun c =>
    mem_compact.trans mem_sortBy
  unfold validateManifest
  split_ifs with hdg hsn hps hsz hpl hsb
  · simpa using fun h : m.WellFormed => absurd hdg h.digest
  · simpa using fun _ h => absurd hsn (by simp [h])
  · simpa using fun h : m.WellFormed => absurd hps h.pushedAt
  · simpa using fun h : m.WellFormed => absurd hsz h.size
  · simpa using fun h : m.WellFormed => absurd hpl h.pullCount
  · simpa using fun h : m.WellFormed => absurd hsb h.subject
  · have hnn : seen m.digest = none := by simpa using hsn
    constructor
    · intro h
      obtain ⟨owner, how, h⟩ := bind_eq_ok.mp h
      obtain ⟨⟨⟩, hcd, h⟩ := bind_eq_ok.mp h
      obtain ⟨hok, hnd, rfl⟩ := validateTags_eq_ok.mp how
      rw [validateChildren_eq_ok] at hcd
      refine ⟨⟨⟨hdg, hps, hsz, hpl, hsb, fun t ht => ?_, fun c hc => ?_⟩,
        hnn, hnp.mp hnd, fun t ht => ?_⟩, ?_⟩
      · exact (hok t ((hmem t).mpr ht)).1
      · exact hcd c ((hch c).mpr hc)
      · exact (hok t ((hmem t).mpr ht)).2.2
      · rw [← hcl]
        exact (Except.ok.inj h).symm
    · rintro ⟨⟨hwf, -, hnd, how⟩, rfl⟩
      refine bind_eq_ok.mpr ⟨_, validateTags_eq_ok.mpr ⟨fun t ht => ?_,
        hnp.mpr hnd, rfl⟩, bind_eq_ok.mpr ⟨(), validateChildren_eq_ok.mpr ?_, ?_⟩⟩
      · exact ⟨hwf.tags t ((hmem t).mp ht), not_mem_nil, how t ((hmem t).mp ht)⟩
      · exact fun c hc => hwf.children c ((hch c).mp hc)
      · rw [hcl]

/-! ## All rows -/

/-- Every row well formed, no digest or tag twice. -/
structure Accepted (snapshot : List Manifest) : Prop where
  wellFormed : ∀ m ∈ snapshot, m.WellFormed
  digests : (snapshot.map Manifest.digest).Nodup
  tags : (snapshot.flatMap fun m => m.tags.map Tag.name).Nodup

/-- What reading one accepted row does. -/
def Loading.add (loading : Loading) (m : Manifest) : Loading where
  byDigest := update loading.byDigest m.digest (some m.clone)
  manifests := loading.manifests ++ [m.clone]
  tagOwner := claimTags m loading.tagOwner

/-- Its digest and tags were not read before. -/
def Loading.Free (loading : Loading) (m : Manifest) : Prop :=
  loading.byDigest m.digest = none ∧ ∀ t ∈ m.tags, loading.tagOwner t.name = none

theorem Loading.free_add {m' : Manifest} :
    (loading.add m).Free m' ↔
      loading.Free m' ∧ m'.digest ≠ m.digest ∧
        ∀ t ∈ m'.tags, t.name ∉ m.tags.map Tag.name := by
  have hdg : (loading.add m).byDigest m'.digest = none ↔
      m'.digest ≠ m.digest ∧ loading.byDigest m'.digest = none := by
    by_cases h : m'.digest = m.digest <;> simp [Loading.add, h]
  have htag : ∀ t : Tag, (loading.add m).tagOwner t.name = none ↔
      t.name ∉ m.tags.map Tag.name ∧ loading.tagOwner t.name = none := by
    intro t
    simp only [Loading.add, claimTags]
    split_ifs with h <;> simp [h]
  unfold Loading.Free
  simp only [hdg, htag]
  constructor
  · rintro ⟨⟨hne, hfr⟩, htg⟩
    exact ⟨⟨hfr, fun t ht => (htg t ht).2⟩, hne, fun t ht => (htg t ht).1⟩
  · rintro ⟨⟨hfr, htg⟩, hne, hnot⟩
    exact ⟨⟨hne, hfr⟩, fun t ht => ⟨hnot t ht, htg t ht⟩⟩

theorem accepted_cons :
    Accepted (m :: ms) ↔ m.WellFormed ∧ (m.tags.map Tag.name).Nodup ∧ Accepted ms ∧
      ∀ m' ∈ ms, m'.digest ≠ m.digest ∧ ∀ t ∈ m'.tags, t.name ∉ m.tags.map Tag.name := by
  constructor
  · rintro ⟨hwf, hdg, htg⟩
    rw [forall_mem_cons] at hwf
    rw [map_cons, nodup_cons] at hdg
    rw [flatMap_cons, nodup_append] at htg
    refine ⟨hwf.1, htg.1, ⟨hwf.2, hdg.2, htg.2.1⟩, fun m' hm' => ⟨fun heq => ?_, ?_⟩⟩
    · exact hdg.1 (mem_map.mpr ⟨m', hm', heq⟩)
    · intro t ht hmem
      exact htg.2.2 _ hmem _
        (mem_flatMap.mpr ⟨m', hm', mem_map_of_mem ht⟩) rfl
  · rintro ⟨hwf, hnd, hrs, hfr⟩
    refine ⟨forall_mem_cons.mpr ⟨hwf, hrs.wellFormed⟩, ?_, ?_⟩
    · refine nodup_cons.mpr ⟨fun hmem => ?_, hrs.digests⟩
      obtain ⟨m', hm', heq⟩ := mem_map.mp hmem
      exact (hfr m' hm').1 heq
    · rw [flatMap_cons, nodup_append]
      refine ⟨hnd, hrs.tags, fun name hnm name' hnm' heq => ?_⟩
      obtain ⟨m', hm', hmem⟩ := mem_flatMap.mp hnm'
      obtain ⟨t, ht, rfl⟩ := mem_map.mp hmem
      exact (hfr m' hm').2 t ht (heq ▸ hnm)

theorem loadManifests_eq_ok {loaded : Loading} :
    loadManifests ms loading = .ok loaded ↔
      (Accepted ms ∧ ∀ m ∈ ms, loading.Free m) ∧ loaded = ms.foldl Loading.add loading := by
  induction ms generalizing loading with
  | nil =>
    refine ⟨fun h => ⟨⟨⟨by simp, by simp, by simp⟩, by simp⟩, (Except.ok.inj h).symm⟩, fun h => ?_⟩
    exact h.2 ▸ rfl
  | cons m ms ih =>
    rw [loadManifests, bind_eq_ok, accepted_cons, forall_mem_cons, foldl_cons]
    constructor
    · rintro ⟨r, hr, h⟩
      obtain ⟨⟨hwf, hsn, hnd, how⟩, rfl⟩ := validateManifest_eq_ok.mp hr
      obtain ⟨⟨hrs, hfr⟩, rfl⟩ := ih.mp h
      have hadd : ∀ m' ∈ ms, (loading.add m).Free m' := hfr
      refine ⟨⟨⟨hwf, hnd, hrs, fun m' hm' => ?_⟩, ⟨hsn, how⟩, fun m' hm' => ?_⟩, rfl⟩
      · exact (Loading.free_add.mp (hadd m' hm')).2
      · exact (Loading.free_add.mp (hadd m' hm')).1
    · rintro ⟨⟨⟨hwf, hnd, hrs, hnew⟩, ⟨hsn, how⟩, hfr⟩, rfl⟩
      refine ⟨_, validateManifest_eq_ok.mpr ⟨⟨hwf, hsn, hnd, how⟩, rfl⟩, ih.mpr ⟨⟨hrs,
        fun m' hm' => ?_⟩, rfl⟩⟩
      exact Loading.free_add.mpr ⟨hfr m' hm', hnew m' hm'⟩

theorem manifests_foldl_add (ms : List Manifest) (loading : Loading) :
    (ms.foldl Loading.add loading).manifests = loading.manifests ++ ms.map Manifest.clone := by
  induction ms generalizing loading with
  | nil => simp
  | cons m ms ih => simp [ih, Loading.add]

theorem byDigest_foldl_add (hnd : (ms.map Manifest.digest).Nodup) (loading : Loading)
    (d : Digest) (c : Manifest) :
    (ms.foldl Loading.add loading).byDigest d = some c ↔
      (c ∈ ms.map Manifest.clone ∧ c.digest = d) ∨
        (d ∉ ms.map Manifest.digest ∧ loading.byDigest d = some c) := by
  induction ms generalizing loading with
  | nil => simp
  | cons m ms ih =>
    rw [map_cons, nodup_cons] at hnd
    rw [foldl_cons, ih hnd.2, map_cons, map_cons, mem_cons, mem_cons,
      not_or]
    by_cases hd : d = m.digest
    · subst hd
      have hnot : ¬ (c ∈ ms.map Manifest.clone ∧ c.digest = m.digest) := by
        rintro ⟨hc, hdig⟩
        obtain ⟨m', hm', rfl⟩ := mem_map.mp hc
        exact hnd.1 (mem_map.mpr ⟨m', hm', hdig⟩)
      simp only [Loading.add, update_self, Option.some.injEq, hnot, hnd.1,
        not_false_eq_true, true_and, false_or, not_true_eq_false, false_and, or_false]
      constructor
      · rintro rfl
        exact ⟨.inl rfl, rfl⟩
      · rintro ⟨rfl | hc, hdig⟩
        · rfl
        · exact absurd ⟨hc, hdig⟩ hnot
    · simp only [Loading.add, update_of_ne hd]
      constructor
      · rintro (⟨hc, hdig⟩ | ⟨hnot, hlk⟩)
        · exact .inl ⟨.inr hc, hdig⟩
        · exact .inr ⟨⟨hd, hnot⟩, hlk⟩
      · rintro (⟨rfl | hc, hdig⟩ | ⟨⟨-, hnot⟩, hlk⟩)
        · exact absurd hdig (Ne.symm hd)
        · exact .inl ⟨hc, hdig⟩
        · exact .inr ⟨hnot, hlk⟩

/-! ## The subject walk -/

/-- The nodes no walk has visited. -/
def pending (nodes : List Digest) (state : Digest → Mark) : ℕ :=
  (nodes.filter fun d => state d = .unvisited).length

theorem pending_update_lt (hd : d ∈ nodes) (hnew : state d = .unvisited) (mark : Mark)
    (hmr : mark ≠ .unvisited) : pending nodes (update state d mark) < pending nodes state := by
  have hfl : (nodes.filter fun x => update state d mark x = .unvisited) =
      (nodes.filter fun x => state x = .unvisited).filter fun x =>
        update state d mark x = .unvisited := by
    rw [filter_filter]
    refine filter_congr fun x _ => ?_
    by_cases hx : x = d
    · subst hx
      simp [hmr]
    · simp [hx]
  unfold pending
  rw [hfl, length_filter_lt_length_iff_exists]
  exact ⟨d, mem_filter.mpr ⟨hd, decide_eq_true hnew⟩, by simpa using hmr⟩

theorem walk_eq_of_fuel (hnd : ∀ d m, byDigest d = some m → d ∈ nodes) {path : List Digest}
    {current : Digest} (hfl : pending nodes state < fuel) (hfl' : pending nodes state < fuel') :
    walk byDigest fuel state path current = walk byDigest fuel' state path current := by
  induction fuel generalizing fuel' state path current with
  | zero => omega
  | succ fuel ih =>
    obtain ⟨fuel', rfl⟩ := Nat.exists_eq_succ_of_ne_zero (Nat.ne_zero_of_lt hfl')
    rw [walk, walk]
    cases hst : state current with
    | onPath => rfl
    | settled => rfl
    | unvisited =>
      cases hlk : byDigest current with
      | none => rfl
      | some next =>
        have hlt := pending_update_lt (hnd current next hlk) hst .onPath (by decide)
        simp only
        split_ifs
        · rfl
        · exact ih (by omega) (by omega)

theorem checkCycles_eq_of_fuel (hnd : ∀ d m, byDigest d = some m → d ∈ nodes)
    (hfl : nodes.length < fuel) (hfl' : nodes.length < fuel') (starts : List Manifest)
    (state : Digest → Mark) :
    checkCycles byDigest fuel starts state = checkCycles byDigest fuel' starts state := by
  induction starts generalizing state with
  | nil => rfl
  | cons start starts ih =>
    have hle : pending nodes state ≤ nodes.length := length_filter_le _ _
    have hwl : walk byDigest fuel state [] start.digest =
        walk byDigest fuel' state [] start.digest :=
      walk_eq_of_fuel hnd (by omega) (by omega)
    rw [checkCycles, checkCycles, hwl]
    split_ifs
    · exact ih state
    · exact bind_congr fun state => ih state

/-! ## The inventory -/

/-- What an inventory holds. -/
structure Inventory.Valid (inv : Inventory) : Prop where
  increasing : Increasing Manifest.digest inv.manifests
  named : ∀ m ∈ inv.manifests, m.digest ≠ ""
  lookup : ∀ d m, inv.byDigest d = some m ↔ m ∈ inv.manifests ∧ m.digest = d
  mem_referrers : ∀ s r, r ∈ inv.referrers s ↔
    (inv.byDigest s).isSome ∧ ∃ m ∈ inv.manifests, m.subject = s ∧ m.digest = r
  mem_indexParents : ∀ c p, p ∈ inv.indexParents c ↔
    (inv.byDigest c).isSome ∧ ∃ m ∈ inv.manifests, c ∈ m.children ∧ m.digest = p
  excludedBy : ∀ m ∈ inv.manifests,
    inv.excludedBy m.digest = exclusionReasons inv.byDigest inv.indexParents m
  selectable : inv.selectable =
    inv.manifests.filter fun m => (exclusionReasons inv.byDigest inv.indexParents m).length = 0

theorem mem_foldl_addParents (byDigest : Digest → Option Manifest) (ms : List Manifest)
    (parents : Digest → List Digest) (c p : Digest) :
    p ∈ ms.foldl (addParents byDigest) parents c ↔
      p ∈ parents c ∨ (byDigest c).isSome ∧ ∃ m ∈ ms, c ∈ m.children ∧ m.digest = p := by
  induction ms generalizing parents with
  | nil => simp
  | cons m ms ih =>
    have hone : p ∈ addParents byDigest parents m c ↔
        p ∈ parents c ∨ (byDigest c).isSome ∧ c ∈ m.children ∧ m.digest = p := by
      refine (mem_foldl_appendAt (fun child => (byDigest child).isSome) id (fun _ => m.digest)
        m.children parents c p).trans ⟨?_, ?_⟩
      · rintro (h | ⟨_, hc, hlv, rfl, hp⟩)
        · exact .inl h
        · exact .inr ⟨hlv, hc, hp⟩
      · rintro (h | ⟨hlv, hc, hp⟩)
        · exact .inl h
        · exact .inr ⟨c, hc, hlv, rfl, hp⟩
    rw [foldl_cons, ih, hone, exists_mem_cons_iff, or_assoc, ← and_or_left]

theorem foldl_exclude_of_not_mem (h : d ∉ ms.map Manifest.digest)
    (excludedBy : Digest → List Exclusion) :
    ms.foldl (exclude reasons) excludedBy d = excludedBy d := by
  induction ms generalizing excludedBy with
  | nil => rfl
  | cons m ms ih =>
    rw [map_cons, mem_cons, not_or] at h
    rw [foldl_cons, ih h.2, exclude]
    split_ifs
    · rfl
    · exact update_of_ne h.1 _ _

theorem foldl_exclude_of_mem (hnd : (ms.map Manifest.digest).Nodup) (hm : m ∈ ms)
    {excludedBy : Digest → List Exclusion} (h : excludedBy m.digest = []) :
    ms.foldl (exclude reasons) excludedBy m.digest = reasons m := by
  induction ms generalizing excludedBy with
  | nil => cases hm
  | cons m' ms ih =>
    rw [map_cons, nodup_cons] at hnd
    rw [foldl_cons]
    rcases mem_cons.mp hm with rfl | hm
    · rw [foldl_exclude_of_not_mem hnd.1, exclude]
      split_ifs with hlen
      · rw [h, length_eq_zero_iff.mp hlen]
      · exact update_self _ _ _
    · have hne : m.digest ≠ m'.digest := fun heq =>
        hnd.1 (mem_map.mpr ⟨m, hm, heq⟩)
      refine ih hnd.2 hm ?_
      unfold exclude
      split_ifs
      · exact h
      · rw [update_of_ne hne, h]

theorem valid_assemble {manifests : List Manifest} (hinc : Increasing Manifest.digest manifests)
    (hnm : ∀ m ∈ manifests, m.digest ≠ "")
    (hlk : ∀ d m, byDigest d = some m ↔ m ∈ manifests ∧ m.digest = d) :
    (assemble repository manifests byDigest).Valid where
  increasing := hinc
  named := hnm
  lookup := hlk
  mem_referrers s r := by
    have hmem := mem_foldl_appendAt
      (fun m : Manifest => m.subject ≠ "" ∧ (byDigest m.subject).isSome) Manifest.subject
      Manifest.digest manifests (fun _ => []) s r
    simp only [decide_eq_true_eq] at hmem
    rw [assemble, mem_sortBy]
    refine hmem.trans ⟨?_, ?_⟩
    · rintro (h | ⟨m, hm, ⟨-, hlv⟩, rfl, hr⟩)
      · cases h
      · exact ⟨hlv, m, hm, rfl, hr⟩
    · rintro ⟨hlv, m, hm, rfl, hr⟩
      obtain ⟨t, ht⟩ := Option.isSome_iff_exists.mp hlv
      obtain ⟨hmem, hdg⟩ := (hlk _ t).mp ht
      exact .inr ⟨m, hm, ⟨hdg ▸ hnm t hmem, hlv⟩, rfl, hr⟩
  mem_indexParents c p := by
    rw [assemble, mem_sortBy, mem_foldl_addParents]
    simp
  excludedBy m hm :=
    foldl_exclude_of_mem (pairwise_map.mpr (hinc.imp fun h => h.ne)) hm rfl
  selectable := rfl

/-- **Acceptance.** `newInventory` succeeds exactly when the repository is named, the rows are
accepted and the subject walk over them in digest order finds no cycle. -/
theorem newInventory_eq_ok :
    newInventory repository snapshot = .ok inv ↔
      repository ≠ "" ∧ Accepted snapshot ∧
        (let sorted := sortBy Manifest.digest (snapshot.map Manifest.clone)
          let byDigest := (snapshot.foldl Loading.add {}).byDigest
          checkCycles byDigest (sorted.length + 1) sorted (fun _ => .unvisited) = .ok () ∧
            inv = assemble repository sorted byDigest) := by
  have hfr : ∀ m ∈ snapshot, ({} : Loading).Free m := fun m _ => ⟨rfl, fun _ _ => rfl⟩
  have hms : (snapshot.foldl Loading.add {}).manifests = snapshot.map Manifest.clone :=
    manifests_foldl_add snapshot {}
  unfold newInventory
  split_ifs with hrp
  · refine ⟨fun h => ?_, fun h => absurd hrp h.1⟩
    cases h
  · rw [bind_eq_ok]
    constructor
    · rintro ⟨loaded, hld, h⟩
      obtain ⟨⟨hacc, -⟩, rfl⟩ := loadManifests_eq_ok.mp hld
      obtain ⟨⟨⟩, hcy, h⟩ := bind_eq_ok.mp h
      rw [hms] at hcy h
      exact ⟨hrp, hacc, hcy, (Except.ok.inj h).symm⟩
    · rintro ⟨-, hacc, hcy, rfl⟩
      refine ⟨_, loadManifests_eq_ok.mpr ⟨⟨hacc, hfr⟩, rfl⟩, bind_eq_ok.mpr ⟨(), ?_, ?_⟩⟩
      · rw [hms]
        exact hcy
      · rw [hms]

theorem perm_of_newInventory (h : newInventory repository snapshot = .ok inv) :
    inv.manifests.Perm (snapshot.map Manifest.clone) := by
  obtain ⟨-, -, -, rfl⟩ := newInventory_eq_ok.mp h
  exact perm_sortBy _

theorem valid_of_newInventory (h : newInventory repository snapshot = .ok inv) : inv.Valid := by
  obtain ⟨-, hacc, -, rfl⟩ := newInventory_eq_ok.mp h
  have hdg : ((snapshot.map Manifest.clone).map Manifest.digest).Nodup := by
    rw [map_map]
    exact hacc.digests
  refine valid_assemble (increasing_sortBy hdg) (fun m hm => ?_) fun d m => ?_
  · obtain ⟨m', hm', rfl⟩ := mem_map.mp (mem_sortBy.mp hm)
    exact (hacc.wellFormed m' hm').digest
  · rw [byDigest_foldl_add hacc.digests, mem_sortBy]
    simp

end Trove.Policy
