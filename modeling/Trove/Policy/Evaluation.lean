import Trove.Policy.Plan
import Trove.Policy.Snapshot

/-!
# What an evaluation computes

The loops of `evaluate` in closed form over a valid inventory: the opinions on a manifest, when
there is a plan, and the plan's lists, read off the selectable manifests one by one.
-/

namespace Trove.Policy

open Lib List
open Meta (Time)

variable {inv : Inventory} {m : Manifest}

theorem Inventory.Valid.nodup_digests (hv : inv.Valid) :
    (inv.manifests.map Manifest.digest).Nodup :=
  pairwise_map.mpr (hv.increasing.imp fun h => h.ne)

theorem Inventory.Valid.selectable_sublist (hv : inv.Valid) :
    inv.selectable.Sublist inv.manifests := by
  rw [hv.selectable]
  exact filter_sublist

theorem Inventory.Valid.nodup_selectable (hv : inv.Valid) :
    (inv.selectable.map Manifest.digest).Nodup :=
  hv.nodup_digests.sublist (hv.selectable_sublist.map _)

theorem Inventory.Valid.byDigest_of_mem (hv : inv.Valid) (hm : m ∈ inv.manifests) :
    inv.byDigest m.digest = some m :=
  (hv.lookup _ m).mpr ⟨hm, rfl⟩

theorem Inventory.Valid.eq_of_digest (hv : inv.Valid) {m' : Manifest} (hm : m ∈ inv.manifests)
    (hm' : m' ∈ inv.manifests) (h : m.digest = m'.digest) : m = m' :=
  Option.some.inj ((hv.byDigest_of_mem hm).symm.trans (h ▸ hv.byDigest_of_mem hm'))

/-! ## Opinions -/

/-- The rule keeps it, of those it matches. -/
def CompiledRule.saves (r : CompiledRule) (selectable : List Manifest) (now : Time)
    (m : Manifest) : Bool :=
  m.digest ∈ r.keeps (selectable.filter r.matches) now

/-- The opinions on a manifest, in rule order. -/
def opinionsOn (selectable : List Manifest) (rules : List CompiledRule) (now : Time)
    (m : Manifest) : List Opinion :=
  (rules.filter (·.matches m)).map fun r =>
    { rule := r.name, priority := r.priority, kind := r.kind, keep := r.saves selectable now m }

theorem gatherOpinions_eq {selectable : List Manifest}
    (hnd : (selectable.map Manifest.digest).Nodup) (hm : m ∈ selectable)
    (rules : List CompiledRule) (now : Time) :
    gatherOpinions selectable rules now m.digest = opinionsOn selectable rules now m := by
  -- the induction is on the rules already heard, which are appended at the end
  induction rules using List.reverseRecOn with
  | nil => rfl
  | append_singleton rules r ih =>
    unfold gatherOpinions at ih ⊢
    unfold opinionsOn at ih ⊢
    rw [foldl_append, foldl_cons, foldl_nil, addOpinions, foldl_appendAt, ih,
      filter_append, map_append]
    rw [filter_filter]
    by_cases hr : r.matches m
    · have hone : (selectable.filter fun x => decide (x.digest = m.digest) && r.matches x) =
          [m] := by
        rw [← filter_filter, filter_comm, filter_key_eq hnd hm]
        simp [hr]
      rw [hone]
      simp [hr, CompiledRule.opinion, CompiledRule.saves]
    · have hnil : (selectable.filter fun x => decide (x.digest = m.digest) && r.matches x) =
          [] := by
        rw [← filter_filter, filter_comm, filter_key_eq hnd hm]
        simp [hr]
      rw [hnil]
      simp [hr]

/-! ## Verdicts -/

/-- The zero verdict where they conflict. -/
def verdictOn (selectable : List Manifest) (rules : List CompiledRule) (now : Time)
    (m : Manifest) : Verdict :=
  match resolve m.digest (opinionsOn selectable rules now m) with
  | .ok v => v
  | .error _ => {}

/-- The conflict on a manifest, if any. -/
def conflictOn (selectable : List Manifest) (rules : List CompiledRule) (now : Time)
    (m : Manifest) : Option Conflict :=
  match resolve m.digest (opinionsOn selectable rules now m) with
  | .ok _ => none
  | .error c => some c

theorem foldl_decideOne_conflicts (opinions : Digest → List Opinion) (ms : List Manifest)
    (decided : (Digest → Verdict) × List Conflict) :
    (ms.foldl (decideOne opinions) decided).2 =
      decided.2 ++ ms.filterMap fun m =>
        match resolve m.digest (opinions m.digest) with
        | .ok _ => none
        | .error c => some c := by
  induction ms generalizing decided with
  | nil => simp
  | cons m ms ih =>
    rw [foldl_cons, ih, decideOne]
    cases h : resolve m.digest (opinions m.digest) with
    | ok v => simp [h]
    | error c => simp [h]

variable {ms : List Manifest} {now : Time}

theorem foldl_decideOne_of_not_mem (opinions : Digest → List Opinion) {d : Digest}
    (hd : d ∉ ms.map Manifest.digest) (decided : (Digest → Verdict) × List Conflict) :
    (ms.foldl (decideOne opinions) decided).1 d = decided.1 d := by
  induction ms generalizing decided with
  | nil => rfl
  | cons m ms ih =>
    rw [map_cons, mem_cons, not_or] at hd
    rw [foldl_cons, ih hd.2, decideOne]
    split
    · rfl
    · exact Function.update_of_ne hd.1 _ _

theorem foldl_decideOne_of_mem (opinions : Digest → List Opinion)
    (hnd : (ms.map Manifest.digest).Nodup) (hm : m ∈ ms) {v : Verdict}
    (hv : resolve m.digest (opinions m.digest) = .ok v)
    (decided : (Digest → Verdict) × List Conflict) :
    (ms.foldl (decideOne opinions) decided).1 m.digest = v := by
  induction ms generalizing decided with
  | nil => cases hm
  | cons m' ms ih =>
    rw [map_cons, nodup_cons] at hnd
    rw [foldl_cons]
    rcases mem_cons.mp hm with rfl | hm
    · rw [foldl_decideOne_of_not_mem opinions hnd.1, decideOne, hv]
      exact Function.update_self _ _ _
    · exact ih hnd.2 hm _

/-! ## Plans -/

/-- The entry that deletes it, if one does. -/
def entryFor (inv : Inventory) (m : Manifest) (decided : Verdict) : Option Entry :=
  if !decided.applicable || decided.keep then none
  else match firstProtectedReferrer inv (inv.referrerSubtree m.digest) with
    | some _ => none
    | none => some
      { digest := m.digest, tags := m.tagNames, size := m.size, rule := decided.rule,
        ruleKind := decided.kind, priority := decided.priority,
        alsoSelectedBy := decided.agreeing,
        referrers := (inv.referrerSubtree m.digest).map (referrerEntry inv) }

/-- The entry that refuses to, if one does. -/
def blockedFor (inv : Inventory) (m : Manifest) (decided : Verdict) : Option BlockedEntry :=
  if !decided.applicable || decided.keep then none
  else match firstProtectedReferrer inv (inv.referrerSubtree m.digest) with
    | none => none
    | some (pinned, blocker) => some
      { digest := m.digest, tags := m.tagNames, rule := decided.rule, ruleKind := decided.kind,
        priority := decided.priority, referrer := pinned, blocker }

theorem map_digest_referrerEntry (inv : Inventory) (subtree : List Digest) :
    subtree.map (Referrer.digest ∘ referrerEntry inv) = subtree :=
  map_id subtree

/-- The draft with entries and digests added. -/
def Draft.extend (draft : Draft) (entries : List Entry) (refused : List BlockedEntry) : Draft where
  selectedEntries := draft.selectedEntries ++ entries
  blockedEntries := draft.blockedEntries ++ refused
  cascading := draft.cascading ++ (entries.flatMap Entry.referrers).map Referrer.digest
  selected := draft.selected ++ entries.map Entry.digest
  blocked := draft.blocked ++ refused.map BlockedEntry.digest

theorem Draft.extend_extend (draft : Draft) (entries entries' : List Entry)
    (refused refused' : List BlockedEntry) :
    (draft.extend entries refused).extend entries' refused' =
      draft.extend (entries ++ entries') (refused ++ refused') := by
  simp [Draft.extend]

theorem Draft.add_eq (inv : Inventory) (verdicts : Digest → Verdict) (draft : Draft)
    (m : Manifest) :
    draft.add inv verdicts m =
      draft.extend (entryFor inv m (verdicts m.digest)).toList
        (blockedFor inv m (verdicts m.digest)).toList := by
  unfold Draft.add entryFor blockedFor
  simp only
  split_ifs with hsp
  · simp [Draft.extend]
  · cases firstProtectedReferrer inv (inv.referrerSubtree m.digest) with
    | none => simp [Draft.extend, map_digest_referrerEntry]
    | some pin => simp [Draft.extend]

theorem foldl_draft (inv : Inventory) (verdicts : Digest → Verdict) (ms : List Manifest)
    (draft : Draft) :
    ms.foldl (Draft.add inv verdicts) draft =
      draft.extend (ms.filterMap fun m => entryFor inv m (verdicts m.digest))
        (ms.filterMap fun m => blockedFor inv m (verdicts m.digest)) := by
  simp only [filterMap_eq_flatMap_toList]
  induction ms generalizing draft with
  | nil => simp [Draft.extend]
  | cons m ms ih =>
    rw [foldl_cons, ih, Draft.add_eq, Draft.extend_extend, flatMap_cons,
      flatMap_cons]

theorem buildPlan_eq (inv : Inventory) (verdicts : Digest → Verdict) (now : Time) :
    let entries := inv.selectable.filterMap fun m => entryFor inv m (verdicts m.digest)
    let refused := inv.selectable.filterMap fun m => blockedFor inv m (verdicts m.digest)
    buildPlan inv verdicts now =
      { repository := inv.repository
        evaluatedAt := now
        selected := entries
        blocked := refused
        kept := (inv.manifests.filter fun m =>
          m.digest ∉ entries.map Entry.digest ++
            ((entries.flatMap Entry.referrers).map Referrer.digest ++
              refused.map BlockedEntry.digest)).map fun m =>
                keptEntry inv m (verdicts m.digest) } := by
  intro entries refused
  unfold buildPlan
  rw [foldl_draft, Draft.extend]
  simp only [nil_append, Plan.mk.injEq, true_and]
  refine ⟨rfl, rfl, congrArg _ (filter_congr fun m _ => ?_)⟩
  rw [Bool.eq_iff_iff]
  simp only [Draft.accounted, Bool.not_eq_true', Bool.or_eq_false_iff, decide_eq_false_iff_not,
    decide_eq_true_eq, mem_append, not_or, and_assoc, entries, refused]

theorem buildPlan_congr (hv : inv.Valid) {verdicts verdicts' : Digest → Verdict}
    (h : ∀ m ∈ inv.selectable, verdicts m.digest = verdicts' m.digest) (now : Time) :
    buildPlan inv verdicts now = buildPlan inv verdicts' now := by
  have hen : (inv.selectable.filterMap fun m => entryFor inv m (verdicts m.digest)) =
      inv.selectable.filterMap fun m => entryFor inv m (verdicts' m.digest) :=
    filterMap_congr fun m hm => by rw [h m hm]
  have hrf : (inv.selectable.filterMap fun m => blockedFor inv m (verdicts m.digest)) =
      inv.selectable.filterMap fun m => blockedFor inv m (verdicts' m.digest) :=
    filterMap_congr fun m hm => by rw [h m hm]
  rw [buildPlan_eq, buildPlan_eq, hen, hrf]
  simp only [Plan.mk.injEq, true_and]
  refine map_congr_left fun m hm => ?_
  have hmem := (mem_filter.mp hm).1
  by_cases hsel : m ∈ inv.selectable
  · rw [h m hsel]
  · have hlen : (inv.excludedBy m.digest).length > 0 := by
      rw [hv.selectable, mem_filter, not_and] at hsel
      rw [hv.excludedBy m hmem]
      exact Nat.pos_of_ne_zero (by simpa using hsel hmem)
    simp only [keptEntry, hlen, if_true]

/-! ## The evaluation -/

/-- The verdict on each digest. -/
def verdictsOn (inv : Inventory) (rules : List CompiledRule) (now : Time) (d : Digest) : Verdict :=
  (inv.byDigest d).elim {} (verdictOn inv.selectable rules now)

theorem Inventory.Valid.verdictsOn_of_mem (hv : inv.Valid) (rules : List CompiledRule) (now : Time)
    (hm : m ∈ inv.manifests) :
    verdictsOn inv rules now m.digest = verdictOn inv.selectable rules now m := by
  rw [verdictsOn, hv.byDigest_of_mem hm, Option.elim_some]

/-- The conflicts, in digest order. -/
def conflictsOn (inv : Inventory) (rules : List CompiledRule) (now : Time) : List Conflict :=
  inv.selectable.filterMap (conflictOn inv.selectable rules now)

/-- **Evaluation.** At a time, a valid inventory has a conflict report or the plan of its
verdicts. -/
theorem evaluate_eq (hv : inv.Valid) (rules : List CompiledRule) (hnow : now ≠ 0) :
    evaluate (some inv) rules now =
      if conflictsOn inv rules now = [] then .ok (buildPlan inv (verdictsOn inv rules now) now)
      else .error (.conflict (conflictsOn inv rules now)) := by
  have hon : ∀ m ∈ inv.selectable, gatherOpinions inv.selectable rules now m.digest =
      opinionsOn inv.selectable rules now m := fun m hm =>
    gatherOpinions_eq hv.nodup_selectable hm rules now
  have hcn := foldl_decideOne_conflicts (gatherOpinions inv.selectable rules now)
    inv.selectable (fun _ => {}, [])
  have heq : (inv.selectable.foldl (decideOne (gatherOpinions inv.selectable rules now))
      (fun _ => {}, [])).2 = conflictsOn inv rules now := by
    rw [hcn]
    refine filterMap_congr fun m hm => ?_
    rw [hon m hm, conflictOn]
  simp only [evaluate, hnow, if_false, heq]
  by_cases hnil : conflictsOn inv rules now = []
  · rw [if_pos hnil, hnil]
    simp only [length_nil, gt_iff_lt, lt_irrefl, if_false, Except.ok.injEq]
    refine buildPlan_congr hv (fun m hm => ?_) now
    rw [hv.verdictsOn_of_mem rules now (hv.selectable_sublist.subset hm)]
    have hnn := filterMap_eq_nil_iff.mp hnil m hm
    cases hres : resolve m.digest (opinionsOn inv.selectable rules now m) with
    | error c => simp [conflictOn, hres] at hnn
    | ok v =>
      rw [verdictOn, hres]
      exact foldl_decideOne_of_mem _ hv.nodup_selectable hm ((hon m hm).symm ▸ hres) _
  · rw [if_neg hnil, if_pos (length_pos_iff.mpr hnil)]

theorem evaluate_eq_ok (hv : inv.Valid) {rules : List CompiledRule} {plan : Plan} :
    evaluate (some inv) rules now = .ok plan ↔
      now ≠ 0 ∧ conflictsOn inv rules now = [] ∧
        plan = buildPlan inv (verdictsOn inv rules now) now := by
  by_cases hnow : now = 0
  · simp [evaluate, hnow]
  · rw [evaluate_eq hv rules hnow]
    split_ifs with hnil
    · simp [hnow, hnil, eq_comm]
    · simp [hnil]

end Trove.Policy
