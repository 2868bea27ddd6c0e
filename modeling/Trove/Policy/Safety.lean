import Mathlib.Algebra.Order.BigOperators.Group.List
import Mathlib.Algebra.Order.Ring.Int
import Trove.Policy.Cascade

/-!
# What must survive, survives

Deleting what a plan names leaves no protected tag without its manifest, no index without a child
and no attachment without its subject; and every manifest of the inventory is accounted for once.
-/

namespace Trove.Policy

open Lib Relation List
open Meta (Time)

/-! ## Nothing protected is deleted, and nothing is left dangling -/

variable {inv : Inventory} {snapshot : List Manifest} {repository : String}

theorem clone_mem_of_mem (hinv : newInventory repository snapshot = .ok inv) {m : Manifest}
    (hm : m ∈ snapshot) : m.clone ∈ inv.manifests :=
  (perm_of_newInventory hinv).mem_iff.mpr (mem_map_of_mem hm)

theorem map_digest_perm (hinv : newInventory repository snapshot = .ok inv) :
    (inv.manifests.map Manifest.digest).Perm (snapshot.map Manifest.digest) := by
  have h := (perm_of_newInventory hinv).map Manifest.digest
  rwa [List.map_map] at h

/-- **Safety of retention.** What a plan deletes carries no protected or immutable tag and no index
that survives lists it; no survivor has lost a child or its subject; and an attachment of a manifest
that was there goes only together with it. -/
theorem plan_safe {repository : String} {snapshot : List Manifest} {inv : Inventory}
    {set : List CompiledRule} {now : Time} {plan : Plan}
    (hinv : newInventory repository snapshot = .ok inv)
    (hplan : evaluate (some inv) set now = .ok plan) :
    (∀ m ∈ snapshot, m.digest ∈ plan.digests →
      (∀ t ∈ m.tags, t.isProtected = false ∧ t.isImmutable = false) ∧
        ∀ p ∈ snapshot, p.digest ∉ plan.digests → m.digest ∉ p.children) ∧
    (∀ m ∈ snapshot, m.digest ∉ plan.digests →
      (∀ c ∈ m.children, c ∉ plan.digests) ∧ m.subject ∉ plan.digests) ∧
    ∀ m ∈ snapshot, m.digest ∈ plan.digests → m.subject ∈ snapshot.map Manifest.digest →
      m.subject ∈ plan.digests := by
  have hv := valid_of_newInventory hinv
  obtain ⟨-, -, rfl⟩ := (evaluate_eq_ok hv).mp hplan
  have hat : ∀ m ∈ snapshot, (∃ s ∈ inv.manifests, s.digest = m.subject) →
      inv.Attached m.subject m.digest := by
    rintro m hm ⟨s, hs, hdg⟩
    refine hv.attached_iff.mpr ⟨?_, m.clone, clone_mem_of_mem hinv hm, rfl, rfl⟩
    rw [← hdg, hv.byDigest_of_mem hs]
    rfl
  have hch : ∀ p ∈ snapshot, ∀ c ∈ p.children,
      c ∉ (buildPlan inv (verdictsOn inv set now) now).digests := by
    intro p hp c hc hdel
    obtain ⟨m, hm, rfl⟩ := hv.live_of_mem_digests _ now hdel
    have hpr := (hv.unprotected_of_mem_digests _ now hm hdel).parents
    have hmem : p.clone.digest ∈ inv.indexParents m.digest := by
      refine (hv.mem_indexParents _ _).mpr ⟨?_, p.clone, clone_mem_of_mem hinv hp, ?_, rfl⟩
      · rw [hv.byDigest_of_mem hm]
        rfl
      · exact mem_compact.mpr (mem_sortBy.mpr hc)
    rw [hpr] at hmem
    cases hmem
  refine ⟨fun m hm hdel => ⟨fun t ht => ?_, fun p hp _ hc => ?_⟩,
    fun m hm hkp => ⟨hch m hm, fun hdel => ?_⟩, fun m hm hdel hsub => ?_⟩
  · have hcl := hv.unprotected_of_mem_digests _ now (clone_mem_of_mem hinv hm) hdel
    exact hcl.tags t (mem_sortBy.mpr ht)
  · exact hch p hp m.digest hc hdel
  · have hatt := hat m hm (hv.live_of_mem_digests _ now hdel)
    exact hkp (hv.mem_digests_of_attached _ now hatt hdel)
  · have hlv := mem_map.mp ((map_digest_perm hinv).mem_iff.mpr hsub)
    exact hv.subject_mem_digests _ now (hat m hm hlv) hdel

theorem plan_safe_reap : ∃ inv plan, newInventory "r" sampleSnapshot = .ok inv ∧
    evaluate (some inv) [reapUntagged "reap" 1] 10 = .ok plan ∧
      plan.digests = ["img", "sbom", "sig"] ∧
        ∀ m ∈ sampleSnapshot, m.digest ∉ plan.digests →
          (∀ c ∈ m.children, c ∉ plan.digests) ∧ m.subject ∉ plan.digests := by
  have hrun : ∃ inv ∈ (newInventory "r" sampleSnapshot).toOption,
      ∃ plan ∈ (evaluate (some inv) [reapUntagged "reap" 1] 10).toOption,
        plan.digests = ["img", "sbom", "sig"] := by decide
  obtain ⟨inv, hinv, plan, hpl, hdg⟩ := hrun
  rw [mem_toOption] at hinv hpl
  exact ⟨inv, plan, hinv, hpl, hdg, (plan_safe hinv hpl).2.1⟩

/-! ## Every manifest is accounted for once -/

section Partition

variable {inv : Inventory} (hv : inv.Valid) (verdicts : Digest → Verdict) (now : Time)
include hv

theorem Inventory.Valid.nodup_selected :
    ((buildPlan inv verdicts now).selected.map Entry.digest).Nodup := by
  rw [buildPlan_eq]
  exact hv.nodup_selectable.sublist
    (map_filterMap_sublist (fun m e h => (entryFor_eq_some h).1) inv.selectable)

theorem Inventory.Valid.nodup_blocked :
    ((buildPlan inv verdicts now).blocked.map BlockedEntry.digest).Nodup := by
  rw [buildPlan_eq]
  exact hv.nodup_selectable.sublist
    (map_filterMap_sublist (fun m b h => (blockedFor_eq_some h).1) inv.selectable)

theorem Inventory.Valid.nodup_cascaded :
    ((buildPlan inv verdicts now).cascaded.map Referrer.digest).Nodup := by
  have htr : ∀ e ∈ (buildPlan inv verdicts now).selected, ∃ m ∈ inv.selectable,
      e.digest = m.digest ∧ e.referrers.map Referrer.digest = inv.referrerSubtree m.digest := by
    intro e he
    obtain ⟨m, hm, hen⟩ := mem_selected_buildPlan.mp he
    obtain ⟨hdg, -, href, -⟩ := entryFor_eq_some hen
    exact ⟨m, hm, hdg, Entry.map_digest_referrers href⟩
  rw [Plan.cascaded, map_flatMap, nodup_flatMap]
  constructor
  · intro e he
    obtain ⟨m, -, -, hmap⟩ := htr e he
    rw [hmap]
    exact inv.nodup_referrerSubtree m.digest
  · refine (pairwise_map.mp (hv.nodup_selected verdicts now)).imp_of_mem ?_
    intro e e' he he' hne x hx hx'
    obtain ⟨m, hm, hdg, hmap⟩ := htr e he
    obtain ⟨m', hm', hdg', hmap'⟩ := htr e' he'
    replace hx : x ∈ inv.referrerSubtree m.digest := hmap ▸ hx
    replace hx' : x ∈ inv.referrerSubtree m'.digest := hmap' ▸ hx'
    refine hne (hdg.trans (.trans ?_ hdg'.symm))
    exact root_unique hv.attached_unique (hv.mem_referrerSubtree.mp hx).2
      (hv.mem_referrerSubtree.mp hx').2 (hv.of_mem_selectable hm).2.2
      (hv.of_mem_selectable hm').2.2

theorem Inventory.Valid.nodup_accounted :
    ((buildPlan inv verdicts now).selected.map Entry.digest ++
      ((buildPlan inv verdicts now).cascaded.map Referrer.digest ++
        (buildPlan inv verdicts now).blocked.map BlockedEntry.digest)).Nodup := by
  have hsl : ∀ d ∈ (buildPlan inv verdicts now).selected.map Entry.digest,
      ∃ m ∈ inv.selectable, (entryFor inv m (verdicts m.digest)).isSome ∧ m.digest = d := by
    intro d hd
    obtain ⟨e, he, rfl⟩ := mem_map.mp hd
    obtain ⟨m, hm, hen⟩ := mem_selected_buildPlan.mp he
    exact ⟨m, hm, hen ▸ rfl, (entryFor_eq_some hen).1.symm⟩
  have hbl : ∀ d ∈ (buildPlan inv verdicts now).blocked.map BlockedEntry.digest,
      ∃ m ∈ inv.selectable, entryFor inv m (verdicts m.digest) = none ∧ m.digest = d := by
    intro d hd
    obtain ⟨b, hb, rfl⟩ := mem_map.mp hd
    rw [buildPlan_eq] at hb
    obtain ⟨m, hm, hen⟩ := mem_filterMap.mp hb
    exact ⟨m, hm, (blockedFor_eq_some hen).2, (blockedFor_eq_some hen).1.symm⟩
  refine (hv.nodup_selected verdicts now).append
    ((hv.nodup_cascaded verdicts now).append (hv.nodup_blocked verdicts now) ?_) ?_
  · intro d hd hd'
    obtain ⟨-, -, -, a, ha⟩ := hv.mem_cascaded verdicts now hd
    obtain ⟨m, hm, -, rfl⟩ := hbl d hd'
    exact (hv.of_mem_selectable hm).2.2 a ha
  · intro d hd hd'
    obtain ⟨m, hm, hsm, rfl⟩ := hsl d hd
    rcases mem_append.mp hd' with hd' | hd'
    · obtain ⟨-, -, -, a, ha⟩ := hv.mem_cascaded verdicts now hd'
      exact (hv.of_mem_selectable hm).2.2 a ha
    · obtain ⟨m', hm', hnn, hdg⟩ := hbl _ hd'
      obtain rfl := hv.eq_of_digest (hv.of_mem_selectable hm').1 (hv.of_mem_selectable hm).1 hdg
      rw [hnn] at hsm
      cases hsm

theorem Inventory.Valid.perm_buildPlan :
    ((buildPlan inv verdicts now).selected.map Entry.digest ++
      ((buildPlan inv verdicts now).cascaded.map Referrer.digest ++
        ((buildPlan inv verdicts now).blocked.map BlockedEntry.digest ++
          (buildPlan inv verdicts now).kept.map KeptEntry.digest))).Perm
      (inv.manifests.map Manifest.digest) := by
  have hnd := hv.nodup_accounted verdicts now
  set accounted := (buildPlan inv verdicts now).selected.map Entry.digest ++
    ((buildPlan inv verdicts now).cascaded.map Referrer.digest ++
      (buildPlan inv verdicts now).blocked.map BlockedEntry.digest) with hac
  have hkp : (buildPlan inv verdicts now).kept.map KeptEntry.digest =
      (inv.manifests.map Manifest.digest).filter (· ∉ accounted) := by
    rw [hac, buildPlan_eq, List.filter_map, List.map_map]
    refine List.map_congr_left fun m _ => ?_
    exact keptEntry_digest inv m _
  have hsb : ∀ d ∈ accounted, d ∈ inv.manifests.map Manifest.digest := by
    intro d hd
    rcases mem_append.mp hd with hd | hd
    · obtain ⟨m, hm, rfl⟩ := hv.live_of_mem_digests verdicts now (mem_digests_iff.mpr (.inl hd))
      exact mem_map_of_mem hm
    · rcases mem_append.mp hd with hd | hd
      · obtain ⟨m, hm, rfl⟩ := hv.live_of_mem_digests verdicts now (mem_digests_iff.mpr (.inr hd))
        exact mem_map_of_mem hm
      · obtain ⟨b, hb, rfl⟩ := mem_map.mp hd
        rw [buildPlan_eq] at hb
        obtain ⟨m, hm, hen⟩ := mem_filterMap.mp hb
        rw [(blockedFor_eq_some hen).1]
        exact mem_map_of_mem (hv.of_mem_selectable hm).1
  have hfl : accounted.Perm ((inv.manifests.map Manifest.digest).filter (· ∈ accounted)) := by
    refine (perm_ext_iff_of_nodup hnd (hv.nodup_digests.filter _)).mpr fun d => ?_
    rw [mem_filter, decide_eq_true_eq]
    exact ⟨fun hd => ⟨hsb d hd, hd⟩, fun hd => hd.2⟩
  rw [hkp, ← append_assoc, ← append_assoc, append_assoc _ _ (List.map _ _)]
  refine (hfl.append_right _).trans ?_
  simpa using filter_append_perm (· ∈ accounted) (inv.manifests.map Manifest.digest)

end Partition

/-! ## The summary -/

/-- The bytes of everything it deletes. -/
def Plan.deletedBytes (p : Plan) : ℤ :=
  (p.selected.map fun e => e.size.toInt).sum + (p.cascaded.map fun r => r.size.toInt).sum

theorem foldl_add_ofInt {α : Type*} (f : α → Int64) (g : α → ℤ) (l : List α)
    (h : ∀ x ∈ l, f x = Int64.ofInt (g x)) (start : ℤ) :
    l.foldl (fun total x => total + f x) (Int64.ofInt start) =
      Int64.ofInt (start + (l.map g).sum) := by
  induction l generalizing start with
  | nil => simp
  | cons x l ih =>
    rw [foldl_cons, h x mem_cons_self, ← Int64.ofInt_add,
      ih (fun y hy => h y (mem_cons_of_mem x hy)), map_cons, sum_cons,
      Int.add_assoc]

theorem Entry.totalSize_eq (e : Entry) :
    e.totalSize = Int64.ofInt (e.size.toInt + (e.referrers.map fun r => r.size.toInt).sum) := by
  rw [← foldl_add_ofInt Referrer.size _ _ (fun r _ => (Int64.ofInt_toInt r.size).symm),
    Int64.ofInt_toInt]
  rfl

theorem summary_bytes (p : Plan) : p.summary.bytes = Int64.ofInt p.deletedBytes := by
  have hsum : ∀ l : List Entry,
      (l.map fun e => e.size.toInt + (e.referrers.map fun r => r.size.toInt).sum).sum =
        (l.map fun e => e.size.toInt).sum +
          ((l.flatMap Entry.referrers).map fun r => r.size.toInt).sum := by
    intro l
    induction l with
    | nil => rfl
    | cons e l ih =>
      rw [map_cons, sum_cons, ih, map_cons, sum_cons, flatMap_cons,
        map_append, sum_append]
      omega
  have hfl := foldl_add_ofInt Entry.totalSize _ p.selected (fun e _ => e.totalSize_eq) 0
  rw [Int.zero_add, hsum] at hfl
  exact hfl

theorem summary_cascaded (p : Plan) : p.summary.cascaded = p.cascaded.length := by
  have hfl : ∀ (l : List Entry) (start : ℕ),
      l.foldl (fun n e => n + e.referrers.length) start =
        start + (l.flatMap Entry.referrers).length := by
    intro l
    induction l with
    | nil => simp
    | cons e l ih =>
      intro start
      rw [foldl_cons, ih, flatMap_cons, length_append, Nat.add_assoc]
  exact (hfl p.selected 0).trans (Nat.zero_add _)

theorem sum_countP_reason (l : List KeptEntry) :
    l.countP (·.reason = .byRule) + l.countP (·.reason = .noRuleApplies) +
      l.countP (·.reason = .notSelectable) = l.length := by
  induction l with
  | nil => rfl
  | cons k l ih =>
    cases hk : k.reason <;> simp [hk] <;> omega

theorem sum_filterMap_counts (count : KeptReason → ℕ) (reasons : List KeptReason) :
    ((reasons.filterMap fun r => if count r > 0 then some (r, count r) else none).map
      Prod.snd).sum = (reasons.map count).sum := by
  induction reasons with
  | nil => rfl
  | cons r reasons ih =>
    by_cases hr : count r > 0
    · simp [hr, ih]
    · simp [Nat.eq_zero_of_not_pos hr, ih]

theorem summary_keptBecause (p : Plan) :
    (p.summary.keptBecause.map Prod.snd).sum = p.kept.length ∧
      ∀ r ∈ p.summary.keptBecause, r.2 = p.kept.countP (·.reason = r.1) := by
  constructor
  · rw [← sum_countP_reason p.kept, Plan.summary, sum_filterMap_counts]
    simp [Nat.add_assoc]
  · intro r hr
    obtain ⟨reason, -, h⟩ := mem_filterMap.mp hr
    split_ifs at h
    rw [← Option.some.inj h]

theorem Inventory.Valid.deletedBytes_nonneg (hv : inv.Valid)
    (hsz : ∀ m ∈ inv.manifests, 0 ≤ m.size.toInt) (verdicts : Digest → Verdict) (now : Time) :
    0 ≤ (buildPlan inv verdicts now).deletedBytes := by
  refine Int.add_nonneg (sum_nonneg fun n hn => ?_) (sum_nonneg fun n hn => ?_)
  · obtain ⟨e, he, rfl⟩ := mem_map.mp hn
    obtain ⟨m, hm, hen⟩ := mem_selected_buildPlan.mp he
    rw [(entryFor_eq_some hen).2.1]
    exact hsz m (hv.of_mem_selectable hm).1
  · obtain ⟨r, hr, rfl⟩ := mem_map.mp hn
    obtain ⟨e, he, hr⟩ := mem_flatMap.mp hr
    obtain ⟨m, hm, hen⟩ := mem_selected_buildPlan.mp he
    rw [(entryFor_eq_some hen).2.2.1] at hr
    obtain ⟨d, -, rfl⟩ := mem_map.mp hr
    unfold referrerEntry
    cases hlk : inv.byDigest d with
    | none => exact (by decide : (0 : ℤ) ≤ (0 : Int64).toInt)
    | some x => exact hsz x ((hv.lookup d x).mp hlk).1

/-- **Partition.** Every manifest of the snapshot is in exactly one of the four lists and once
there, and nothing else is. The summary counts the lists, its manifests are the snapshot's, and its
bytes are the `int64` total of what is deleted, exact below `2 ^ 63`. -/
theorem plan_partition {repository : String} {snapshot : List Manifest} {inv : Inventory}
    {set : List CompiledRule} {now : Time} {plan : Plan}
    (hinv : newInventory repository snapshot = .ok inv)
    (hplan : evaluate (some inv) set now = .ok plan) :
    (snapshot.map Manifest.digest).Nodup ∧
    (plan.selected.map Entry.digest ++ (plan.cascaded.map Referrer.digest ++
      (plan.blocked.map BlockedEntry.digest ++ plan.kept.map KeptEntry.digest))).Perm
      (snapshot.map Manifest.digest) ∧
    plan.summary.selected = plan.selected.length ∧
    plan.summary.cascaded = plan.cascaded.length ∧
    plan.summary.blocked = plan.blocked.length ∧
    plan.summary.kept = plan.kept.length ∧
    plan.summary.manifests = snapshot.length ∧
    plan.summary.bytes = Int64.ofInt plan.deletedBytes ∧
    (plan.deletedBytes < 2 ^ 63 → plan.summary.bytes.toInt = plan.deletedBytes) ∧
    (plan.summary.keptBecause.map Prod.snd).sum = plan.kept.length ∧
    ∀ r ∈ plan.summary.keptBecause, r.2 = plan.kept.countP (·.reason = r.1) := by
  have hv := valid_of_newInventory hinv
  obtain ⟨-, hacc, -⟩ := newInventory_eq_ok.mp hinv
  obtain ⟨-, -, rfl⟩ := (evaluate_eq_ok hv).mp hplan
  have hpr := (hv.perm_buildPlan (verdictsOn inv set now) now).trans (map_digest_perm hinv)
  have hsz : ∀ m ∈ inv.manifests, 0 ≤ m.size.toInt := by
    intro m hm
    obtain ⟨m', hm', rfl⟩ := mem_map.mp ((perm_of_newInventory hinv).mem_iff.mp hm)
    have := (hacc.wellFormed m' hm').size
    rw [Int64.lt_iff_toInt_lt] at this
    exact not_lt.mp this
  have hkp := summary_keptBecause (buildPlan inv (verdictsOn inv set now) now)
  refine ⟨hacc.digests, hpr, rfl, summary_cascaded _, rfl, rfl, ?_, summary_bytes _,
    fun hlt => ?_, hkp.1, hkp.2⟩
  · have hlen := hpr.length_eq
    simp only [length_append, length_map] at hlen
    rw [← hlen, ← summary_cascaded]
    simp only [Plan.summary]
    omega
  · rw [summary_bytes]
    have hnn := hv.deletedBytes_nonneg hsz (verdictsOn inv set now) now
    exact Int64.toInt_ofInt_of_le (by omega) (by omega)

theorem plan_partition_reap : ∃ inv plan, newInventory "r" sampleSnapshot = .ok inv ∧
    evaluate (some inv) [reapUntagged "reap" 1] 10 = .ok plan ∧
      plan.summary.bytes = 30 ∧ plan.deletedBytes = 30 ∧
        plan.summary.manifests = sampleSnapshot.length := by
  have hrun : ∃ inv ∈ (newInventory "r" sampleSnapshot).toOption,
      ∃ plan ∈ (evaluate (some inv) [reapUntagged "reap" 1] 10).toOption,
        plan.summary.bytes = 30 ∧ plan.deletedBytes = 30 := by decide
  obtain ⟨inv, hinv, plan, hpl, hby, hdl⟩ := hrun
  rw [mem_toOption] at hinv hpl
  obtain ⟨-, -, -, -, -, -, hmn, -⟩ := plan_partition hinv hpl
  exact ⟨inv, plan, hinv, hpl, hby, hdl, hmn⟩

end Trove.Policy
