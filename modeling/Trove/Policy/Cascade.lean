import Trove.Policy.Evaluation

/-!
# What a plan deletes

The manifests of an inventory form a forest under the attachment of a referrer to its subject, and
the selectable manifests are roots of it. A plan deletes whole trees of that forest, and only trees
no member of which is protected or listed by an index.
-/

namespace Trove.Policy

open Lib Relation List
open Meta (Time)

/-! ## The forest of attachments -/

/-- `b` is attached to `a`. -/
def Inventory.Attached (inv : Inventory) (a b : Digest) : Prop := b ∈ inv.referrers a

structure Inventory.Unprotected (inv : Inventory) (m : Manifest) : Prop where
  tags : ∀ t ∈ m.tags, t.isProtected = false ∧ t.isImmutable = false
  parents : inv.indexParents m.digest = []

section Forest

variable {inv : Inventory} (hv : inv.Valid)
include hv

theorem Inventory.Valid.attached_iff {a b : Digest} :
    inv.Attached a b ↔
      (inv.byDigest a).isSome ∧ ∃ m ∈ inv.manifests, m.subject = a ∧ m.digest = b :=
  hv.mem_referrers a b

theorem Inventory.Valid.attached_unique (a b c : Digest) (ha : inv.Attached a c)
    (hb : inv.Attached b c) : a = b := by
  obtain ⟨-, m, hm, rfl, hdg⟩ := hv.attached_iff.mp ha
  obtain ⟨-, m', hm', rfl, hdg'⟩ := hv.attached_iff.mp hb
  rw [hv.eq_of_digest hm hm' (hdg.trans hdg'.symm)]

/-- **Cascade.** The subtree of a digest is what attaches to it, transitively. -/
theorem Inventory.Valid.mem_referrerSubtree {d x : Digest} :
    x ∈ inv.referrerSubtree d ↔ x ≠ d ∧ ReflTransGen inv.Attached d x := by
  rw [Inventory.referrerSubtree, mem_sortBy]
  refine mem_reach hv.nodup_digests (fun a b hb => ?_) (by simp)
  obtain ⟨-, m, hm, -, rfl⟩ := (hv.mem_referrers a b).mp hb
  exact mem_map_of_mem hm

omit hv in
theorem Inventory.nodup_referrerSubtree (d : Digest) : (inv.referrerSubtree d).Nodup :=
  (perm_sortBy _).nodup_iff.mpr (nodup_cons.mp (nodup_reach _ _ d)).2

theorem Inventory.Valid.live_of_attached {d x : Digest} (hd : d ∈ inv.manifests.map Manifest.digest)
    (h : ReflTransGen inv.Attached d x) : x ∈ inv.manifests.map Manifest.digest := by
  rcases ReflTransGen.cases_tail h with rfl | ⟨y, -, hyx⟩
  · exact hd
  · obtain ⟨-, m, hm, -, rfl⟩ := hv.attached_iff.mp hyx
    exact mem_map_of_mem hm

end Forest

/-! ## Protection -/

variable {inv : Inventory} {m : Manifest}

theorem unprotected_iff :
    inv.Unprotected m ↔
      ∀ x ∈ exclusionReasons inv.byDigest inv.indexParents m, x.reason = .liveSubject := by
  constructor
  · rintro ⟨htg, hpr⟩ x hx
    simp only [exclusionReasons, mem_append, mem_flatMap] at hx
    rcases hx with (⟨t, ht, hx⟩ | hx) | hx
    · simp [htg t ht] at hx
    · simp [hpr] at hx
    · split_ifs at hx
      · rw [mem_singleton.mp hx]
      · cases hx
  · intro h
    refine ⟨fun t ht => ⟨?_, ?_⟩, ?_⟩
    · by_contra hpt
      have hx : (⟨m.digest, .protectedTag, t.name⟩ : Exclusion) ∈
          exclusionReasons inv.byDigest inv.indexParents m := by
        simp only [exclusionReasons, mem_append, mem_flatMap]
        exact .inl (.inl ⟨t, ht, .inl (by simp [hpt])⟩)
      cases h _ hx
    · by_contra himm
      have hx : (⟨m.digest, .immutableTag, t.name⟩ : Exclusion) ∈
          exclusionReasons inv.byDigest inv.indexParents m := by
        simp only [exclusionReasons, mem_append, mem_flatMap]
        exact .inl (.inl ⟨t, ht, .inr (by simp [himm])⟩)
      cases h _ hx
    · by_contra hne
      have hx : (⟨m.digest, .indexChild, ", ".intercalate (inv.indexParents m.digest)⟩ :
          Exclusion) ∈ exclusionReasons inv.byDigest inv.indexParents m := by
        simp only [exclusionReasons, mem_append]
        exact .inl (.inr (by simp [length_pos_iff, hne]))
      cases h _ hx

theorem firstProtectedReferrer_eq_none {subtree : List Digest} :
    firstProtectedReferrer inv subtree = none ↔
      ∀ d ∈ subtree, ∀ x ∈ inv.excludedBy d, x.reason = .liveSubject := by
  induction subtree with
  | nil => simp [firstProtectedReferrer]
  | cons d subtree ih =>
    rw [firstProtectedReferrer, forall_mem_cons]
    cases hfn : (inv.excludedBy d).find? (·.reason ≠ .liveSubject) with
    | none =>
      have hall : ∀ x ∈ inv.excludedBy d, x.reason = .liveSubject := by
        simpa using hfn
      exact ih.trans ⟨fun h => ⟨hall, h⟩, fun h => h.2⟩
    | some x =>
      have hx := List.find?_some hfn
      refine ⟨fun h => (by cases h), fun h => ?_⟩
      exact absurd (h.1 x (mem_of_find?_eq_some hfn)) (by simpa using hx)

section Selectable

variable {inv : Inventory} (hv : inv.Valid)
include hv

theorem Inventory.Valid.of_mem_selectable {m : Manifest} (hm : m ∈ inv.selectable) :
    m ∈ inv.manifests ∧ inv.Unprotected m ∧ ∀ a, ¬ inv.Attached a m.digest := by
  rw [hv.selectable, mem_filter, decide_eq_true_eq, length_eq_zero_iff] at hm
  obtain ⟨hmem, hnil⟩ := hm
  refine ⟨hmem, unprotected_iff.mpr (by simp [hnil]), fun a hatt => ?_⟩
  obtain ⟨hlv, m', hm', rfl, hdg⟩ := hv.attached_iff.mp hatt
  obtain rfl := hv.eq_of_digest hm' hmem hdg
  obtain ⟨s, hs⟩ := Option.isSome_iff_exists.mp hlv
  obtain ⟨hsm, hsd⟩ := (hv.lookup _ s).mp hs
  have hne : m'.subject ≠ "" := hsd ▸ hv.named s hsm
  simp [exclusionReasons, hne, hlv] at hnil

end Selectable

/-! ## Deleted trees -/

variable {e : Entry} {decided : Verdict}

theorem entryFor_eq_some (h : entryFor inv m decided = some e) :
    e.digest = m.digest ∧ e.size = m.size ∧
      e.referrers = (inv.referrerSubtree m.digest).map (referrerEntry inv) ∧
        firstProtectedReferrer inv (inv.referrerSubtree m.digest) = none := by
  unfold entryFor at h
  split_ifs at h
  cases hfr : firstProtectedReferrer inv (inv.referrerSubtree m.digest) with
  | some pin => simp [hfr] at h
  | none =>
    simp only [hfr, Option.some.injEq] at h
    subst h
    exact ⟨rfl, rfl, rfl, rfl⟩

theorem blockedFor_eq_some {b : BlockedEntry} (h : blockedFor inv m decided = some b) :
    b.digest = m.digest ∧ entryFor inv m decided = none := by
  unfold blockedFor at h
  unfold entryFor
  split_ifs at h ⊢
  cases hfr : firstProtectedReferrer inv (inv.referrerSubtree m.digest) with
  | none => simp [hfr] at h
  | some pin =>
    simp only [hfr, Option.some.injEq] at h
    subst h
    exact ⟨rfl, rfl⟩

theorem keptEntry_digest (inv : Inventory) (m : Manifest) (decided : Verdict) :
    (keptEntry inv m decided).digest = m.digest := by
  unfold keptEntry
  split_ifs <;> rfl

theorem Entry.map_digest_referrers
    (h : e.referrers = (inv.referrerSubtree m.digest).map (referrerEntry inv)) :
    e.referrers.map Referrer.digest = inv.referrerSubtree m.digest := by
  rw [h, List.map_map]
  exact List.map_id _

theorem mem_digests_iff {p : Plan} {d : Digest} :
    d ∈ p.digests ↔
      d ∈ p.selected.map Entry.digest ∨ d ∈ p.cascaded.map Referrer.digest := by
  simp only [Plan.digests, Plan.cascaded, mem_sortBy, mem_flatMap, mem_cons,
    mem_map]
  constructor
  · rintro ⟨e, he, rfl | ⟨r, hr, rfl⟩⟩
    · exact .inl ⟨e, he, rfl⟩
    · exact .inr ⟨r, ⟨e, he, hr⟩, rfl⟩
  · rintro (⟨e, he, rfl⟩ | ⟨r, ⟨e, he, hr⟩, rfl⟩)
    · exact ⟨e, he, .inl rfl⟩
    · exact ⟨e, he, .inr ⟨r, hr, rfl⟩⟩

section Deleted

variable {inv : Inventory} (hv : inv.Valid) (verdicts : Digest → Verdict) (now : Time)

omit hv in
theorem mem_selected_buildPlan {inv : Inventory} {verdicts : Digest → Verdict} {now : Time}
    {e : Entry} :
    e ∈ (buildPlan inv verdicts now).selected ↔
      ∃ m ∈ inv.selectable, entryFor inv m (verdicts m.digest) = some e := by
  rw [buildPlan_eq]
  exact mem_filterMap

include hv

variable {d : Digest}

theorem Inventory.Valid.mem_digests :
    d ∈ (buildPlan inv verdicts now).digests ↔
      ∃ m ∈ inv.selectable, (entryFor inv m (verdicts m.digest)).isSome ∧
        ReflTransGen inv.Attached m.digest d := by
  simp only [Plan.digests, mem_sortBy, mem_flatMap, mem_selected_buildPlan]
  constructor
  · rintro ⟨e, ⟨m, hm, he⟩, hd⟩
    obtain ⟨hdg, -, href, -⟩ := entryFor_eq_some he
    rw [Entry.map_digest_referrers href, hdg, mem_cons, hv.mem_referrerSubtree] at hd
    refine ⟨m, hm, he ▸ rfl, ?_⟩
    rcases hd with rfl | ⟨-, hrc⟩
    · exact .refl
    · exact hrc
  · rintro ⟨m, hm, hsm, hrc⟩
    obtain ⟨e, he⟩ := Option.isSome_iff_exists.mp hsm
    obtain ⟨hdg, -, href, -⟩ := entryFor_eq_some he
    refine ⟨e, ⟨m, hm, he⟩, ?_⟩
    rw [Entry.map_digest_referrers href, hdg, mem_cons, hv.mem_referrerSubtree]
    by_cases hd : d = m.digest
    · exact .inl hd
    · exact .inr ⟨hd, hrc⟩

theorem Inventory.Valid.mem_cascaded
    (hd : d ∈ (buildPlan inv verdicts now).cascaded.map Referrer.digest) :
    ∃ m ∈ inv.selectable, ReflTransGen inv.Attached m.digest d ∧ ∃ a, inv.Attached a d := by
  obtain ⟨r, hr, rfl⟩ := mem_map.mp hd
  obtain ⟨e, he, hr⟩ := mem_flatMap.mp hr
  obtain ⟨m, hm, hen⟩ := mem_selected_buildPlan.mp he
  obtain ⟨-, -, href, -⟩ := entryFor_eq_some hen
  have hsub : r.digest ∈ inv.referrerSubtree m.digest :=
    Entry.map_digest_referrers href ▸ mem_map_of_mem hr
  obtain ⟨hne, hrc⟩ := hv.mem_referrerSubtree.mp hsub
  refine ⟨m, hm, hrc, ?_⟩
  rcases ReflTransGen.cases_tail hrc with heq | ⟨a, -, ha⟩
  · exact absurd heq hne
  · exact ⟨a, ha⟩

theorem Inventory.Valid.live_of_mem_digests (hd : d ∈ (buildPlan inv verdicts now).digests) :
    ∃ m ∈ inv.manifests, m.digest = d := by
  obtain ⟨m, hm, -, hrc⟩ := (hv.mem_digests verdicts now).mp hd
  have hlv := hv.live_of_attached
    (mem_map_of_mem (hv.of_mem_selectable hm).1) hrc
  exact mem_map.mp hlv

theorem Inventory.Valid.unprotected_of_mem_digests {m : Manifest} (hm : m ∈ inv.manifests)
    (hd : m.digest ∈ (buildPlan inv verdicts now).digests) : inv.Unprotected m := by
  obtain ⟨root, hrt, hsm, hrc⟩ := (hv.mem_digests verdicts now).mp hd
  obtain ⟨hrm, hrk, -⟩ := hv.of_mem_selectable hrt
  by_cases heq : m.digest = root.digest
  · exact hv.eq_of_digest hm hrm heq ▸ hrk
  · obtain ⟨e, he⟩ := Option.isSome_iff_exists.mp hsm
    obtain ⟨-, -, -, hnn⟩ := entryFor_eq_some he
    have hall := firstProtectedReferrer_eq_none.mp hnn m.digest
      (hv.mem_referrerSubtree.mpr ⟨heq, hrc⟩)
    rw [hv.excludedBy m hm] at hall
    exact unprotected_iff.mpr hall

theorem Inventory.Valid.mem_digests_of_attached {a b : Digest} (hab : inv.Attached a b)
    (ha : a ∈ (buildPlan inv verdicts now).digests) :
    b ∈ (buildPlan inv verdicts now).digests := by
  obtain ⟨root, hrt, hsm, hrc⟩ := (hv.mem_digests verdicts now).mp ha
  exact (hv.mem_digests verdicts now).mpr ⟨root, hrt, hsm, hrc.tail hab⟩

theorem Inventory.Valid.subject_mem_digests {a b : Digest} (hab : inv.Attached a b)
    (hb : b ∈ (buildPlan inv verdicts now).digests) :
    a ∈ (buildPlan inv verdicts now).digests := by
  obtain ⟨root, hrt, hsm, hrc⟩ := (hv.mem_digests verdicts now).mp hb
  rcases parent_below hv.attached_unique hrc hab with rfl | ha
  · exact absurd hab ((hv.of_mem_selectable hrt).2.2 a)
  · exact (hv.mem_digests verdicts now).mpr ⟨root, hrt, hsm, ha⟩

end Deleted

end Trove.Policy
