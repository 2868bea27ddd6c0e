import Trove.Policy.Verdict

/-!
# Order of the input

The order a snapshot's rows or a policy's rules are listed in changes nothing. Each sort of the
source is by a key that tells apart whatever can reach it, so sorting forgets the order; each map it
builds has the same entries.
-/

namespace Trove.Policy

open Lib List
open Meta (Time)

/-! ## Snapshots -/

/-- The same row, with its tags and children listed in another order. -/
structure Manifest.Reordered (m m' : Manifest) : Prop where
  tags : m.tags.Perm m'.tags
  children : m.children.Perm m'.children
  rest : { m with tags := m'.tags, children := m'.children } = m'

/-- The same rows in another order, each with its tags and children in another order. -/
def Reordered (snapshot snapshot' : List Manifest) : Prop :=
  ∃ middle, snapshot.Perm middle ∧ List.Forall₂ Manifest.Reordered middle snapshot'

variable {m m' : Manifest} {snapshot snapshot' : List Manifest} {set set' : List CompiledRule}

theorem Manifest.Reordered.symm (h : m.Reordered m') : m'.Reordered m where
  tags := h.tags.symm
  children := h.children.symm
  rest := by rw [← h.rest]

theorem Reordered.symm (h : Reordered snapshot snapshot') : Reordered snapshot' snapshot := by
  obtain ⟨middle, hpr, hrw⟩ := h
  obtain ⟨middle', hrw', hpr'⟩ := perm_comp_forall₂ hpr hrw
  exact ⟨middle', hpr'.symm, hrw'.flip.imp fun _ _ h => h.symm⟩

theorem Manifest.Reordered.digest_eq (h : m.Reordered m') : m.digest = m'.digest := by
  rw [← h.rest]

theorem Manifest.Reordered.wellFormed (h : m.Reordered m') (hm : m.WellFormed) : m'.WellFormed := by
  have htg : ∀ t ∈ m'.tags, t.name ≠ "" := fun t ht => hm.tags t (h.tags.mem_iff.mpr ht)
  have hch : ∀ c ∈ m'.children, c ≠ "" ∧ c ≠ m.digest := fun c hc =>
    hm.children c (h.children.mem_iff.mpr hc)
  rw [← h.rest]
  exact ⟨hm.digest, hm.pushedAt, hm.size, hm.pullCount, hm.subject, htg, hch⟩

theorem Manifest.Reordered.clone_eq (h : m.Reordered m') (hnd : (m.tags.map Tag.name).Nodup) :
    m.clone = m'.clone := by
  have htg : sortBy Tag.name m.tags = sortBy Tag.name m'.tags := sortBy_eq_of_perm hnd h.tags
  have hch : sortBy id m.children = sortBy id m'.children :=
    sortBy_eq_of_perm_of_injective Function.injective_id h.children
  unfold Manifest.clone
  rw [htg, hch, ← h.rest]

theorem Accepted.perm (h : Accepted snapshot) (hpr : snapshot.Perm snapshot') :
    Accepted snapshot' where
  wellFormed m hm := h.wellFormed m (hpr.mem_iff.mpr hm)
  digests := (hpr.map _).nodup_iff.mp h.digests
  tags := (hpr.flatMap fun _ _ => .refl _).nodup_iff.mp h.tags

theorem Accepted.rows (h : Accepted snapshot)
    (hrw : List.Forall₂ Manifest.Reordered snapshot snapshot') : Accepted snapshot' := by
  have hnm : (snapshot.flatMap fun m => m.tags.map Tag.name).Perm
      (snapshot'.flatMap fun m => m.tags.map Tag.name) := by
    clear h
    induction hrw with
    | nil => exact .refl _
    | cons hrow _ ih => exact (hrow.tags.map _).append ih
  have hdg : snapshot.map Manifest.digest = snapshot'.map Manifest.digest := by
    clear h hnm
    induction hrw with
    | nil => rfl
    | cons hrow _ ih => rw [map_cons, map_cons, ih, hrow.digest_eq]
  have hwf := h.wellFormed
  refine ⟨?_, hdg ▸ h.digests, hnm.nodup_iff.mp h.tags⟩
  clear h hnm hdg
  induction hrw with
  | nil => simp
  | cons hrow _ ih =>
    rw [forall_mem_cons] at hwf ⊢
    exact ⟨hrow.wellFormed hwf.1, ih hwf.2⟩

theorem Accepted.nodup_tags (h : Accepted snapshot) (hm : m ∈ snapshot) :
    (m.tags.map Tag.name).Nodup :=
  (nodup_flatMap.mp h.tags).1 m hm

theorem Reordered.accepted (h : Reordered snapshot snapshot') (hacc : Accepted snapshot) :
    Accepted snapshot' := by
  obtain ⟨middle, hpr, hrw⟩ := h
  exact (hacc.perm hpr).rows hrw

theorem Reordered.perm_clone (h : Reordered snapshot snapshot') (hacc : Accepted snapshot) :
    (snapshot.map Manifest.clone).Perm (snapshot'.map Manifest.clone) := by
  obtain ⟨middle, hpr, hrw⟩ := h
  have hmd := hacc.perm hpr
  have heq : ∀ {l l' : List Manifest}, (∀ m ∈ l, (m.tags.map Tag.name).Nodup) →
      List.Forall₂ Manifest.Reordered l l' → l.map Manifest.clone = l'.map Manifest.clone := by
    intro l l' hnd hrw
    induction hrw with
    | nil => rfl
    | cons hrow _ ih =>
      rw [forall_mem_cons] at hnd
      rw [map_cons, map_cons, ih hnd.2, hrow.clone_eq hnd.1]
  rw [← heq (fun m hm => hmd.nodup_tags hm) hrw]
  exact hpr.map _

/-- **Inventories** do not depend on the order of the snapshot. -/
theorem Reordered.newInventory_eq (h : Reordered snapshot snapshot') {repository : String}
    {inv : Inventory} (hinv : newInventory repository snapshot = .ok inv) :
    newInventory repository snapshot' = .ok inv := by
  obtain ⟨hrp, hacc, hcy, rfl⟩ := newInventory_eq_ok.mp hinv
  have hacc' := h.accepted hacc
  have hpr := h.perm_clone hacc
  have hdg : ((snapshot.map Manifest.clone).map Manifest.digest).Nodup := by
    rw [map_map]
    exact hacc.digests
  have hsr := sortBy_eq_of_perm hdg hpr
  have hby : (snapshot.foldl Loading.add {}).byDigest =
      (snapshot'.foldl Loading.add {}).byDigest := by
    funext d
    refine Option.ext fun m => ?_
    rw [byDigest_foldl_add hacc.digests, byDigest_foldl_add hacc'.digests, hpr.mem_iff]
    simp
  refine newInventory_eq_ok.mpr ⟨hrp, hacc', ?_⟩
  rw [← hsr, ← hby]
  exact ⟨hcy, rfl⟩

/-! ## Rules -/

section Rules

variable {quote : String → String} {compile : String → Except String (String → Bool)}

variable {rules : List Rule} {set : List CompiledRule}

theorem compileRulesFrom_eq_ok {position : ℕ} {names : List String} :
    compileRulesFrom quote compile position names rules = .ok set ↔
      (∀ r ∈ rules, r.name ≠ "" ∧ r.name ∉ names) ∧ (rules.map Rule.name).Nodup ∧
        List.Forall₂ (fun r c => compileRule quote compile r = .ok c) rules set := by
  induction rules generalizing position names set with
  | nil =>
    rw [compileRulesFrom, List.forall₂_nil_left_iff]
    refine ⟨fun h => ⟨by simp, by simp, (Except.ok.inj h).symm⟩, fun h => ?_⟩
    rw [h.2.2]
  | cons rule rules ih =>
    rw [compileRulesFrom, forall_mem_cons, map_cons, nodup_cons]
    by_cases hem : rule.name = ""
    · simp [hem]
    by_cases hus : rule.name ∈ names
    · simp [hem, hus]
    rw [if_neg hem, if_neg hus, bind_eq_ok]
    constructor
    · rintro ⟨c, hc, h⟩
      obtain ⟨cs, hcs, h⟩ := bind_eq_ok.mp h
      obtain rfl := Except.ok.inj h
      obtain ⟨hnm, hnd, hrl⟩ := ih.mp hcs
      refine ⟨⟨⟨hem, hus⟩, fun r hr => ⟨(hnm r hr).1, fun hmem => ?_⟩⟩,
        ⟨fun hmem => ?_, hnd⟩, .cons hc hrl⟩
      · exact (hnm r hr).2 (mem_cons_of_mem _ hmem)
      · obtain ⟨r, hr, heq⟩ := mem_map.mp hmem
        exact (hnm r hr).2 (heq ▸ mem_cons_self)
    · rintro ⟨⟨-, hnm⟩, ⟨hnot, hnd⟩, hrl⟩
      obtain ⟨c, cs, hc, hcs, rfl⟩ := List.forall₂_cons_left_iff.mp hrl
      refine ⟨c, hc, bind_eq_ok.mpr ⟨cs, ih.mpr ⟨fun r hr => ⟨(hnm r hr).1, ?_⟩, hnd, hcs⟩,
        rfl⟩⟩
      rw [mem_cons, not_or]
      exact ⟨fun heq => hnot (mem_map.mpr ⟨r, hr, heq⟩), (hnm r hr).2⟩

theorem toRule_of_compileRule {rule : Rule} {c : CompiledRule}
    (h : compileRule quote compile rule = .ok c) : c.toRule = rule := by
  unfold compileRule at h
  split_ifs at h
  obtain ⟨-, -, h⟩ := bind_eq_ok.mp h
  obtain ⟨includes, -, h⟩ := bind_eq_ok.mp h
  obtain ⟨excludes, -, h⟩ := bind_eq_ok.mp h
  rw [← Except.ok.inj h]

theorem map_name_of_compileRules
    (h : List.Forall₂ (fun r c => compileRule quote compile r = .ok c) rules set) :
    set.map (·.name) = rules.map Rule.name := by
  induction h with
  | nil => rfl
  | cons hc _ ih => rw [map_cons, map_cons, ih, toRule_of_compileRule hc]

theorem nodup_names_of_compileRules (h : compileRules quote compile rules = .ok set) :
    (set.map (·.name)).Nodup := by
  obtain ⟨-, hnd, hrl⟩ := compileRulesFrom_eq_ok.mp h
  rw [map_name_of_compileRules hrl]
  exact hnd

/-- **Rule sets** are the same up to their order. -/
theorem compileRules_perm {rules' : List Rule} (hpr : rules.Perm rules')
    (h : compileRules quote compile rules = .ok set) :
    ∃ set', compileRules quote compile rules' = .ok set' ∧ set.Perm set' := by
  obtain ⟨hnm, hnd, hrl⟩ := compileRulesFrom_eq_ok.mp h
  obtain ⟨set', hrl', hset⟩ := perm_comp_forall₂ hpr.symm hrl
  refine ⟨set', compileRulesFrom_eq_ok.mpr ⟨fun r hr => ?_, ?_, hrl'⟩, hset.symm⟩
  · exact hnm r (hpr.mem_iff.mpr hr)
  · exact (hpr.map _).nodup_iff.mp hnd

end Rules

/-! ## Evaluations -/

theorem opinionsOn_perm (selectable : List Manifest) (hpr : set.Perm set') (now : Time)
    (m : Manifest) : (opinionsOn selectable set now m).Perm (opinionsOn selectable set' now m) :=
  (hpr.filter _).map _

theorem nodup_rule_opinionsOn (selectable : List Manifest) (hnd : (set.map (·.name)).Nodup)
    (now : Time) (m : Manifest) : ((opinionsOn selectable set now m).map Opinion.rule).Nodup := by
  unfold opinionsOn
  rw [map_map]
  exact hnd.sublist (filter_sublist.map _)

theorem resolve_opinionsOn_perm (selectable : List Manifest) (hpr : set.Perm set')
    (hnd : (set.map (·.name)).Nodup) (now : Time) (m : Manifest) :
    resolve m.digest (opinionsOn selectable set now m) =
      resolve m.digest (opinionsOn selectable set' now m) :=
  resolve_perm m.digest (opinionsOn_perm selectable hpr now m)
    (nodup_rule_opinionsOn selectable hnd now m)

theorem evaluate_congr {inv : Inventory} (hv : inv.Valid) {now : Time} (h : ∀ m ∈ inv.selectable,
      resolve m.digest (opinionsOn inv.selectable set now m) =
        resolve m.digest (opinionsOn inv.selectable set' now m)) :
    evaluate (some inv) set now = evaluate (some inv) set' now := by
  by_cases hnow : now = 0
  · simp [evaluate, hnow]
  have hcn : conflictsOn inv set now = conflictsOn inv set' now :=
    filterMap_congr fun m hm => by rw [conflictOn, conflictOn, h m hm]
  have hvr : ∀ m ∈ inv.selectable,
      verdictsOn inv set now m.digest = verdictsOn inv set' now m.digest := by
    intro m hm
    have hmem := hv.selectable_sublist.subset hm
    rw [hv.verdictsOn_of_mem set now hmem, hv.verdictsOn_of_mem set' now hmem, verdictOn, verdictOn,
      h m hm]
  rw [evaluate_eq hv set hnow, evaluate_eq hv set' hnow, hcn,
    buildPlan_congr hv hvr now]

/-- **Order independence.** Listing the manifests, their tags and children, and the rules in another
order changes neither what is accepted nor the plan or the conflict that is reported. -/
theorem evaluate_reordered (quote : String → String)
    (compile : String → Except String (String → Bool)) {snapshot snapshot' : List Manifest}
    {rules rules' : List Rule} (hsnapshot : Reordered snapshot snapshot')
    (hrules : rules.Perm rules') (repository : String) :
    (newInventory repository snapshot).isOk = (newInventory repository snapshot').isOk ∧
    (compileRules quote compile rules).isOk = (compileRules quote compile rules').isOk ∧
    ∀ inv inv' set set', newInventory repository snapshot = .ok inv →
      newInventory repository snapshot' = .ok inv' → compileRules quote compile rules = .ok set →
      compileRules quote compile rules' = .ok set' →
      ∀ now, evaluate (some inv) set now = evaluate (some inv') set' now := by
  refine ⟨isOk_congr (fun inv hinv => ?_) (fun inv hinv => ?_),
    isOk_congr (fun set hset => ?_) (fun set hset => ?_), ?_⟩
  · exact ⟨inv, hsnapshot.newInventory_eq hinv⟩
  · exact ⟨inv, hsnapshot.symm.newInventory_eq hinv⟩
  · exact (compileRules_perm hrules hset).imp fun _ h => h.1
  · exact (compileRules_perm hrules.symm hset).imp fun _ h => h.1
  · intro inv inv' set set' hinv hinv' hset hset' now
    obtain rfl := Except.ok.inj ((hsnapshot.newInventory_eq hinv).symm.trans hinv')
    obtain ⟨set'', hset'', hpr⟩ := compileRules_perm hrules hset
    obtain rfl := Except.ok.inj (hset''.symm.trans hset')
    exact evaluate_congr (valid_of_newInventory hinv) fun m _ =>
      resolve_opinionsOn_perm _ hpr (nodup_names_of_compileRules hset) now m

theorem evaluate_reordered_reverse :
    let compile : String → Except String (String → Bool) := fun _ => .ok fun _ => true
    let reap := (reapUntagged "reap" 1).toRule
    let recent := (keepRecent "recent" 2 5).toRule
    ∃ inv inv' set set', newInventory "r" sampleSnapshot = .ok inv ∧
      newInventory "r" sampleSnapshot.reverse = .ok inv' ∧
      compileRules id compile [reap, recent] = .ok set ∧
      compileRules id compile [recent, reap] = .ok set' ∧
      evaluate (some inv) set 10 = evaluate (some inv') set' 10 := by
  intro compile reap recent
  have hrw : Reordered sampleSnapshot sampleSnapshot.reverse :=
    ⟨_, (reverse_perm _).symm, List.forall₂_same.mpr fun m _ => ⟨.refl _, .refl _, rfl⟩⟩
  obtain ⟨hin, hcm, hev⟩ :=
    evaluate_reordered id compile hrw (List.Perm.swap recent reap []) "r"
  obtain ⟨inv, hinv⟩ := isOk_iff.mp (by decide : (newInventory "r" sampleSnapshot).isOk)
  obtain ⟨set, hset⟩ := isOk_iff.mp (by decide : (compileRules id compile [reap, recent]).isOk)
  obtain ⟨inv', hinv'⟩ := isOk_iff.mp (hin ▸ isOk_iff.mpr ⟨inv, hinv⟩)
  obtain ⟨set', hset'⟩ := isOk_iff.mp (hcm ▸ isOk_iff.mpr ⟨set, hset⟩)
  exact ⟨inv, inv', set, set', hinv, hinv', hset, hset',
    hev inv inv' set set' hinv hinv' hset hset' 10⟩

end Trove.Policy
