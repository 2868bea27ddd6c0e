import Trove.Policy.Order
import Trove.Policy.Cascade

/-!
# Precedence of rules

What a plan does with a selectable manifest, by the strongest of the rules that have an opinion on
it. Weaker rules are never heard.
-/

namespace Trove.Policy

open Lib List
open Meta (Time)

/-! ## The entries about one manifest -/

theorem entryFor_or_blockedFor (inv : Inventory) (m : Manifest) (decided : Verdict) :
    (entryFor inv m decided = none ∧ blockedFor inv m decided = none) ↔
      (!decided.applicable || decided.keep) = true := by
  unfold entryFor blockedFor
  by_cases h : (!decided.applicable || decided.keep) = true
  · simp only [h, if_true, and_self]
  · cases firstProtectedReferrer inv (inv.referrerSubtree m.digest) <;> simp [h]

/-- The plan's entries about one digest. -/
def Plan.about (p : Plan) (d : Digest) : List Entry × List BlockedEntry × List KeptEntry :=
  (p.selected.filter (·.digest = d), p.blocked.filter (·.digest = d),
    p.kept.filter (·.digest = d))

variable {m : Manifest} {now : Time} {o : Opinion} {selectable : List Manifest}
  {set : List CompiledRule}

theorem Inventory.Valid.about_buildPlan {inv : Inventory} (hv : inv.Valid)
    (verdicts : Digest → Verdict) (now : Time) (hm : m ∈ inv.selectable) :
    (buildPlan inv verdicts now).about m.digest =
      ((entryFor inv m (verdicts m.digest)).toList, (blockedFor inv m (verdicts m.digest)).toList,
        if !(verdicts m.digest).applicable || (verdicts m.digest).keep then
          [keptEntry inv m (verdicts m.digest)]
        else []) := by
  obtain ⟨hmem, -, hrt⟩ := hv.of_mem_selectable hm
  have hsl : (buildPlan inv verdicts now).selected.filter (·.digest = m.digest) =
      (entryFor inv m (verdicts m.digest)).toList := by
    rw [buildPlan_eq]
    exact filter_filterMap_key (fun m e h => (entryFor_eq_some h).1) hv.nodup_selectable hm
  have hbl : (buildPlan inv verdicts now).blocked.filter (·.digest = m.digest) =
      (blockedFor inv m (verdicts m.digest)).toList := by
    rw [buildPlan_eq]
    exact filter_filterMap_key (fun m b h => (blockedFor_eq_some h).1) hv.nodup_selectable hm
  -- a root of the forest is not cascaded, so only its own entry can account for it
  have hac : m.digest ∉ (buildPlan inv verdicts now).selected.map Entry.digest ++
      ((buildPlan inv verdicts now).cascaded.map Referrer.digest ++
        (buildPlan inv verdicts now).blocked.map BlockedEntry.digest) ↔
      (!(verdicts m.digest).applicable || (verdicts m.digest).keep) = true := by
    have hcs : m.digest ∉ (buildPlan inv verdicts now).cascaded.map Referrer.digest := by
      intro h
      obtain ⟨-, -, -, a, ha⟩ := hv.mem_cascaded verdicts now h
      exact hrt a ha
    have hnil : ∀ {β : Type} {key : β → Digest} {l : List β},
        m.digest ∉ l.map key ↔ l.filter (key · = m.digest) = [] := by
      intro β key l
      simp
    rw [← entryFor_or_blockedFor inv m, mem_append, mem_append, not_or, not_or,
      hnil, hsl, hnil, hnil, hbl, Option.toList_eq_nil_iff, Option.toList_eq_nil_iff]
    exact ⟨fun h => ⟨h.1, h.2.2⟩, fun h => ⟨h.1, hnil.mp hcs, h.2⟩⟩
  have hkp : (buildPlan inv verdicts now).kept.filter (·.digest = m.digest) =
      if !(verdicts m.digest).applicable || (verdicts m.digest).keep then
        [keptEntry inv m (verdicts m.digest)]
      else [] := by
    have hdg : ((fun k : KeptEntry => decide (k.digest = m.digest)) ∘ fun x =>
        keptEntry inv x (verdicts x.digest)) = fun x => decide (x.digest = m.digest) := by
      funext x
      simp only [Function.comp, keptEntry_digest]
    simp only [buildPlan_eq, Plan.cascaded] at hac ⊢
    rw [filter_map, hdg, filter_comm, filter_key_eq hv.nodup_digests hmem]
    by_cases hsp : (!(verdicts m.digest).applicable || (verdicts m.digest).keep) = true
    · rw [if_pos hsp, filter_cons_of_pos]
      · rfl
      · exact decide_eq_true (hac.mpr hsp)
    · rw [if_neg hsp, filter_cons_of_neg]
      · rfl
      · simpa only [decide_eq_true_eq] using fun h => hsp (hac.mp h)
  rw [Plan.about, hsl, hbl, hkp]

/-! ## The rules that decide -/

def CompiledRule.Decides (r : CompiledRule) (set : List CompiledRule) (m : Manifest) : Prop :=
  r ∈ set ∧ r.matches m ∧ ∀ q ∈ set, q.matches m → r.priority ≤ q.priority

theorem mem_opinionsOn :
    o ∈ opinionsOn selectable set now m ↔ ∃ r ∈ set, r.matches m ∧
      o = { rule := r.name, priority := r.priority, kind := r.kind,
            keep := r.saves selectable now m } := by
  simp only [opinionsOn, mem_map, mem_filter, and_assoc, eq_comm]

theorem strongest_iff :
    o.Strongest (opinionsOn selectable set now m) ↔ ∃ r : CompiledRule, r.Decides set m ∧
      o = { rule := r.name, priority := r.priority, kind := r.kind,
            keep := r.saves selectable now m } := by
  constructor
  · rintro ⟨hmem, hls⟩
    obtain ⟨r, hr, hmt, rfl⟩ := mem_opinionsOn.mp hmem
    refine ⟨r, ⟨hr, hmt, fun q hq hqm => ?_⟩, rfl⟩
    exact hls _ (mem_opinionsOn.mpr ⟨q, hq, hqm, rfl⟩)
  · rintro ⟨r, ⟨hr, hmt, hls⟩, rfl⟩
    refine ⟨mem_opinionsOn.mpr ⟨r, hr, hmt, rfl⟩, fun o' ho' => ?_⟩
    obtain ⟨q, hq, hqm, rfl⟩ := mem_opinionsOn.mp ho'
    exact hls q hq hqm

section Decided

variable {inv : Inventory} (hv : inv.Valid) {set : List CompiledRule} {now : Time}
include hv

theorem Inventory.Valid.evaluate_eq_conflict :
    (∃ cs, evaluate (some inv) set now = .error (.conflict cs)) ↔
      now ≠ 0 ∧ ∃ m ∈ inv.selectable, ∃ r r' : CompiledRule, r.Decides set m ∧ r'.Decides set m ∧
        r.saves inv.selectable now m ≠ r'.saves inv.selectable now m := by
  by_cases hnow : now = 0
  · simp [evaluate, hnow]
  have hcn : ∀ m, (conflictOn inv.selectable set now m).isSome ↔
      ∃ r r' : CompiledRule, r.Decides set m ∧ r'.Decides set m ∧
        r.saves inv.selectable now m ≠ r'.saves inv.selectable now m := by
    intro m
    have her : (conflictOn inv.selectable set now m).isSome ↔
        ∃ c, resolve m.digest (opinionsOn inv.selectable set now m) = .error c := by
      unfold conflictOn
      cases resolve m.digest (opinionsOn inv.selectable set now m) <;> simp
    rw [her, resolve_eq_error]
    constructor
    · rintro ⟨o, o', ho, ho', hne⟩
      obtain ⟨r, hr, rfl⟩ := strongest_iff.mp ho
      obtain ⟨r', hr', rfl⟩ := strongest_iff.mp ho'
      exact ⟨r, r', hr, hr', hne⟩
    · rintro ⟨r, r', hr, hr', hne⟩
      exact ⟨_, _, strongest_iff.mpr ⟨r, hr, rfl⟩, strongest_iff.mpr ⟨r', hr', rfl⟩, hne⟩
  have hsm : (∃ m ∈ inv.selectable, (conflictOn inv.selectable set now m).isSome) ↔
      conflictsOn inv set now ≠ [] := by
    rw [conflictsOn, Ne, filterMap_eq_nil_iff]
    simp only [not_forall, Option.isSome_iff_ne_none, exists_prop, ne_eq]
  simp only [← hcn, hsm, evaluate_eq hv set hnow, ne_eq, hnow, not_false_eq_true, true_and]
  split_ifs with hnil <;> simp [hnil]

variable {plan : Plan} {m : Manifest}

theorem Inventory.Valid.verdict_of_plan (hpl : evaluate (some inv) set now = .ok plan)
    (hm : m ∈ inv.selectable) :
    resolve m.digest (opinionsOn inv.selectable set now m) =
        .ok (verdictsOn inv set now m.digest) ∧
      plan.about m.digest =
        (buildPlan inv (verdictsOn inv set now) now).about m.digest := by
  obtain ⟨-, hnil, rfl⟩ := (evaluate_eq_ok hv).mp hpl
  refine ⟨?_, rfl⟩
  have hnn := filterMap_eq_nil_iff.mp hnil m hm
  rw [hv.verdictsOn_of_mem set now (hv.selectable_sublist.subset hm), verdictOn]
  cases hres : resolve m.digest (opinionsOn inv.selectable set now m) with
  | error c => simp [conflictOn, hres] at hnn
  | ok v => rfl

theorem Inventory.Valid.excludedBy_selectable (hm : m ∈ inv.selectable) :
    inv.excludedBy m.digest = [] := by
  have hmem := hm
  rw [hv.selectable, mem_filter, decide_eq_true_eq, length_eq_zero_iff] at hmem
  rw [hv.excludedBy m hmem.1, hmem.2]

omit hv in
theorem mem_kept_of_about {p : Plan} {d : Digest} {k : KeptEntry} (h : (p.about d).2.2 = [k]) :
    k ∈ p.kept :=
  mem_of_mem_filter (h ▸ mem_singleton_self k : k ∈ (p.about d).2.2)

theorem Inventory.Valid.kept_without_opinion (hpl : evaluate (some inv) set now = .ok plan)
    (hm : m ∈ inv.selectable) (hnn : ∀ r ∈ set, r.matches m = false) :
    ∃ k ∈ plan.kept, k.digest = m.digest ∧ k.reason = .noRuleApplies := by
  obtain ⟨hres, hab⟩ := hv.verdict_of_plan hpl hm
  have hnil : opinionsOn inv.selectable set now m = [] := by
    rw [opinionsOn, map_eq_nil_iff, filter_eq_nil_iff]
    exact fun r hr => by simp [hnn r hr]
  rw [hnil] at hres
  rw [hv.about_buildPlan _ now hm, ← Except.ok.inj hres] at hab
  refine ⟨_, mem_kept_of_about (congrArg (·.2.2) hab), keptEntry_digest inv m _, ?_⟩
  simp [keptEntry, hv.excludedBy_selectable hm]

theorem Inventory.Valid.decided (hpl : evaluate (some inv) set now = .ok plan)
    (hm : m ∈ inv.selectable) {r : CompiledRule} (hr : r.Decides set m) :
    (r.saves inv.selectable now m = true →
      ∃ k ∈ plan.kept, k.digest = m.digest ∧ k.reason = .byRule ∧ k.priority = r.priority) ∧
    (r.saves inv.selectable now m = false →
      m.digest ∈ plan.selected.map Entry.digest ∨
        m.digest ∈ plan.blocked.map BlockedEntry.digest) := by
  obtain ⟨hres, hab⟩ := hv.verdict_of_plan hpl hm
  obtain ⟨happ, hpri, hkp⟩ := resolve_eq_ok hres (strongest_iff.mpr ⟨r, hr, rfl⟩)
  rw [hv.about_buildPlan _ now hm] at hab
  constructor
  · intro hsv
    rw [happ, hkp, hsv] at hab
    refine ⟨_, mem_kept_of_about (congrArg (·.2.2) hab), keptEntry_digest inv m _, ?_⟩
    simp [keptEntry, hv.excludedBy_selectable hm, happ, hpri]
  · intro hsv
    have hsp : ¬ (!(verdictsOn inv set now m.digest).applicable ||
        (verdictsOn inv set now m.digest).keep) = true := by
      simp [happ, hkp, hsv]
    rw [← entryFor_or_blockedFor inv m, not_and_or] at hsp
    refine hsp.imp (fun h => ?_) (fun h => ?_)
    · obtain ⟨e, he⟩ := Option.ne_none_iff_exists'.mp h
      have hmem : e ∈ plan.selected.filter (·.digest = m.digest) := by
        rw [show plan.selected.filter (·.digest = m.digest) = [e] from
          (congrArg Prod.fst hab).trans (by rw [he]; rfl)]
        exact mem_singleton_self e
      rw [mem_filter, decide_eq_true_eq] at hmem
      exact mem_map.mpr ⟨e, hmem⟩
    · obtain ⟨b, hb⟩ := Option.ne_none_iff_exists'.mp h
      have hmem : b ∈ plan.blocked.filter (·.digest = m.digest) := by
        rw [show plan.blocked.filter (·.digest = m.digest) = [b] from
          (congrArg (·.2.1) hab).trans (by rw [hb]; rfl)]
        exact mem_singleton_self b
      rw [mem_filter, decide_eq_true_eq] at hmem
      exact mem_map.mpr ⟨b, hmem⟩

end Decided

/-! ## Weaker rules -/

section Weaker

variable {quote : String → String} {compile : String → Except String (String → Bool)}

variable {rules : List Rule} {set set' : List CompiledRule}

theorem map_toRule_of_compileRules (h : compileRules quote compile rules = .ok set) :
    set.map CompiledRule.toRule = rules := by
  obtain ⟨-, -, hrl⟩ := compileRulesFrom_eq_ok.mp h
  clear h
  induction hrl with
  | nil => rfl
  | cons hc _ ih => rw [map_cons, ih, toRule_of_compileRule hc]

theorem perm_cons_of_compileRules {rules' : List Rule} {extra : Rule}
    (hpr : rules'.Perm (extra :: rules)) (hset : compileRules quote compile rules = .ok set)
    (hset' : compileRules quote compile rules' = .ok set') :
    ∃ c : CompiledRule, c.toRule = extra ∧ set'.Perm (c :: set) := by
  obtain ⟨set'', hset'', hpr'⟩ := compileRules_perm hpr hset'
  obtain ⟨-, -, hrl''⟩ := compileRulesFrom_eq_ok.mp hset''
  obtain ⟨-, -, hrl⟩ := compileRulesFrom_eq_ok.mp hset
  obtain ⟨c, cs, hc, hcs, rfl⟩ := List.forall₂_cons_left_iff.mp hrl''
  have hun : cs = set :=
    right_unique_forall₂' (fun _ _ _ h h' => Except.ok.inj (h.symm.trans h')) hcs hrl
  exact ⟨c, toRule_of_compileRule hc, hun ▸ hpr'⟩

theorem resolve_weaker (selectable : List Manifest) {c : CompiledRule} (hpr : set'.Perm (c :: set))
    (hnd : (set'.map (·.name)).Nodup) (hwk : ∀ q ∈ set, q.priority < c.priority) (now : Time)
    (m : Manifest) :
    ((∃ r ∈ set, r.matches m) →
      resolve m.digest (opinionsOn selectable set' now m) =
        resolve m.digest (opinionsOn selectable set now m)) ∧
    ((¬ ∃ r ∈ set, r.matches m) →
      ¬ ∃ x, resolve m.digest (opinionsOn selectable set' now m) = .error x) := by
  rw [resolve_opinionsOn_perm selectable hpr hnd now m]
  have hlt : ∀ o ∈ opinionsOn selectable set now m, o.priority < c.priority := by
    intro o ho
    obtain ⟨q, hq, -, rfl⟩ := mem_opinionsOn.mp ho
    exact hwk q hq
  constructor
  · rintro ⟨r, hr, hmt⟩
    have hne : opinionsOn selectable set now m ≠ [] :=
      ne_nil_of_mem (mem_opinionsOn.mpr ⟨r, hr, hmt, rfl⟩)
    by_cases hc : c.matches m
    · rw [opinionsOn, filter_cons, if_pos hc, map_cons]
      exact resolve_cons_weaker m.digest hne hlt
    · rw [opinionsOn, filter_cons, if_neg hc]
      rfl
  · intro hnn
    rw [resolve_eq_error]
    rintro ⟨o, o', ho, ho', hne⟩
    obtain ⟨r, ⟨hr, hmt, -⟩, rfl⟩ := strongest_iff.mp ho
    obtain ⟨r', ⟨hr', hmt', -⟩, rfl⟩ := strongest_iff.mp ho'
    -- both are the added rule, the only one with an opinion
    have hon : ∀ q ∈ c :: set, q.matches m → q = c := fun q hq hqm =>
      (mem_cons.mp hq).resolve_right fun hq => hnn ⟨q, hq, hqm⟩
    exact hne (by rw [hon r hr hmt, hon r' hr' hmt'])

end Weaker

/-- **Precedence.** A conflict is reported exactly when two deciding rules disagree on a selectable
manifest. In a plan, a manifest no rule has an opinion on is kept, and any other goes the way all
its deciding rules go. A rule weaker than every other changes nothing for the manifests that had an
opinion, and never brings a conflict. -/
theorem precedence (quote : String → String) (compile : String → Except String (String → Bool))
    {repository : String} {snapshot : List Manifest} {inv : Inventory} {rules : List Rule}
    {set : List CompiledRule} (hinv : newInventory repository snapshot = .ok inv)
    (hset : compileRules quote compile rules = .ok set) (now : Time) :
    ((∃ cs, evaluate (some inv) set now = .error (.conflict cs)) ↔
      now ≠ 0 ∧ ∃ m ∈ inv.selectable, ∃ r r' : CompiledRule, r.Decides set m ∧ r'.Decides set m ∧
        r.saves inv.selectable now m ≠ r'.saves inv.selectable now m) ∧
    (∀ plan, evaluate (some inv) set now = .ok plan → ∀ m ∈ inv.selectable,
      ((∀ r ∈ set, r.matches m = false) →
        ∃ k ∈ plan.kept, k.digest = m.digest ∧ k.reason = .noRuleApplies) ∧
      ∀ r : CompiledRule, r.Decides set m →
        (r.saves inv.selectable now m = true →
          ∃ k ∈ plan.kept, k.digest = m.digest ∧ k.reason = .byRule ∧ k.priority = r.priority) ∧
        (r.saves inv.selectable now m = false →
          m.digest ∈ plan.selected.map Entry.digest ∨
            m.digest ∈ plan.blocked.map BlockedEntry.digest)) ∧
    ∀ (extra : Rule) (rules' : List Rule) (set' : List CompiledRule),
      rules'.Perm (extra :: rules) → (∀ r ∈ rules, r.priority < extra.priority) →
      compileRules quote compile rules' = .ok set' →
      (∀ m ∈ inv.selectable, (∃ r ∈ set, r.matches m) →
        resolve m.digest (gatherOpinions inv.selectable set' now m.digest) =
          resolve m.digest (gatherOpinions inv.selectable set now m.digest)) ∧
      ∀ plan, evaluate (some inv) set now = .ok plan →
        ∃ plan', evaluate (some inv) set' now = .ok plan' ∧
          ∀ m ∈ inv.selectable, (∃ r ∈ set, r.matches m) →
            plan'.about m.digest = plan.about m.digest := by
  have hv := valid_of_newInventory hinv
  refine ⟨hv.evaluate_eq_conflict, fun plan hpl m hm => ⟨hv.kept_without_opinion hpl hm,
    fun r hr => hv.decided hpl hm hr⟩, fun extra rules' set' hpr hlt hset' => ?_⟩
  obtain ⟨c, rfl, hcn⟩ := perm_cons_of_compileRules hpr hset hset'
  have hwk : ∀ q ∈ set, q.priority < c.priority := fun q hq =>
    hlt q.toRule (map_toRule_of_compileRules hset ▸ mem_map_of_mem hq)
  have hrs := resolve_weaker inv.selectable hcn (nodup_names_of_compileRules hset')
    hwk now
  refine ⟨fun m hm hmt => ?_, fun plan hpl => ?_⟩
  · rw [gatherOpinions_eq hv.nodup_selectable hm, gatherOpinions_eq hv.nodup_selectable hm]
    exact (hrs m).1 hmt
  · obtain ⟨hnow, hnil, rfl⟩ := (evaluate_eq_ok hv).mp hpl
    have hnil' : conflictsOn inv set' now = [] := by
      refine filterMap_eq_nil_iff.mpr fun m hm => ?_
      by_cases hmt : ∃ r ∈ set, r.matches m
      · rw [conflictOn, (hrs m).1 hmt]
        exact filterMap_eq_nil_iff.mp hnil m hm
      · rw [conflictOn]
        cases hres : resolve m.digest (opinionsOn inv.selectable set' now m) with
        | ok v => rfl
        | error x => exact absurd ⟨x, hres⟩ ((hrs m).2 hmt)
    refine ⟨_, (evaluate_eq_ok hv).mpr ⟨hnow, hnil', rfl⟩, fun m hm hmt => ?_⟩
    have hmem := hv.selectable_sublist.subset hm
    rw [hv.about_buildPlan _ now hm, hv.about_buildPlan _ now hm,
      hv.verdictsOn_of_mem set' now hmem, hv.verdictsOn_of_mem set now hmem, verdictOn, verdictOn,
      (hrs m).1 hmt]

theorem precedence_weaker_recent :
    let compile : String → Except String (String → Bool) := fun _ => .ok fun _ => true
    let reap := (reapUntagged "reap" 1).toRule
    let recent := (keepRecent "recent" 2 100).toRule
    ∃ inv set set' plan plan', newInventory "r" sampleSnapshot = .ok inv ∧
      compileRules id compile [reap] = .ok set ∧ compileRules id compile [recent, reap] = .ok set' ∧
      evaluate (some inv) set 10 = .ok plan ∧ plan.digests = ["img", "sbom", "sig"] ∧
      evaluate (some inv) set' 10 = .ok plan' ∧
      ∀ m ∈ inv.selectable, (∃ r ∈ set, r.matches m) →
        plan'.about m.digest = plan.about m.digest := by
  intro compile reap recent
  have hrun : ∃ inv ∈ (newInventory "r" sampleSnapshot).toOption,
      ∃ set ∈ (compileRules id compile [reap]).toOption,
        ∃ plan ∈ (evaluate (some inv) set 10).toOption,
          plan.digests = ["img", "sbom", "sig"] := by decide
  obtain ⟨inv, hinv, set, hset, plan, hpl, hdg⟩ := hrun
  rw [mem_toOption] at hinv hset hpl
  obtain ⟨set', hset'⟩ := isOk_iff.mp (by decide : (compileRules id compile [recent, reap]).isOk)
  obtain ⟨-, -, hwk⟩ := precedence id compile hinv hset 10
  obtain ⟨plan', hpl', hab⟩ :=
    (hwk recent [recent, reap] set' (.refl _) (by decide) hset').2 plan hpl
  exact ⟨inv, set, set', plan, plan', hinv, hset, hset', hpl, hdg, hpl', hab⟩

end Trove.Policy
