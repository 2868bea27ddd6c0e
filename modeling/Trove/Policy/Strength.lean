import Trove.Policy.Precedence

/-!
# Stronger keeping

Raising the count or the window of a keeping rule changes neither which manifests it has an opinion
on nor its priority; it only adds to what it saves.
-/

namespace Trove.Policy

open Lib Relation List
open Meta (Time)

/-- The keeping rule with a larger count or a larger window, everything else equal. -/
inductive Raised : Rule → Rule → Prop
  | count {rule : Rule} (n : ℤ) (hkind : rule.kind = .keepLastN) (hle : rule.n ≤ n) :
      Raised rule { rule with n }
  | window {rule : Rule} (age : ℤ)
      (hkind : rule.kind = .keepNewerThan ∨ rule.kind = .keepIfPulledSince)
      (hle : rule.age ≤ age) : Raised rule { rule with age }

/-- Same opinions at the same priority, and everything saved is still saved. -/
structure CompiledRule.Strengthens (c c' : CompiledRule) : Prop where
  priority_eq : c'.priority = c.priority
  matches_eq : c'.matches = c.matches
  saves : ∀ selectable now m, c.saves selectable now m = true → c'.saves selectable now m = true

theorem CompiledRule.Strengthens.refl (c : CompiledRule) : c.Strengthens c :=
  ⟨rfl, rfl, fun _ _ _ => id⟩

/-! ## Raising a rule -/

section Raise

variable {quote : String → String} {compile : String → Except String (String → Bool)}

variable {rule rule' : Rule}

theorem Raised.validateKindFields (h : Raised rule rule')
    (hvl : validateKindFields rule = .ok ()) : validateKindFields rule' = .ok () := by
  cases h with
  | count n hkn hle =>
    simp only [Policy.validateKindFields, hkn] at hvl ⊢
    split_ifs at hvl with hneg
    rw [if_neg (by omega)]
    simpa only [readsNoAge, hkn] using hvl
  | window age hkn hle =>
    rcases hkn with hkn | hkn <;>
    · simp only [Policy.validateKindFields, hkn] at hvl ⊢
      split_ifs at hvl with hneg
      rw [if_neg (by omega)]
      simpa only [readsNoCount, hkn] using hvl

theorem Raised.compileRule (h : Raised rule rule') {c : CompiledRule}
    (hc : compileRule quote compile rule = .ok c) :
    compileRule quote compile rule' = .ok { c with toRule := rule' } := by
  have hnm : rule'.name = rule.name := by cases h <;> rfl
  have hkn : rule'.kind = rule.kind := by cases h <;> rfl
  have hst : rule'.tagStatus = rule.tagStatus := by cases h <;> rfl
  have hin : rule'.includeTags = rule.includeTags := by cases h <;> rfl
  have hec : rule'.excludeTags = rule.excludeTags := by cases h <;> rfl
  unfold Policy.compileRule at hc ⊢
  split_ifs at hc with hbd hbs
  rw [hkn, if_neg hbd, hst, if_neg hbs]
  obtain ⟨⟨⟩, hfl, hc⟩ := bind_eq_ok.mp hc
  obtain ⟨includes, hic, hc⟩ := bind_eq_ok.mp hc
  obtain ⟨excludes, hel, hc⟩ := bind_eq_ok.mp hc
  obtain rfl := Except.ok.inj hc
  rw [hnm, hin, hec]
  exact bind_eq_ok.mpr ⟨(), h.validateKindFields hfl,
    bind_eq_ok.mpr ⟨includes, hic, bind_eq_ok.mpr ⟨excludes, hel, rfl⟩⟩⟩

theorem Raised.strengthens {c : CompiledRule} (h : Raised c.toRule rule') :
    c.Strengthens { c with toRule := rule' } := by
  have hmt : CompiledRule.matches { c with toRule := rule' } = c.matches := by
    cases h <;> rfl
  refine ⟨by cases h <;> rfl, hmt, fun selectable now m hsv => ?_⟩
  unfold CompiledRule.saves at hsv ⊢
  rw [decide_eq_true_eq] at hsv ⊢
  rw [hmt]
  cases h with
  | count n hkn hle =>
    simp only [CompiledRule.keeps, hkn] at hsv ⊢
    obtain ⟨kept, hkp, hdg⟩ := mem_map.mp hsv
    exact mem_map.mpr ⟨kept, take_subset_take_left _ (by omega) hkp, hdg⟩
  | window age hkn hle =>
    rcases hkn with hkn | hkn <;>
    · simp only [CompiledRule.keeps, hkn] at hsv ⊢
      obtain ⟨kept, hkp, hdg⟩ := mem_map.mp hsv
      obtain ⟨hmc, hrc⟩ := mem_filter.mp hkp
      rw [decide_eq_true_eq] at hrc
      have hst := lt_of_le_of_lt (Int.sub_le_sub_left hle now) hrc
      exact mem_map.mpr
        ⟨kept, mem_filter.mpr ⟨hmc, decide_eq_true hst⟩, hdg⟩

theorem compileRules_raised {before after : List Rule} (h : Raised rule rule')
    {set : List CompiledRule}
    (hset : compileRules quote compile (before ++ rule :: after) = .ok set) :
    ∃ set', compileRules quote compile (before ++ rule' :: after) = .ok set' ∧
      List.Forall₂ CompiledRule.Strengthens set set' := by
  have hnm : rule'.name = rule.name := by cases h <;> rfl
  obtain ⟨hns, hnd, hrl⟩ := compileRulesFrom_eq_ok.mp hset
  have hrs : ∀ (before : List Rule) (set : List CompiledRule),
      List.Forall₂ (fun r c => compileRule quote compile r = .ok c) (before ++ rule :: after) set →
      ∃ set', List.Forall₂ (fun r c => compileRule quote compile r = .ok c)
          (before ++ rule' :: after) set' ∧ List.Forall₂ CompiledRule.Strengthens set set' := by
    intro before
    induction before with
    | nil =>
      intro set hrl
      obtain ⟨c, cs, hc, hcs, rfl⟩ := List.forall₂_cons_left_iff.mp hrl
      have hst : c.Strengthens { c with toRule := rule' } :=
        Raised.strengthens (toRule_of_compileRule hc ▸ h)
      exact ⟨_, .cons (h.compileRule hc) hcs,
        .cons hst (List.forall₂_same.mpr fun c _ => .refl c)⟩
    | cons first before ih =>
      intro set hrl
      obtain ⟨c, cs, hc, hcs, rfl⟩ := List.forall₂_cons_left_iff.mp hrl
      obtain ⟨set', hset', hst⟩ := ih cs hcs
      exact ⟨c :: set', .cons hc hset', .cons (.refl c) hst⟩
  obtain ⟨set', hrl', hst⟩ := hrs before set hrl
  refine ⟨set', compileRulesFrom_eq_ok.mpr ⟨fun r hr => ?_, ?_, hrl'⟩, hst⟩
  · rcases mem_append.mp hr with hr | hr
    · exact hns r (mem_append_left _ hr)
    · rcases mem_cons.mp hr with rfl | hr
      · rw [hnm]
        exact hns rule (by simp)
      · exact hns r (mem_append_right _ (mem_cons_of_mem _ hr))
  · rw [map_append, map_cons, hnm]
    simpa using hnd

end Raise

/-! ## The plans -/

variable {set set' : List CompiledRule} {m : Manifest}

theorem exists_strengthens (h : List.Forall₂ CompiledRule.Strengthens set set') :
    (∀ c' ∈ set', ∃ c ∈ set, c.Strengthens c') ∧ ∀ c ∈ set, ∃ c' ∈ set', c.Strengthens c' := by
  induction h with
  | nil => simp
  | cons hst _ ih =>
    obtain ⟨hbc, hfr⟩ := ih
    refine ⟨forall_mem_cons.mpr ⟨⟨_, mem_cons_self, hst⟩, fun c' hc' => ?_⟩,
      forall_mem_cons.mpr ⟨⟨_, mem_cons_self, hst⟩, fun c hc => ?_⟩⟩
    · obtain ⟨c, hc, h⟩ := hbc c' hc'
      exact ⟨c, mem_cons_of_mem _ hc, h⟩
    · obtain ⟨c', hc', h⟩ := hfr c hc
      exact ⟨c', mem_cons_of_mem _ hc', h⟩

theorem decides_of_strengthened (h : List.Forall₂ CompiledRule.Strengthens set set')
    {c' : CompiledRule} (hdc : c'.Decides set' m) :
    ∃ c : CompiledRule, c.Decides set m ∧ c.Strengthens c' := by
  obtain ⟨hmem, hmt, hls⟩ := hdc
  obtain ⟨hbc, hfr⟩ := exists_strengthens h
  obtain ⟨c, hc, hst⟩ := hbc c' hmem
  refine ⟨c, ⟨hc, ?_, fun q hq hqm => ?_⟩, hst⟩
  · rw [← hst.matches_eq]
    exact hmt
  · obtain ⟨q', hq', hqs⟩ := hfr q hq
    have hle := hls q' hq' (by rw [hqs.matches_eq]; exact hqm)
    rwa [hst.priority_eq, hqs.priority_eq] at hle

theorem isSome_entryFor {inv : Inventory} {decided : Verdict} :
    (entryFor inv m decided).isSome = true ↔
      decided.applicable = true ∧ decided.keep = false ∧
        firstProtectedReferrer inv (inv.referrerSubtree m.digest) = none := by
  unfold entryFor
  cases decided.applicable <;> cases decided.keep <;>
    cases firstProtectedReferrer inv (inv.referrerSubtree m.digest) <;> simp

theorem Inventory.Valid.entry_of_strengthened {inv : Inventory} (hv : inv.Valid)
    (h : List.Forall₂ CompiledRule.Strengthens set set') {now : Time} {plan plan' : Plan}
    (hpl : evaluate (some inv) set now = .ok plan)
    (hpl' : evaluate (some inv) set' now = .ok plan') (hm : m ∈ inv.selectable)
    (hen : (entryFor inv m (verdictsOn inv set' now m.digest)).isSome = true) :
    (entryFor inv m (verdictsOn inv set now m.digest)).isSome = true := by
  obtain ⟨hrs, -⟩ := hv.verdict_of_plan hpl hm
  obtain ⟨hrs', -⟩ := hv.verdict_of_plan hpl' hm
  obtain ⟨hap, hdl, hfr⟩ := isSome_entryFor.mp hen
  have hne : opinionsOn inv.selectable set' now m ≠ [] := by
    intro hnil
    rw [hnil, resolve] at hrs'
    rw [← Except.ok.inj hrs'] at hap
    cases hap
  obtain ⟨o', ho', -⟩ := exists_strongest m.digest hne
  obtain ⟨c', hdc', rfl⟩ := strongest_iff.mp ho'
  obtain ⟨c, hdc, hst⟩ := decides_of_strengthened h hdc'
  obtain ⟨-, -, hkp'⟩ := resolve_eq_ok hrs' ho'
  obtain ⟨happ, -, hkp⟩ := resolve_eq_ok hrs (strongest_iff.mpr ⟨c, hdc, rfl⟩)
  refine isSome_entryFor.mpr ⟨happ, ?_, hfr⟩
  rw [hkp, Bool.eq_false_iff]
  intro hsv
  rw [hkp', hst.saves _ _ _ hsv] at hdl
  cases hdl

/-- **Stronger keeping never deletes more.** For every accepted inventory and rule list and any of
its keeping rules with its count or its window raised, the raised list is accepted too, and whenever
both give a plan at one time, the plan of the raised list deletes only what the other does. -/
theorem raised_deletes_less (quote : String → String)
    (compile : String → Except String (String → Bool)) {repository : String}
    {snapshot : List Manifest} {inv : Inventory} (hinv : newInventory repository snapshot = .ok inv)
    (before after : List Rule) {rule rule' : Rule} (hraised : Raised rule rule')
    {set : List CompiledRule}
    (hset : compileRules quote compile (before ++ rule :: after) = .ok set) :
    ∃ set', compileRules quote compile (before ++ rule' :: after) = .ok set' ∧
      ∀ (now : Time) (plan plan' : Plan), evaluate (some inv) set now = .ok plan →
        evaluate (some inv) set' now = .ok plan' → plan'.digests ⊆ plan.digests := by
  have hv := valid_of_newInventory hinv
  obtain ⟨set', hset', hst⟩ := compileRules_raised hraised hset
  refine ⟨set', hset', fun now plan plan' hpl hpl' d hd => ?_⟩
  obtain ⟨-, -, rfl⟩ := (evaluate_eq_ok hv).mp hpl
  obtain ⟨-, -, rfl⟩ := (evaluate_eq_ok hv).mp hpl'
  obtain ⟨m, hm, hen, hrc⟩ := (hv.mem_digests _ now).mp hd
  exact (hv.mem_digests _ now).mpr
    ⟨m, hm, hv.entry_of_strengthened hst hpl hpl' hm hen, hrc⟩

/-- A window that no longer held anything is raised until it holds the image. -/
theorem raised_deletes_less_recent :
    let compile : String → Except String (String → Bool) := fun _ => .ok fun _ => true
    let reap := (reapUntagged "reap" 2).toRule
    let recent := (keepRecent "recent" 1 1).toRule
    let longer := (keepRecent "recent" 1 100).toRule
    ∃ inv set set' plan plan', newInventory "r" sampleSnapshot = .ok inv ∧
      compileRules id compile [recent, reap] = .ok set ∧
      compileRules id compile [longer, reap] = .ok set' ∧
      evaluate (some inv) set 10 = .ok plan ∧ plan.digests = ["img", "sbom", "sig"] ∧
      evaluate (some inv) set' 10 = .ok plan' ∧ plan'.digests ⊆ plan.digests := by
  intro compile reap recent longer
  have hrun : ∃ inv ∈ (newInventory "r" sampleSnapshot).toOption,
      ∃ set ∈ (compileRules id compile [recent, reap]).toOption,
        ∃ plan ∈ (evaluate (some inv) set 10).toOption,
          plan.digests = ["img", "sbom", "sig"] ∧
          ∀ set' ∈ (compileRules id compile [longer, reap]).toOption,
            (evaluate (some inv) set' 10).isOk = true := by decide
  obtain ⟨inv, hinv, set, hset, plan, hpl, hdg, hln⟩ := hrun
  rw [mem_toOption] at hinv hset hpl
  have hrs : Raised recent longer := .window 100 (.inl rfl) (by decide)
  obtain ⟨set', hset', hls⟩ :=
    raised_deletes_less id compile hinv [] [reap] hrs hset
  obtain ⟨plan', hpl'⟩ := isOk_iff.mp (hln set' (mem_toOption.mpr hset'))
  exact ⟨inv, set, set', plan, plan', hinv, hset, hset', hpl, hdg, hpl',
    hls 10 plan plan' hpl hpl'⟩

end Trove.Policy
