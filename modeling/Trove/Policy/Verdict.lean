import Trove.Policy.Evaluation

/-!
# How opinions combine

`resolve` by what it depends on: the opinions at the strongest priority present, in any order.
-/

namespace Trove.Policy

open Lib List Function

/-- None present has a stronger priority. -/
def Opinion.Strongest (o : Opinion) (opinions : List Opinion) : Prop :=
  o ∈ opinions ∧ ∀ o' ∈ opinions, o.priority ≤ o'.priority

theorem bestPriority_spec (first : ℤ) (opinions : List Opinion) :
    (bestPriority first opinions = first ∨
      ∃ o ∈ opinions, o.priority = bestPriority first opinions) ∧
    bestPriority first opinions ≤ first ∧
    ∀ o ∈ opinions, bestPriority first opinions ≤ o.priority := by
  induction opinions generalizing first with
  | nil => exact ⟨.inl rfl, le_rfl, by simp⟩
  | cons o opinions ih =>
    obtain ⟨hmem, hle, hall⟩ := ih (if o.priority < first then o.priority else first)
    have hst : bestPriority first (o :: opinions) =
        bestPriority (if o.priority < first then o.priority else first) opinions := rfl
    rw [hst]
    rcases lt_or_ge o.priority first with hlt | hge
    · rw [if_pos hlt] at hmem hle hall ⊢
      refine ⟨.inr ?_, hle.trans hlt.le, forall_mem_cons.mpr ⟨hle, hall⟩⟩
      rcases hmem with heq | ⟨o', ho', heq⟩
      · exact ⟨o, mem_cons_self, heq.symm⟩
      · exact ⟨o', mem_cons_of_mem o ho', heq⟩
    · rw [if_neg (not_lt.mpr hge)] at hmem hle hall ⊢
      refine ⟨?_, hle, forall_mem_cons.mpr ⟨hle.trans hge, hall⟩⟩
      exact hmem.imp_right fun ⟨o', ho', heq⟩ => ⟨o', mem_cons_of_mem o ho', heq⟩

variable {opinions top : List Opinion} {o : Opinion} {digest : Digest}

theorem exists_strongest (digest : Digest) (h : opinions ≠ []) :
    ∃ o : Opinion, o.Strongest opinions ∧
      resolve digest opinions =
        resolveTop digest o.priority (opinions.filter (·.priority = o.priority)) := by
  cases opinions with
  | nil => exact absurd rfl h
  | cons first others =>
    obtain ⟨hmem, hle, hall⟩ := bestPriority_spec first.priority others
    have hbs : ∀ o' ∈ first :: others, bestPriority first.priority others ≤ o'.priority :=
      forall_mem_cons.mpr ⟨hle, hall⟩
    rcases hmem with heq | ⟨o, ho, heq⟩
    · refine ⟨first, ⟨mem_cons_self, heq ▸ hbs⟩, ?_⟩
      rw [resolve, heq]
    · refine ⟨o, ⟨mem_cons_of_mem first ho, heq ▸ hbs⟩, ?_⟩
      rw [resolve, heq]

theorem Opinion.Strongest.priority_eq {o' : Opinion} (h : o.Strongest opinions)
    (h' : o'.Strongest opinions) : o.priority = o'.priority :=
  le_antisymm (h.2 o' h'.1) (h'.2 o h.1)

theorem resolve_eq_resolveTop (digest : Digest) (h : o.Strongest opinions) :
    resolve digest opinions =
      resolveTop digest o.priority (opinions.filter (·.priority = o.priority)) := by
  obtain ⟨o', ho', heq⟩ := exists_strongest digest (ne_nil_of_mem h.1)
  rw [heq, h.priority_eq ho']

/-! ## Agreement and conflict -/

theorem length_sorted_rules_pos {p : Opinion → Bool} :
    (sortBy id ((top.filter p).map Opinion.rule)).length > 0 ↔ ∃ o ∈ top, p o := by
  rw [(perm_sortBy _).length_eq, length_map, gt_iff_lt, length_pos_iff_exists_mem]
  simp only [mem_filter]

variable {best : ℤ} {v : Verdict} {opinions' : List Opinion}

theorem resolveTop_eq_error :
    (∃ c, resolveTop digest best top = .error c) ↔
      ∃ o ∈ top, ∃ o' ∈ top, o.keep ≠ o'.keep := by
  simp only [resolveTop, length_sorted_rules_pos]
  constructor
  · rintro ⟨c, hc⟩
    split_ifs at hc with h
    obtain ⟨⟨o, ho, hsel⟩, o', ho', hkp⟩ := h
    exact ⟨o, ho, o', ho', by simp_all⟩
  · rintro ⟨o, ho, o', ho', hne⟩
    have hbt : (∃ o ∈ top, !o.keep) ∧ ∃ o ∈ top, o.keep := by
      cases hk : o.keep with
      | false => exact ⟨⟨o, ho, by simp [hk]⟩, o', ho', by simp_all⟩
      | true => exact ⟨⟨o', ho', by simp_all⟩, o, ho, hk⟩
    rw [if_pos hbt]
    exact ⟨_, rfl⟩

theorem resolveTop_eq_ok (h : resolveTop digest best top = .ok v) :
    v.applicable = true ∧ v.priority = best ∧ ∀ o ∈ top, v.keep = o.keep := by
  simp only [resolveTop, length_sorted_rules_pos] at h
  by_cases hbt : (∃ o ∈ top, !o.keep) ∧ ∃ o ∈ top, o.keep
  · rw [if_pos hbt] at h
    cases h
  rw [if_neg hbt] at h
  obtain rfl := Except.ok.inj h
  refine ⟨rfl, rfl, fun o ho => ?_⟩
  rw [not_and_or] at hbt
  cases hk : o.keep with
  | true => exact decide_eq_true ⟨o, ho, hk⟩
  | false => exact decide_eq_false (hbt.resolve_left (not_not_intro ⟨o, ho, by simp [hk]⟩))

/-- **Conflict.** Opinions conflict exactly when two strongest ones disagree. -/
theorem resolve_eq_error :
    (∃ c, resolve digest opinions = .error c) ↔
      ∃ o o' : Opinion, o.Strongest opinions ∧ o'.Strongest opinions ∧ o.keep ≠ o'.keep := by
  by_cases hnil : opinions = []
  · subst hnil
    simp [resolve, Opinion.Strongest]
  · obtain ⟨best, hbs, heq⟩ := exists_strongest digest hnil
    rw [heq, resolveTop_eq_error]
    have htop : ∀ o, o ∈ opinions.filter (·.priority = best.priority) ↔ o.Strongest opinions := by
      intro o
      rw [mem_filter, decide_eq_true_eq]
      constructor
      · rintro ⟨ho, hp⟩
        exact ⟨ho, hp ▸ hbs.2⟩
      · exact fun ho => ⟨ho.1, ho.priority_eq hbs⟩
    simp only [htop]
    constructor
    · rintro ⟨o, ho, o', ho', hne⟩
      exact ⟨o, o', ho, ho', hne⟩
    · rintro ⟨o, o', ho, ho', hne⟩
      exact ⟨o, ho, o', ho', hne⟩

/-- **Agreement.** A verdict is the one of every strongest opinion. -/
theorem resolve_eq_ok (h : resolve digest opinions = .ok v) (ho : o.Strongest opinions) :
    v.applicable = true ∧ v.priority = o.priority ∧ v.keep = o.keep := by
  rw [resolve_eq_resolveTop digest ho] at h
  obtain ⟨happ, hpri, hkp⟩ := resolveTop_eq_ok h
  exact ⟨happ, hpri, hkp o (mem_filter.mpr ⟨ho.1, by simp⟩)⟩

/-! ## What does not matter -/

theorem resolve_cons_weaker (digest : Digest) (hne : opinions ≠ []) {weak : Opinion}
    (hwk : ∀ o ∈ opinions, o.priority < weak.priority) :
    resolve digest (weak :: opinions) = resolve digest opinions := by
  obtain ⟨best, hbs, heq⟩ := exists_strongest digest hne
  have hlt := hwk best hbs.1
  have hst : best.Strongest (weak :: opinions) :=
    ⟨mem_cons_of_mem weak hbs.1, forall_mem_cons.mpr ⟨hlt.le, hbs.2⟩⟩
  rw [resolve_eq_resolveTop digest hst, heq,
    filter_cons_of_neg (by simpa using hlt.ne')]

theorem kindsOf_of_not_mem {name : String} (h : name ∉ opinions.map Opinion.rule)
    (kinds : String → RuleKind) :
    opinions.foldl (fun kinds o => update kinds o.rule o.kind) kinds name =
      kinds name := by
  induction opinions generalizing kinds with
  | nil => rfl
  | cons o opinions ih =>
    rw [map_cons, mem_cons, not_or] at h
    rw [foldl_cons, ih h.2, update_of_ne h.1]

theorem kindsOf_of_mem (hnd : (opinions.map Opinion.rule).Nodup) (ho : o ∈ opinions)
    (kinds : String → RuleKind) :
    opinions.foldl (fun kinds o => update kinds o.rule o.kind) kinds o.rule = o.kind := by
  induction opinions generalizing kinds with
  | nil => cases ho
  | cons o' opinions ih =>
    rw [map_cons, nodup_cons] at hnd
    rw [foldl_cons]
    rcases mem_cons.mp ho with rfl | ho
    · rw [kindsOf_of_not_mem hnd.1, update_self]
    · exact ih hnd.2 ho _

theorem kindsOf_perm (hpr : opinions.Perm opinions') (hnd : (opinions.map Opinion.rule).Nodup) :
    kindsOf opinions = kindsOf opinions' := by
  funext name
  by_cases hnm : name ∈ opinions.map Opinion.rule
  · obtain ⟨o, ho, rfl⟩ := mem_map.mp hnm
    exact (kindsOf_of_mem hnd ho _).trans
      (kindsOf_of_mem ((hpr.map _).nodup_iff.mp hnd) (hpr.mem_iff.mp ho) _).symm
  · have hnm' : name ∉ opinions'.map Opinion.rule := fun h =>
      hnm ((hpr.map _).mem_iff.mpr h)
    exact (kindsOf_of_not_mem hnm _).trans
      (kindsOf_of_not_mem hnm' fun _ => .other "").symm

theorem resolve_perm (digest : Digest) (hpr : opinions.Perm opinions')
    (hnd : (opinions.map Opinion.rule).Nodup) :
    resolve digest opinions = resolve digest opinions' := by
  by_cases hnil : opinions = []
  · subst hnil
    rw [nil_perm.mp hpr]
  · obtain ⟨best, hbs, heq⟩ := exists_strongest digest hnil
    have hbs' : best.Strongest opinions' :=
      ⟨hpr.mem_iff.mp hbs.1, fun o ho => hbs.2 o (hpr.mem_iff.mpr ho)⟩
    have htop := hpr.filter (·.priority = best.priority)
    have hnd' := hnd.sublist
      (filter_sublist (p := (·.priority = best.priority)).map Opinion.rule)
    have hnm : ∀ p : Opinion → Bool,
        sortBy id (((opinions.filter (·.priority = best.priority)).filter p).map Opinion.rule) =
          sortBy id
            (((opinions'.filter (·.priority = best.priority)).filter p).map Opinion.rule) :=
      fun p => sortBy_eq_of_perm_of_injective injective_id ((htop.filter p).map _)
    rw [heq, resolve_eq_resolveTop digest hbs', resolveTop, resolveTop, kindsOf_perm htop hnd',
      hnm, hnm]

end Trove.Policy
