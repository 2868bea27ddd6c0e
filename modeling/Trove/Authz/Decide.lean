import Trove.Authz.Scope
import Trove.Lib.Sort

/-!
# The decision

`Authz.decide` answers whether a subject's bindings permit a verb on a resource. The rule is a union
with no subtraction: one binding that grants the verb at a scope covering the resource is enough.
-/

namespace Trove.Authz

open Lib List

/-- The closed vocabulary, and the strings outside it. -/
inductive Verb
  | repoList
  | repoRead
  | repoWrite
  | tagDelete
  | manifestDelete
  | referrerRead
  | repoCreate
  | repoConfigure
  | repoDelete
  | scanRead
  | scanTrigger
  | policyRead
  | policyWrite
  | policyApply
  | gateOverride
  | proxyRead
  | proxyWrite
  | proxyCredentials
  | quotaRead
  | quotaWrite
  | webhookRead
  | webhookWrite
  | searchRead
  | userRead
  | userWrite
  | roleRead
  | roleWrite
  | auditRead
  | gcRun
  | systemMaintenance
  | unknown (text : String)
  deriving DecidableEq

/-- The verb is in the vocabulary. -/
def Verb.valid : Verb → Bool
  | .unknown _ => false
  | _ => true

structure Binding where
  (id role : String)
  scope : Scope
  verbs : List Verb
  viaGroup : String
  deriving DecidableEq

/-- The role has the verb. -/
def Binding.grants (b : Binding) (verb : Verb) : Bool := b.verbs.any (· == verb)

def Binding.allows (b : Binding) (verb : Verb) (resource : Resource) : Bool :=
  b.grants verb && Scope.matches b.scope resource

/-- The answer, with the bindings behind it. -/
structure Decision where
  allowed : Bool
  verb : Verb
  resource : Resource
  matched : List Binding

def Decision.consider (d : Decision) (b : Binding) : Decision :=
  if b.allows d.verb d.resource then { d with allowed := true, matched := d.matched ++ [b] } else d

/-- `Decide`. A verb outside the vocabulary is refused before any binding is considered. -/
protected def decide (bindings : List Binding) (verb : Verb) (resource : Resource) : Decision :=
  let decision : Decision := ⟨false, verb, resource, []⟩
  if !verb.valid then decision
  else
    let decision := bindings.foldl Decision.consider decision
    { decision with matched := sortBy Binding.id decision.matched }

def allows (bindings : List Binding) (verb : Verb) (resource : Resource) : Bool :=
  (Authz.decide bindings verb resource).allowed

def visibleScopes (bindings : List Binding) (verb : Verb) : List Scope :=
  (bindings.filter (·.grants verb)).map Binding.scope

/-! ## What the loop collects -/

theorem foldl_consider (bindings : List Binding) (d : Decision) :
    bindings.foldl Decision.consider d =
      { d with
        allowed := d.allowed || bindings.any (·.allows d.verb d.resource)
        matched := d.matched ++ bindings.filter (·.allows d.verb d.resource) } := by
  induction bindings generalizing d with
  | nil => simp
  | cons b bindings ih =>
    rw [foldl_cons, ih, Decision.consider]
    by_cases hb : b.allows d.verb d.resource <;> simp [hb]

/-- **The union rule.** A known verb is allowed exactly when some binding allows it. -/
theorem decide_allowed (bindings : List Binding) (verb : Verb) (resource : Resource) :
    (Authz.decide bindings verb resource).allowed =
      (verb.valid && bindings.any (·.allows verb resource)) := by
  rw [Authz.decide]
  cases hvr : verb.valid
  · rfl
  · simp [foldl_consider]

variable {bindings : List Binding} {b : Binding} {verb : Verb} {resource : Resource}

theorem mem_decide_matched :
    b ∈ (Authz.decide bindings verb resource).matched ↔
      verb.valid ∧ b ∈ bindings ∧ b.allows verb resource := by
  rw [Authz.decide]
  cases hvr : verb.valid
  · simp
  · simp [foldl_consider]

/-- A repository passes a known verb's decision exactly when a filter compiled from the scopes that
grant the verb selects it. -/
theorem decide_repository (bindings : List Binding) (hvr : verb.valid) (name : Reponame.Name) :
    (Authz.decide bindings verb (.repository name)).allowed =
      (filters (visibleScopes bindings verb)).any (·.matches name.text) := by
  rw [decide_allowed, hvr, Bool.true_and, filters, visibleScopes]
  induction bindings with
  | nil => rfl
  | cons b bindings ih =>
    rw [any_cons, ih, Binding.allows, matches_repository, filter_cons]
    cases b.grants verb with
    | false => simp
    | true =>
      simp only [Bool.true_and, if_true, map_cons, filterMap_cons]
      cases Scope.filter b.scope <;> simp

/-! ## The decision as a whole -/

theorem allows_iff :
    b.allows verb resource = true ↔ verb ∈ b.verbs ∧ Scope.matches b.scope resource = true := by
  rw [Binding.allows, Binding.grants, Bool.and_eq_true, any_beq', contains_iff_mem]

theorem decide_perm {bindings' : List Binding} (hids : (bindings.map Binding.id).Nodup)
    (hpr : bindings.Perm bindings') (verb : Verb) (resource : Resource) :
    Authz.decide bindings verb resource = Authz.decide bindings' verb resource := by
  have hany : bindings.any (·.allows verb resource) = bindings'.any (·.allows verb resource) := by
    rw [Bool.eq_iff_iff, any_eq_true, any_eq_true]
    simp only [hpr.mem_iff]
  have hsr : sortBy Binding.id (bindings.filter (·.allows verb resource)) =
      sortBy Binding.id (bindings'.filter (·.allows verb resource)) :=
    sortBy_eq_of_perm (hids.sublist (filter_sublist.map Binding.id)) (hpr.filter _)
  rw [Authz.decide, Authz.decide]
  simp only [foldl_consider, nil_append, hany, hsr]

theorem scopes_disjoint {scope : Scope} (h : parseScope b.scope = .ok scope) (verb : Verb) :
    (scope = systemScope → ∀ name, b.allows verb (.repository name) = false) ∧
      (scope ≠ systemScope → b.allows verb .system = false) := by
  obtain ⟨hsc, form, hlg, htx⟩ := parseScope_eq_ok.mp h
  have hmt := fun resource => matches_text_iff hlg resource
  rw [htx] at hmt
  have hdn : ∀ resource, ¬ form.Covers resource → b.allows verb resource = false := by
    intro resource hnot
    rw [Binding.allows, Bool.eq_false_iff.mpr fun hmc => hnot ((hmt resource).mp hmc),
      Bool.and_false]
  rw [hsc, ← htx]
  constructor
  · intro hsy name
    refine hdn _ fun hcv => ?_
    -- the text of every other form differs from the keyword
    cases form with
    | system => cases hcv
    | all => exact absurd hsy (by decide)
    | exact name' => exact hlg.name_ne_system hsy
    | under root => exact under_ne (by decide) hsy
  · intro hot
    refine hdn _ fun hcv => ?_
    cases form with
    | system => exact hot rfl
    | all =>
      obtain ⟨name, hnm⟩ := hcv
      cases hnm
    | exact name => cases hcv
    | under root =>
      obtain ⟨name, hnm, -⟩ := hcv
      cases hnm

/-- **The decision is exact.** Of bindings with distinct ids and a verb of the vocabulary: it is
allowed exactly when some binding holds the verb at a scope that matches; the bindings named are
exactly those, in id order; the order of the list changes nothing; and more bindings never take
access away. A binding at the system scope grants nothing on a repository, and one at any other
scope grants nothing at the system. -/
theorem decision_exact (bindings : List Binding) (hids : (bindings.map Binding.id).Nodup)
    (verb : Verb) (hverb : verb.valid = true) (resource : Resource) :
    ((Authz.decide bindings verb resource).allowed = true ↔
      ∃ b ∈ bindings, verb ∈ b.verbs ∧ Scope.matches b.scope resource = true) ∧
    (∀ b, b ∈ (Authz.decide bindings verb resource).matched ↔
      b ∈ bindings ∧ verb ∈ b.verbs ∧ Scope.matches b.scope resource = true) ∧
    Increasing Binding.id (Authz.decide bindings verb resource).matched ∧
    (∀ bindings' : List Binding, bindings'.Perm bindings →
      Authz.decide bindings' verb resource = Authz.decide bindings verb resource) ∧
    (∀ bindings' : List Binding, bindings ⊆ bindings' →
      (Authz.decide bindings verb resource).allowed = true →
        (Authz.decide bindings' verb resource).allowed = true) ∧
    ∀ (b : Binding) (scope : Scope), parseScope b.scope = .ok scope → ∀ verb : Verb,
      (scope = systemScope → ∀ name, b.allows verb (.repository name) = false) ∧
        (scope ≠ systemScope → b.allows verb .system = false) := by
  have hal : ∀ bs : List Binding, (Authz.decide bs verb resource).allowed = true ↔
      ∃ b ∈ bs, verb ∈ b.verbs ∧ Scope.matches b.scope resource = true := by
    intro bs
    simp only [decide_allowed, hverb, Bool.true_and, any_eq_true, allows_iff]
  refine ⟨hal bindings, fun b => ?_, ?_, fun bindings' hpr => ?_,
    fun bindings' hsub => ?_, fun b scope h verb => scopes_disjoint h verb⟩
  · rw [mem_decide_matched, allows_iff]
    exact and_iff_right hverb
  · rw [Authz.decide, hverb]
    simp only [foldl_consider, nil_append, Bool.not_true, Bool.false_eq_true, if_false]
    exact increasing_sortBy (hids.sublist (filter_sublist.map Binding.id))
  · exact (decide_perm hids hpr.symm verb resource).symm
  · rw [hal, hal]
    rintro ⟨b, hb, hgr⟩
    exact ⟨b, hsub hb, hgr⟩

/-- Two bindings that allow, named in id order, and one at the system scope that does not. -/
theorem decision_exact_threeBindings :
    let team : Binding := ⟨"b2", "reader", "team-a/*", [.repoRead], ""⟩
    let all : Binding := ⟨"b1", "reader", "*", [.repoList, .repoRead], "staff"⟩
    let system : Binding := ⟨"b3", "admin", "system", [.repoRead], ""⟩
    let api : Resource := .repository ⟨"team-a/api", by decide⟩
    (Authz.decide [team, system, all] .repoRead api).matched = [all, team] ∧
      Authz.decide [all, team, system] .repoRead api =
        Authz.decide [team, system, all] .repoRead api ∧
      system.allows .repoRead api = false := by
  intro team all system api
  obtain ⟨-, -, -, hpr, -, hds⟩ :=
    decision_exact [team, system, all] (by decide) .repoRead rfl api
  have hsy := (hds system systemScope (by decide) .repoRead).1 rfl
  exact ⟨by decide, hpr [all, team, system] (by decide), hsy ⟨"team-a/api", by decide⟩⟩

end Trove.Authz
