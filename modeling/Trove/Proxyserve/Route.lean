import Trove.Authz.Scope
import Trove.Proxy.Routine

/-!
# Where a proxy may fetch from

A proxy's allow and block patterns are scopes, matched against the path that would be asked of the
upstream. A block pattern decides first, then an allow pattern, then the default. Which pattern of a
list matched is only named in the decision (`admits_iff`).
-/

namespace Trove.Repo

open Lib Authz

/-- What routing reads of a `ProxyConfig`. -/
structure ProxyConfig where
  defaultNamespace : String
  (allow block : List String)
  defaultDeny : Bool

/-- What is wrong with a pattern. -/
inductive ConfigReason
  | scope (err : InvalidScopeError)
  | system
  deriving DecidableEq

def ConfigReason.text (quote : String → String) : ConfigReason → String
  | .scope err => err.message quote
  | .system => "system is a binding scope, not a routing pattern"

/-- The field that is wrong, and why. -/
structure ConfigError where
  field : String
  reason : ConfigReason
  deriving DecidableEq

/-- The text of the error. -/
def ConfigError.message (quote : String → String) (e : ConfigError) : String :=
  "invalid repository configuration: " ++ e.field ++ ": " ++ e.reason.text quote

/-- What a path was decided by. -/
inductive RoutingReason
  | routedByBlock
  | routedByAllow
  | routedByDefaultAllow
  | routedByDefaultDeny
  deriving DecidableEq

def RoutingReason.allows : RoutingReason → Bool
  | .routedByAllow | .routedByDefaultAllow => true
  | .routedByBlock | .routedByDefaultDeny => false

structure RoutingDecision where
  allowed : Bool
  reason : RoutingReason
  pattern : Scope
  remainder : String
  agrees : allowed = reason.allows

/-- The compiled patterns. -/
structure RoutingRules where
  (allow block : List Scope)
  defaultDeny : Bool
  deriving DecidableEq

def compileField (field : String) (patterns : List String) : Except ConfigError (List Scope) :=
  patterns.mapM fun pattern =>
    match parseScope pattern with
    | .error err => .error ⟨field, .scope err⟩
    | .ok scope => if scope = systemScope then .error ⟨field, .system⟩ else .ok scope

def compileRoutingRules (cfg : ProxyConfig) : Except ConfigError RoutingRules := do
  let allow ← compileField "allow" cfg.allow
  let block ← compileField "block" cfg.block
  .ok ⟨allow, block, cfg.defaultDeny⟩

def RoutingRules.evaluate (rules : RoutingRules) (remainder : String) :
    Except Reponame.InvalidError RoutingDecision :=
  match repository remainder with
  | .error err => .error err
  | .ok resource =>
    match rules.block.find? fun pattern => Scope.matches pattern resource with
    | some pattern => .ok ⟨false, .routedByBlock, pattern, remainder, rfl⟩
    | none =>
      match rules.allow.find? fun pattern => Scope.matches pattern resource with
      | some pattern => .ok ⟨true, .routedByAllow, pattern, remainder, rfl⟩
      | none =>
        if rules.defaultDeny then .ok ⟨false, .routedByDefaultDeny, "", remainder, rfl⟩
        else .ok ⟨true, .routedByDefaultAllow, "", remainder, rfl⟩

/-- A pattern that compiles. -/
def Routable (pattern : String) : Prop := pattern ≠ systemScope ∧ (parseScope pattern).isOk = true

def Matches (pattern path : String) : Prop :=
  ∃ resource, repository path = .ok resource ∧ Scope.matches pattern resource = true

theorem compileField_eq_ok {field : String} {patterns : List String} {scopes : List Scope} :
    compileField field patterns = .ok scopes ↔
      (∀ pattern ∈ patterns, Routable pattern) ∧ patterns = scopes := by
  rw [compileField, mapM_eq_ok, ← List.forall₂_eq_eq_eq, ← List.forall₂_and_left]
  refine ⟨List.Forall₂.imp fun pattern scope h => ?_, List.Forall₂.imp fun pattern scope h => ?_⟩
  · split at h
    · cases h
    · rename_i parsed hpr
      split_ifs at h with hsy
      cases h
      obtain ⟨rfl, -⟩ := parseScope_eq_ok.mp hpr
      exact ⟨⟨hsy, by rw [hpr]; rfl⟩, rfl⟩
  · obtain ⟨⟨hsy, hok⟩, rfl⟩ := h
    obtain ⟨parsed, hpr⟩ := isOk_iff.mp hok
    obtain ⟨rfl, -⟩ := parseScope_eq_ok.mp hpr
    simp [hpr, hsy]

theorem compileRoutingRules_eq_ok {cfg : ProxyConfig} {rules : RoutingRules} :
    compileRoutingRules cfg = .ok rules ↔ (∀ pattern ∈ cfg.allow ++ cfg.block, Routable pattern) ∧
      ⟨cfg.allow, cfg.block, cfg.defaultDeny⟩ = rules := by
  rw [List.forall_mem_append, compileRoutingRules, bind_eq_ok]
  constructor
  · rintro ⟨allow, hal, h⟩
    obtain ⟨block, hbl, h⟩ := bind_eq_ok.mp h
    obtain ⟨haw, rfl⟩ := compileField_eq_ok.mp hal
    obtain ⟨hbc, rfl⟩ := compileField_eq_ok.mp hbl
    exact ⟨⟨haw, hbc⟩, Except.ok.inj h⟩
  · rintro ⟨⟨hal, hbl⟩, rfl⟩
    exact ⟨_, compileField_eq_ok.mpr ⟨hal, rfl⟩,
      bind_eq_ok.mpr ⟨_, compileField_eq_ok.mpr ⟨hbl, rfl⟩, rfl⟩⟩

theorem evaluate_allowed_iff {rules : RoutingRules} {path : String} {resource : Resource}
    (hrs : repository path = .ok resource) :
    (∃ decision, rules.evaluate path = .ok decision ∧ decision.allowed = true) ↔
      (∀ pattern ∈ rules.block, ¬ Matches pattern path) ∧
        ((∃ pattern ∈ rules.allow, Matches pattern path) ∨ rules.defaultDeny = false) := by
  have hmt : ∀ pattern, Matches pattern path ↔ Scope.matches pattern resource = true := by
    simp [Matches, hrs]
  simp only [hmt, RoutingRules.evaluate, hrs]
  cases hbl : rules.block.find? fun pattern => Scope.matches pattern resource with
  | some pattern =>
    have := List.find?_some hbl
    refine iff_of_false (by simp) fun h => h.1 pattern (List.mem_of_find?_eq_some hbl) this
  | none =>
    rw [List.find?_eq_none] at hbl
    cases hal : rules.allow.find? fun pattern => Scope.matches pattern resource with
    | some pattern =>
      have := List.find?_some hal
      exact iff_of_true (by simp)
        ⟨hbl, .inl ⟨pattern, List.mem_of_find?_eq_some hal, this⟩⟩
    | none =>
      rw [List.find?_eq_none] at hal
      cases hdn : rules.defaultDeny with
      | true =>
        refine iff_of_false (by simp) ?_
        rintro ⟨-, ⟨pattern, hmem, hpt⟩ | hdn⟩
        · exact hal pattern hmem hpt
        · cases hdn
      | false => exact iff_of_true (by simp) ⟨hbl, .inr rfl⟩

end Trove.Repo

namespace Trove.Proxyserve

open Lib Authz
open Repo (compileRoutingRules Routable Matches)

def rewriteNamespace (ns remainder : String) : String :=
  if ns = "" || Strings.contains remainder '/' then remainder else ns ++ "/" ++ remainder

variable (quote : String → String)

def route (config : Repo.ProxyConfig) (remainder : String) : Except Proxy.PullError String :=
  let upstreamPath := rewriteNamespace config.defaultNamespace remainder
  match compileRoutingRules config with
  | .error err => .error (.configuration ("compile the routing rules: " ++ err.message quote))
  | .ok rules =>
    match rules.evaluate upstreamPath with
    | .error err => .error (.contentUnknown (err.message quote))
    | .ok decision =>
      if decision.allowed then .ok upstreamPath else .error (.contentUnknown "")

/-- A fetch of the remainder goes to the upstream. -/
def Admits (config : Repo.ProxyConfig) (remainder : String) : Prop :=
  route quote config remainder = .ok (rewriteNamespace config.defaultNamespace remainder)

instance (config : Repo.ProxyConfig) (remainder : String) :
    Decidable (Admits quote config remainder) :=
  inferInstanceAs (Decidable (_ = _))

/-- **Admission.** A fetch is admitted when the configuration compiles, the rewritten path is a
legal name that no block pattern matches, and an allow pattern matches it or nothing is denied by
default. -/
theorem admits_iff {config : Repo.ProxyConfig} {remainder : String} :
    Admits quote config remainder ↔
      (∀ pattern ∈ config.allow ++ config.block, Routable pattern) ∧
        Reponame.valid (rewriteNamespace config.defaultNamespace remainder) = true ∧
        (∀ pattern ∈ config.block,
          ¬ Matches pattern (rewriteNamespace config.defaultNamespace remainder)) ∧
        ((∃ pattern ∈ config.allow,
          Matches pattern (rewriteNamespace config.defaultNamespace remainder)) ∨
            config.defaultDeny = false) := by
  generalize hpt : rewriteNamespace config.defaultNamespace remainder = path
  rw [Admits, route, hpt]
  cases hcm : compileRoutingRules config with
  | error err =>
    refine iff_of_false (by simp) fun h => ?_
    rw [Repo.compileRoutingRules_eq_ok.mpr ⟨h.1, rfl⟩] at hcm
    cases hcm
  | ok rules =>
    obtain ⟨hrt, rfl⟩ := Repo.compileRoutingRules_eq_ok.mp hcm
    rw [and_iff_right hrt]
    cases hrs : repository path with
    | error err =>
      refine iff_of_false (by simp [Repo.RoutingRules.evaluate, hrs]) fun h => ?_
      rw [repository_eq_ok h.1] at hrs
      cases hrs
    | ok resource =>
      rw [and_iff_right (valid_of_repository hrs)]
      have hal := @Repo.evaluate_allowed_iff ⟨config.allow, config.block, config.defaultDeny⟩
        path resource hrs
      refine Iff.trans ?_ hal
      dsimp only
      split
      · simp [*]
      · rename_i decision hdc
        cases hvr : decision.allowed <;> simp [hdc, hvr]

/-- **Routing rules confine a proxy.** Of a configuration that compiles, a fetch is admitted exactly
when its rewritten path is a legal name, no block pattern matches it, and an allow pattern does or
nothing is denied by default. Patterns may be permuted and repeated; a block pattern more never
admits more, and an allow pattern more never admits less and changes nothing by default. -/
theorem routing_confines {config : Repo.ProxyConfig} {rules : Repo.RoutingRules}
    (hcompile : compileRoutingRules config = .ok rules) (remainder : String) :
    (Admits quote config remainder ↔
      Reponame.valid (rewriteNamespace config.defaultNamespace remainder) = true ∧
        (∀ pattern ∈ config.block,
          ¬ Matches pattern (rewriteNamespace config.defaultNamespace remainder)) ∧
        ((∃ pattern ∈ config.allow,
          Matches pattern (rewriteNamespace config.defaultNamespace remainder)) ∨
            config.defaultDeny = false)) ∧
      (∀ allow block, (∀ p, p ∈ allow ↔ p ∈ config.allow) → (∀ p, p ∈ block ↔ p ∈ config.block) →
        (Admits quote { config with allow := allow, block := block } remainder ↔
          Admits quote config remainder)) ∧
      (∀ block, config.block ⊆ block →
        Admits quote { config with block := block } remainder → Admits quote config remainder) ∧
      (∀ allow rules', config.allow ⊆ allow →
        compileRoutingRules { config with allow := allow } = .ok rules' →
          (Admits quote config remainder → Admits quote { config with allow := allow } remainder) ∧
          (config.defaultDeny = false →
            (Admits quote { config with allow := allow } remainder ↔
              Admits quote config remainder))) := by
  have hrt := (Repo.compileRoutingRules_eq_ok.mp hcompile).1
  simp only [admits_iff]
  refine ⟨and_iff_right hrt, ?_, ?_, ?_⟩
  · intro allow block hal hbl
    simp only [List.mem_append, hal, hbl]
  · rintro block hbl ⟨-, hvl, hcl, hal⟩
    exact ⟨hrt, hvl, fun p hp => hcl p (hbl hp), hal⟩
  · intro allow rules' hal hcompile'
    have hrt' := (Repo.compileRoutingRules_eq_ok.mp hcompile').1
    refine ⟨?_, fun hdf => ?_⟩
    · rintro ⟨-, hvl, hcl, hmt⟩
      exact ⟨hrt', hvl, hcl,
        hmt.imp_left fun ⟨p, hp, hmt⟩ => ⟨p, hal hp, hmt⟩⟩
    · simp only [hdf, or_true, and_true]
      rw [and_iff_right hrt', and_iff_right hrt]

def officialImages : Repo.ProxyConfig := ⟨"library", ["library/*"], [], true⟩

theorem routing_confines_officialImages :
    Admits id officialImages "nginx" ∧ ¬ Admits id officialImages "myorg/app" ∧
      Admits id { officialImages with allow := ["library/*", "myorg/*"] } "nginx" := by
  have hcm : compileRoutingRules officialImages = .ok ⟨["library/*"], [], true⟩ := by
    decide +kernel
  have hmr : compileRoutingRules { officialImages with allow := ["library/*", "myorg/*"] } =
      .ok ⟨["library/*", "myorg/*"], [], true⟩ := by
    decide +kernel
  have hng : Admits id officialImages "nginx" := by decide +kernel
  refine ⟨hng, by decide +kernel, ?_⟩
  exact ((routing_confines id hcm "nginx").2.2.2 _ _ (by simp [officialImages]) hmr).1 hng

end Trove.Proxyserve
