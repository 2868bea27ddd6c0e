import Trove.Authz.Decide

/-!
# The access a token claims

`parseScopes` reads the token endpoint's scope parameters, and `grant` keeps of each request the
actions that the subject's bindings allow at that moment. Between them a token claims exactly what
was asked for and is permitted (`grant_exact`).
-/

namespace Trove.Authn.Token

open Lib Lib.Strings List

def actionVerbs : List (String × Authz.Verb) :=
  [("pull", .repoRead), ("push", .repoWrite), ("delete", .manifestDelete)]

/-- One entry of a token's access claim. -/
structure ResourceActions where
  (type name : String)
  actions : List String

/-- One round of the loop over a scope's actions. An unknown action is passed over. -/
def see (seen : List String) (action : String) : List String :=
  if action = "*" then (actionVerbs.map Prod.fst).foldl (fun seen known => seen.insert known) seen
  else if (actionVerbs.lookup action).isSome then seen.insert action
  else seen

/-- `repository:<name>:<action>[,<action>]`, or nothing. -/
def parseScope (scope : String) : Option ResourceActions :=
  match splitN ':' 3 scope with
  | [type, name, actions] =>
    if type ≠ "repository" then none
    else
      match Authz.repository name with
      | .error _ => none
      | .ok _ =>
        let seen := (split actions ',').foldl see []
        if seen = [] then none else some ⟨"repository", name, sortBy id seen⟩
  | _ => none

/-- The entries that parse. -/
def parseScopes (values : List String) : List ResourceActions :=
  values.flatMap fun value => (fields value).filterMap parseScope

def permits (bindings : List Authz.Binding) (resource : Authz.Resource) (action : String) : Bool :=
  Authz.allows bindings ((actionVerbs.lookup action).getD (.unknown "")) resource

/-- What of one request is granted. -/
def grantOne (bindings : List Authz.Binding) (request : ResourceActions) :
    Option ResourceActions :=
  match Authz.repository request.name with
  | .error _ => none
  | .ok resource =>
    let granted := request.actions.filter (permits bindings resource)
    if granted.length > 0 then some { request with actions := granted } else none

def grant (bindings : List Authz.Binding) (requests : List ResourceActions) :
    List ResourceActions :=
  requests.filterMap (grantOne bindings)

/-! ## The actions of one scope -/

variable {action a name : String} {seen : List String} {request : ResourceActions}

theorem lookup_actionVerbs {verb : Authz.Verb} :
    actionVerbs.lookup action = some verb ↔ (action, verb) ∈ actionVerbs := by
  simp only [actionVerbs, lookup_cons, lookup_nil, mem_cons, not_mem_nil,
    or_false, Prod.mk.injEq]
  by_cases hpl : action = "pull"
  · subst hpl
    simp [eq_comm]
  by_cases hps : action = "push"
  · subst hps
    simp [eq_comm]
  by_cases hdl : action = "delete"
  · subst hdl
    simp [eq_comm]
  simp [hpl, hps, hdl, beq_false_of_ne]

def Known (action : String) : Prop := ∃ verb, (action, verb) ∈ actionVerbs

theorem known_iff : Known action ↔ action ∈ actionVerbs.map Prod.fst := by
  simp [Known, mem_map]

theorem isSome_lookup : (actionVerbs.lookup action).isSome ↔ Known action := by
  simp only [Option.isSome_iff_exists, lookup_actionVerbs, Known]

theorem mem_see : a ∈ see seen action ↔ a ∈ seen ∨ Known a ∧ (a = action ∨ "*" = action) := by
  have hfl : ∀ (keys seen : List String),
      a ∈ keys.foldl (fun seen known => seen.insert known) seen ↔ a ∈ seen ∨ a ∈ keys := by
    intro keys
    induction keys with
    | nil => simp
    | cons key keys ih =>
      intro seen
      rw [foldl_cons, ih, mem_insert_iff, mem_cons, or_comm (a := a = key), or_assoc]
  unfold see
  split_ifs with hst hkn
  · rw [hfl, ← known_iff]
    simp [hst]
  · rw [isSome_lookup] at hkn
    rw [mem_insert_iff, eq_false (Ne.symm hst), or_false, or_comm]
    refine or_congr_right ⟨?_, And.right⟩
    rintro rfl
    exact ⟨hkn, rfl⟩
  · rw [isSome_lookup] at hkn
    rw [eq_false (Ne.symm hst), or_false, or_iff_left]
    rintro ⟨ha, rfl⟩
    exact hkn ha

theorem nodup_see (h : seen.Nodup) (action : String) : (see seen action).Nodup := by
  have hfl : ∀ (keys seen : List String), seen.Nodup →
      (keys.foldl (fun seen known => seen.insert known) seen).Nodup := by
    intro keys
    induction keys with
    | nil => exact fun _ => id
    | cons key keys ih => exact fun seen hsn => ih _ hsn.insert
  unfold see
  split_ifs
  · exact hfl _ seen h
  · exact h.insert
  · exact h

theorem mem_foldl_see {asked : List String} :
    a ∈ asked.foldl see seen ↔ a ∈ seen ∨ Known a ∧ (a ∈ asked ∨ "*" ∈ asked) := by
  induction asked generalizing seen with
  | nil => simp
  | cons action asked ih =>
    rw [foldl_cons, ih, mem_see, mem_cons, mem_cons]
    tauto

theorem nodup_foldl_see (asked : List String) (h : seen.Nodup) : (asked.foldl see seen).Nodup := by
  induction asked generalizing seen with
  | nil => exact h
  | cons action asked ih => exact ih (nodup_see h action)

/-! ## One scope -/

theorem splitN_scope {scope actions : String} (h : Reponame.valid name) :
    splitN ':' 3 scope = ["repository", name, actions] ↔
      scope = "repository:" ++ name ++ ":" ++ actions := by
  have hnm : ':' ∉ name.toList := Reponame.not_mem_of_valid h (by decide)
  rw [splitN_three]
  exact and_iff_left ⟨by decide, hnm⟩

theorem parseScope_eq_some {scope : String} :
    parseScope scope = some request ↔
      ∃ name actions, scope = "repository:" ++ name ++ ":" ++ actions ∧ Reponame.valid name ∧
        (split actions ',').foldl see [] ≠ [] ∧
        request = ⟨"repository", name, sortBy id ((split actions ',').foldl see [])⟩ := by
  unfold parseScope
  constructor
  · intro h
    split at h
    · rename_i type name actions hsp
      by_cases hty : type = "repository"
      · subst hty
        rw [if_neg (not_not.mpr rfl)] at h
        cases hrp : Authz.repository name with
        | error err =>
          rw [hrp] at h
          cases h
        | ok resource =>
          have hvl := Authz.valid_of_repository hrp
          rw [hrp] at h
          obtain ⟨hsn, hrq⟩ := Option.ite_none_left_eq_some.mp h
          exact ⟨name, actions, (splitN_scope hvl).mp hsp, hvl, hsn,
            (Option.some.inj hrq).symm⟩
      · rw [if_pos hty] at h
        cases h
    · cases h
  · rintro ⟨name, actions, hsc, hvl, hsn, rfl⟩
    rw [(splitN_scope hvl).mpr hsc]
    simp only [ne_eq, not_true_eq_false, if_false, Authz.repository_eq_ok hvl, if_neg hsn]

def Asks (scope name a : String) : Prop :=
  ∃ actions, scope = "repository:" ++ name ++ ":" ++ actions ∧
    (a ∈ split actions ',' ∨ "*" ∈ split actions ',')

theorem mem_parseScopes {values : List String} :
    (∃ request ∈ parseScopes values, request.name = name ∧ a ∈ request.actions) ↔
      Reponame.valid name ∧ Known a ∧ ∃ value ∈ values, ∃ scope ∈ fields value,
        Asks scope name a := by
  simp only [parseScopes, mem_flatMap, mem_filterMap, parseScope_eq_some]
  constructor
  · rintro ⟨_, ⟨value, hvl, scope, hsc, _, actions, htx, hvd, -, rfl⟩, rfl, ha⟩
    rw [mem_sortBy, mem_foldl_see, eq_false not_mem_nil, false_or] at ha
    exact ⟨hvd, ha.1, value, hvl, scope, hsc, actions, htx, ha.2⟩
  · rintro ⟨hvd, hkn, value, hvl, scope, hsc, actions, htx, ha⟩
    have hmem : a ∈ (split actions ',').foldl see [] := mem_foldl_see.mpr (.inr ⟨hkn, ha⟩)
    exact ⟨_, ⟨value, hvl, scope, hsc, name, actions, htx, hvd,
      ne_nil_of_mem hmem, rfl⟩, rfl, mem_sortBy.mpr hmem⟩

theorem wellFormed_of_mem_parseScopes {values : List String} (h : request ∈ parseScopes values) :
    request.type = "repository" ∧ Reponame.valid request.name ∧ request.actions.Nodup := by
  simp only [parseScopes, mem_flatMap, mem_filterMap, parseScope_eq_some] at h
  obtain ⟨_, -, _, -, name, actions, -, hvl, -, rfl⟩ := h
  exact ⟨rfl, hvl, (perm_sortBy _).nodup_iff.mpr (nodup_foldl_see _ nodup_nil)⟩

/-! ## The grant -/

theorem grantOne_eq_some {bindings : List Authz.Binding} {entry : ResourceActions}
    (h : Reponame.valid request.name) :
    grantOne bindings request = some entry ↔
      entry.actions ≠ [] ∧ entry =
        { request with
          actions :=
            request.actions.filter (permits bindings (.repository ⟨request.name, h⟩)) } := by
  rw [grantOne, Authz.repository_eq_ok h]
  simp only [gt_iff_lt, length_pos_iff]
  rw [Option.ite_none_right_eq_some, Option.some.injEq]
  constructor
  · rintro ⟨hne, rfl⟩
    exact ⟨hne, rfl⟩
  · rintro ⟨hne, rfl⟩
    exact ⟨hne, rfl⟩

/-- **A token claims the request intersected with the permission.** An action on a repository is in
the claim exactly when some scope of some parameter asks for it by a legal name, it is a known
action, and its verb is allowed on that repository. No entry is without actions or repeats one. -/
theorem grant_exact (bindings : List Authz.Binding) (values : List String) :
    (∀ name a : String,
      (∃ entry ∈ grant bindings (parseScopes values),
        entry.type = "repository" ∧ entry.name = name ∧ a ∈ entry.actions) ↔
      ∃ value ∈ values, ∃ scope ∈ fields value, ∃ actions,
        scope = "repository:" ++ name ++ ":" ++ actions ∧
        (a ∈ split actions ',' ∨ "*" ∈ split actions ',') ∧
        ∃ (hname : Reponame.valid name) (verb : Authz.Verb),
          (a, verb) ∈ actionVerbs ∧
          (Authz.decide bindings verb (.repository ⟨name, hname⟩)).allowed = true) ∧
    ∀ entry ∈ grant bindings (parseScopes values),
      entry.type = "repository" ∧ entry.actions ≠ [] ∧ entry.actions.Nodup := by
  have hmem : ∀ entry, entry ∈ grant bindings (parseScopes values) ↔
      ∃ request ∈ parseScopes values, grantOne bindings request = some entry := fun entry =>
    mem_filterMap
  constructor
  · intro name a
    constructor
    · rintro ⟨entry, hen, -, rfl, ha⟩
      obtain ⟨request, hrq, hgr⟩ := (hmem entry).mp hen
      obtain ⟨-, hvl, -⟩ := wellFormed_of_mem_parseScopes hrq
      obtain ⟨-, rfl⟩ := (grantOne_eq_some hvl).mp hgr
      obtain ⟨hak, hal⟩ := mem_filter.mp ha
      obtain ⟨-, ⟨verb, hvr⟩, value, hva, scope, hsc, actions, htx, hac⟩ :=
        mem_parseScopes.mp ⟨request, hrq, rfl, hak⟩
      rw [permits, lookup_actionVerbs.mpr hvr] at hal
      exact ⟨value, hva, scope, hsc, actions, htx, hac, hvl, verb, hvr, hal⟩
    · rintro ⟨value, hva, scope, hsc, actions, htx, hac, hvl, verb, hvr, hal⟩
      obtain ⟨request, hrq, rfl, hak⟩ := mem_parseScopes.mpr
        ⟨hvl, ⟨verb, hvr⟩, value, hva, scope, hsc, actions, htx, hac⟩
      obtain ⟨hty, -, -⟩ := wellFormed_of_mem_parseScopes hrq
      have hkp : a ∈ request.actions.filter
          (permits bindings (.repository ⟨request.name, hvl⟩)) := by
        refine mem_filter.mpr ⟨hak, ?_⟩
        rw [permits, lookup_actionVerbs.mpr hvr]
        exact hal
      exact ⟨_, (hmem _).mpr ⟨request, hrq,
        (grantOne_eq_some hvl).mpr ⟨ne_nil_of_mem hkp, rfl⟩⟩, hty, rfl, hkp⟩
  · intro entry hen
    obtain ⟨request, hrq, hgr⟩ := (hmem entry).mp hen
    obtain ⟨hty, hvl, hnd⟩ := wellFormed_of_mem_parseScopes hrq
    obtain ⟨hne, rfl⟩ := (grantOne_eq_some hvl).mp hgr
    exact ⟨hty, hne, hnd.filter _⟩

end Trove.Authn.Token
