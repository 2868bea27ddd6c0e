import Trove.Authz.Decide

/-!
# The built-in roles

Three of the roles are derived from the vocabulary of verbs, the others are listed. The verbs of a
role are in order, and so are the roles.
-/

namespace Trove.Authz

open Lib Lib.Strings

/-- The verb as it is stored. -/
def Verb.text : Verb → String
  | .repoList => "repo:list"
  | .repoRead => "repo:read"
  | .repoWrite => "repo:write"
  | .tagDelete => "tag:delete"
  | .manifestDelete => "manifest:delete"
  | .referrerRead => "referrer:read"
  | .repoCreate => "repo:create"
  | .repoConfigure => "repo:configure"
  | .repoDelete => "repo:delete"
  | .scanRead => "scan:read"
  | .scanTrigger => "scan:trigger"
  | .policyRead => "policy:read"
  | .policyWrite => "policy:write"
  | .policyApply => "policy:apply"
  | .gateOverride => "gate:override"
  | .proxyRead => "proxy:read"
  | .proxyWrite => "proxy:write"
  | .proxyCredentials => "proxy:credentials"
  | .quotaRead => "quota:read"
  | .quotaWrite => "quota:write"
  | .webhookRead => "webhook:read"
  | .webhookWrite => "webhook:write"
  | .searchRead => "search:read"
  | .userRead => "user:read"
  | .userWrite => "user:write"
  | .roleRead => "role:read"
  | .roleWrite => "role:write"
  | .auditRead => "audit:read"
  | .gcRun => "gc:run"
  | .systemMaintenance => "system:maintenance"
  | .unknown text => text

/-- The closed set of verbs. -/
def verbs : List Verb :=
  [.repoList, .repoRead, .repoWrite, .tagDelete, .manifestDelete, .referrerRead,
    .repoCreate, .repoConfigure, .repoDelete,
    .scanRead, .scanTrigger,
    .policyRead, .policyWrite, .policyApply, .gateOverride,
    .proxyRead, .proxyWrite, .proxyCredentials,
    .quotaRead, .quotaWrite, .webhookRead, .webhookWrite, .searchRead,
    .userRead, .userWrite, .roleRead, .roleWrite, .auditRead, .gcRun, .systemMaintenance]

/-- In the order of their texts. -/
def sortVerbs (verbs : List Verb) : List Verb := sortBy Verb.text verbs

theorem sortBy_text_sortVerbs (verbs : List Verb) :
    sortBy id ((sortVerbs verbs).map Verb.text) = (sortVerbs verbs).map Verb.text := by
  have hmap (l : List Verb) : sortBy id (l.map Verb.text) = (sortBy Verb.text l).map Verb.text :=
    sortBy_map (fun _ => rfl) l
  rw [hmap, sortVerbs, sortBy_sortBy]

def allVerbs : List Verb := sortVerbs verbs

/-- Those that start with none of the texts. -/
def verbsExcept (starts : List String) : List Verb :=
  allVerbs.filter fun verb => !starts.any (hasPrefix verb.text)

/-- Listing, and all that only read. -/
def readVerbs : List Verb := .repoList :: allVerbs.filter fun verb => hasSuffix verb.text ":read"

/-- A role as it ships. -/
structure Role where
  name : String
  builtin : Bool
  verbs : List Verb

def roleAdmin : String := "admin"
def roleOperator : String := "operator"
def rolePublisher : String := "publisher"
def roleDeveloper : String := "developer"
def roleAuditor : String := "auditor"
def roleAnonymousReader : String := "anonymous-reader"

/-- Its verbs are put in order. -/
def builtinRole (name : String) (verbs : List Verb) : Role := ⟨name, true, sortVerbs verbs⟩

/-- The six roles that ship. -/
def builtinRoles : List Role := sortBy Role.name [
  builtinRole roleAdmin allVerbs,
  builtinRole roleOperator (verbsExcept ["user:", "role:"]),
  builtinRole rolePublisher
    [.repoList, .repoRead, .repoWrite, .tagDelete, .referrerRead, .scanRead, .searchRead],
  builtinRole roleDeveloper [.repoList, .repoRead, .referrerRead, .scanRead, .searchRead],
  builtinRole roleAuditor readVerbs,
  builtinRole roleAnonymousReader [.repoList, .repoRead, .referrerRead]]

theorem perm_names_builtinRoles : (builtinRoles.map Role.name).Perm
    [roleAdmin, roleOperator, rolePublisher, roleDeveloper, roleAuditor, roleAnonymousReader] :=
  (perm_sortBy _).map Role.name

theorem nodup_names_builtinRoles : (builtinRoles.map Role.name).Nodup :=
  perm_names_builtinRoles.nodup_iff.mpr (by decide)

theorem exists_roleAdmin : ∃ role ∈ builtinRoles, role.name = roleAdmin :=
  List.mem_map.mp (perm_names_builtinRoles.mem_iff.mpr (by decide))

theorem eq_builtinRole {role : Role} (h : role ∈ builtinRoles) :
    ∃ name verbs, name ≠ "" ∧ role = builtinRole name verbs := by
  rw [builtinRoles, mem_sortBy] at h
  simp only [List.mem_cons, List.not_mem_nil, or_false] at h
  rcases h with rfl | rfl | rfl | rfl | rfl | rfl <;> exact ⟨_, _, by decide, rfl⟩

end Trove.Authz
