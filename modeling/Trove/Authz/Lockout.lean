import Trove.Authz.Roles

/-!
# Self-lockout prevention

Whether some subject could still administer roles and bindings after a change, asked of the bindings
each remaining subject would hold. The `without` helpers simulate the change on one subject's list.
-/

namespace Trove.Authz

/-- The verb a stored role names by its text. -/
def verbOf (text : String) : Verb := (verbs.find? (·.text = text)).getD (.unknown text)

/-- The refusal of a change that locks all out. -/
def errLastAdmin : String := "nobody would hold role:write at the system scope"

/-- The bindings grant role:write at the system. -/
def adminGrant (bindings : List Binding) : Bool := allows bindings .roleWrite .system

/-- Refuses a change that ends the last such grant. -/
def ensureAdminRemains (after : List (List Binding)) : Except String Unit :=
  if after.any adminGrant then .ok ()
  else .error (errLastAdmin ++
    ": grant role:write at system to another subject before removing this one")

/-- The bindings the test does not drop. -/
def without (bindings : List Binding) (drop : Binding → Bool) : List Binding :=
  bindings.filter fun b => !drop b

/-- The bindings once one is deleted. -/
def withoutBinding (bindings : List Binding) (id : String) : List Binding :=
  without bindings (·.id = id)

/-- The bindings once a role is deleted. -/
def withoutRole (bindings : List Binding) (role : String) : List Binding :=
  without bindings (·.role = role)

/-- The bindings not held through the group. -/
def withoutGroup (bindings : List Binding) (group : String) : List Binding :=
  without bindings (·.viaGroup = group)

theorem ensureAdminRemains_eq_ok {after : List (List Binding)} :
    ensureAdminRemains after = .ok () ↔ ∃ bindings ∈ after, adminGrant bindings = true := by
  unfold ensureAdminRemains
  split_ifs with h <;> simpa using h

end Trove.Authz
