import Trove.Authz.Decide
import Trove.Meta.Types

/-!
# Group resolution

Entities, group members and the resolution function: a fold over the members in position order that
stops at the first one that serves or at a required one that failed. A list that could not be
resolved deterministically is refused first. The members handed to the fold are a `MemberSet`, the
group's list as one subject may see it.
-/

namespace Trove.Repo

open Lib List Reponame

/-! ## Entities -/

def reservedPrefix : String := "system"

/-- The entity a name routes to and the remainder inside it. -/
def split (name : String) : Except Reponame.InvalidError (String × String) := do
  Reponame.validate name
  .ok ((Strings.cut name '/').1, (Strings.cut name '/').2.getD "")

inductive EntityReason
  | notName (reason : Reponame.Reason)
  | notOneSegment
  | reserved
  deriving DecidableEq

/-- A refused name, and why. -/
structure EntityError where
  name : String
  reason : EntityReason
  deriving DecidableEq

/-- One legal path segment, and not the reserved one. -/
def validateEntityName (name : String) : Except EntityError Unit :=
  match Reponame.validate name with
  | .error err => .error ⟨err.name, .notName err.reason⟩
  | .ok () =>
    if Strings.contains name '/' then .error ⟨name, .notOneSegment⟩
    else if name = reservedPrefix then .error ⟨name, .reserved⟩
    else .ok ()

theorem valid_of_cut {name entity remainder : String} (h : Reponame.valid name)
    (hcut : Strings.cut name '/' = (entity, some remainder)) : Reponame.valid remainder := by
  obtain ⟨rfl, hen⟩ := Strings.cut_eq_some.mp hcut
  obtain ⟨-, hlen, hmt⟩ := valid_iff_rmatch.mp h
  have hpc := pattern_rmatch_map (f := Reponame.classOf) rfl fun _ => eq_slash
  rw [hpc, String.toList_append, String.toList_append, String.toList_singleton,
    append_assoc, singleton_append, splitOn_append_cons_self] at hmt
  have hrs := fun piece hpi => hmt piece (mem_append_right _ hpi)
  refine valid_iff_rmatch.mpr ⟨?_, ?_, (hpc _).mpr hrs⟩
  · rintro rfl
    cases component_getLast? (hrs [] (by decide))
  · refine le_trans ?_ hlen
    rw [Strings.len, Strings.len, String.utf8ByteSize_append]
    omega

/-- **Names and scopes.** The names are the byte strings of the grammar; the scopes are the two
keywords, a name and a name followed by a wildcard, neither in the reserved entity; and a name is
split into its first component and a name, or nothing. -/
theorem names_and_scopes :
    (∀ name : List UInt8, Reponame.Accepts name ↔ 1 ≤ name.length ∧ name.length ≤ 255 ∧
      ∀ piece ∈ name.splitOn 0x2f, Reponame.IsComponent (piece.map Reponame.byteClass)) ∧
    (∀ s t, Authz.parseScope s = .ok t ↔ t = s ∧ (s = "system" ∨ s = "*" ∨
      Reponame.validate s = .ok () ∧ Reponame.prefixOf s ≠ "system" ∨
      ∃ root, s = root ++ "/*" ∧ Reponame.validate root = .ok () ∧
        Reponame.prefixOf root ≠ "system")) ∧
    ∀ name, Reponame.validate name = .ok () → ∃ remainder,
      split name = .ok (Reponame.prefixOf name, remainder) ∧
      (remainder = "" ∨ Reponame.validate remainder = .ok ()) ∧
      name = if remainder = "" then Reponame.prefixOf name
        else Reponame.prefixOf name ++ "/" ++ remainder := by
  refine ⟨accepts_iff, fun s t => ?_, fun name hnm => ?_⟩
  · rw [Authz.parseScope_eq_ok]
    refine and_congr_right fun _ => ⟨?_, ?_⟩
    · rintro ⟨form, hlg, rfl⟩
      cases form with
      | system => exact .inl rfl
      | all => exact .inr (.inl rfl)
      | exact name =>
        exact .inr (.inr (.inl ⟨validate_eq_ok.mpr name.isValid, hlg⟩))
      | under root =>
        exact .inr (.inr (.inr ⟨root.text, rfl, validate_eq_ok.mpr root.isValid, hlg⟩))
    · rintro (rfl | rfl | ⟨hvl, hlg⟩ | ⟨root, rfl, hvl, hlg⟩)
      · exact ⟨.system, trivial, rfl⟩
      · exact ⟨.all, trivial, rfl⟩
      · exact ⟨.exact ⟨s, validate_eq_ok.mp hvl⟩, hlg, rfl⟩
      · exact ⟨.under ⟨root, validate_eq_ok.mp hvl⟩, hlg, rfl⟩
  · refine ⟨_, by rw [split, hnm]; rfl, ?_⟩
    cases hcut : (Strings.cut name '/').2 with
    | none => exact ⟨.inl rfl, (Strings.cut_fst_of_none hcut).symm⟩
    | some remainder =>
      have hsm : Strings.cut name '/' = (Reponame.prefixOf name, some remainder) :=
        Prod.ext rfl hcut
      have hvl := valid_of_cut (validate_eq_ok.mp hnm) hsm
      have hne := (valid_iff_rmatch.mp hvl).1
      exact ⟨.inr (validate_eq_ok.mpr hvl), by
        rw [Option.getD_some, if_neg hne]
        exact (Strings.cut_eq_some.mp hsm).1⟩

/-! ## Members -/

inductive MemberOutcome
  | unasked
  | served
  | notFound
  | down
  | malformed
  deriving DecidableEq

structure MemberState where
  (repository content : String)
  type : Meta.RepositoryType
  position : ℤ
  required : Bool
  outcome : MemberOutcome
  deriving DecidableEq

/-- Why a member is passed over. -/
inductive SkipReason
  | down
  | malformed
  deriving DecidableEq

structure SkippedMember where
  repository : String
  position : ℤ
  reason : SkipReason

/-- Why a member list is refused. -/
inductive GroupReason
  | notEntity (err : EntityError)
  | nested
  | listedTwice
  | positionTaken (position : ℤ)
  | notAsked (outcome : MemberOutcome)
  deriving DecidableEq

structure GroupError where
  member : String
  reason : GroupReason
  deriving DecidableEq

/-- How a resolution ends. -/
inductive GroupOutcome
  | invalid
  | served
  | notFound
  | unavailable
  deriving DecidableEq

structure Resolution where
  reference : String
  outcome : GroupOutcome := .invalid
  member : String := ""
  position : ℤ := 0
  reason : Option SkipReason := none
  skipped : List SkippedMember := []
  err : Option GroupError := none

/-! ## The member set -/

/-- A group's member list as one subject may see it. -/
structure MemberSet where
  members : List MemberState
  deriving DecidableEq

/-- The subject's bindings allow reading the member's content. A member whose content is no legal
name is dropped with the unreadable ones. -/
def readable (bindings : List Authz.Binding) (m : MemberState) : Bool :=
  match Authz.repository m.content with
  | .error _ => false
  | .ok resource => Authz.allows bindings .repoRead resource

def visibleMembers (members : List MemberState) (bindings : List Authz.Binding) : MemberSet :=
  ⟨members.filter (readable bindings)⟩

def MemberState.fill (outcomes : String → Option MemberOutcome) (m : MemberState) : MemberState :=
  match outcomes m.repository with
  | some outcome => { m with outcome := outcome }
  | none => m

def MemberSet.withOutcomes (set : MemberSet) (outcomes : String → Option MemberOutcome) :
    MemberSet :=
  ⟨set.members.map (MemberState.fill outcomes)⟩

/-! ## Resolving -/

/-- The checks of `orderMembers`, with the names and positions seen so far. -/
def checkMembers (seenName : List String) (seenPosition : List ℤ) :
    List MemberState → Except GroupError Unit
  | [] => .ok ()
  | m :: ms =>
    match validateEntityName m.repository with
    | .error err => .error ⟨m.repository, .notEntity err⟩
    | .ok () =>
      if m.type = .group then .error ⟨m.repository, .nested⟩
      else if m.repository ∈ seenName then .error ⟨m.repository, .listedTwice⟩
      else if m.position ∈ seenPosition then .error ⟨m.repository, .positionTaken m.position⟩
      else checkMembers (m.repository :: seenName) (m.position :: seenPosition) ms

def orderMembers (members : List MemberState) : Except GroupError (List MemberState) := do
  checkMembers [] [] members
  .ok (sortBy MemberState.position members)

def MemberOutcome.skipReason : MemberOutcome → SkipReason
  | .malformed => .malformed
  | _ => .down

def resolveFrom (resolution : Resolution) : List MemberState → Resolution
  | [] => { resolution with outcome := .notFound }
  | m :: ms =>
    match m.outcome with
    | .served =>
      { resolution with outcome := .served, member := m.repository, position := m.position }
    | .notFound => resolveFrom resolution ms
    | .down | .malformed =>
      if m.required then
        { resolution with
          outcome := .unavailable
          member := m.repository
          position := m.position
          reason := some m.outcome.skipReason }
      else
        resolveFrom
          { resolution with
            skipped :=
              resolution.skipped ++ [⟨m.repository, m.position, m.outcome.skipReason⟩] } ms
    | .unasked =>
      { resolution with skipped := [], err := some ⟨m.repository, .notAsked m.outcome⟩ }

/-- `Resolve`. The list is checked whole before anything is resolved. -/
def resolve (set : MemberSet) (reference : String) : Resolution :=
  match orderMembers set.members with
  | .error err => { reference := reference, err := some err }
  | .ok ordered => resolveFrom { reference := reference } ordered

end Trove.Repo
