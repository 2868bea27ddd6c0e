import Trove.Policy.Rules

/-!
# Retention plans

`evaluate` turns an inventory and a rule set into a plan: the manifests to delete, each with the
referrers that die with it, the selections that are refused because the cascade would reach a
protected manifest, and every manifest that survives with the reason.
-/

namespace Trove.Policy

open Lib
open Meta (Time)

/-- One member of an entry's cascade. -/
structure Referrer where
  (digest subject : Digest)
  size : Int64
  artifactTags : List String

/-- One manifest the plan deletes. -/
structure Entry where
  digest : Digest
  tags : List String
  size : Int64
  rule : String
  ruleKind : RuleKind
  priority : ℤ
  alsoSelectedBy : List String
  referrers : List Referrer

def Entry.totalSize (e : Entry) : Int64 :=
  e.referrers.foldl (fun total referrer => total + referrer.size) e.size

/-- Selected, and not deleted. -/
structure BlockedEntry where
  digest : Digest
  tags : List String
  rule : String
  ruleKind : RuleKind
  priority : ℤ
  referrer : Digest
  blocker : Exclusion

/-- Why a manifest survives. -/
inductive KeptReason
  | byRule
  | noRuleApplies
  | notSelectable
  deriving DecidableEq

/-- A manifest that survives. -/
structure KeptEntry where
  digest : Digest
  tags : List String
  reason : KeptReason
  rule : String := ""
  ruleKind : RuleKind := .other ""
  priority : ℤ := 0
  alsoKeptBy : List String := []
  exclusions : List Exclusion := []

/-- What becomes of each manifest. -/
structure Plan where
  repository : String
  evaluatedAt : Time
  selected : List Entry
  blocked : List BlockedEntry
  kept : List KeptEntry

def Plan.cascaded (p : Plan) : List Referrer := p.selected.flatMap Entry.referrers

def Plan.digests (p : Plan) : List Digest :=
  sortBy id (p.selected.flatMap fun e => e.digest :: e.referrers.map Referrer.digest)

/-! ## Building the plan -/

/-- The first cascade member with protection of its own: other than being attached to a live
subject. -/
def firstProtectedReferrer (inv : Inventory) : List Digest → Option (Digest × Exclusion)
  | [] => none
  | digest :: subtree =>
    match (inv.excludedBy digest).find? (·.reason ≠ .liveSubject) with
    | some exclusion => some (digest, exclusion)
    | none => firstProtectedReferrer inv subtree

def Manifest.zero : Manifest where
  digest := ""
  tags := []
  pushedAt := 0
  lastPulledAt := 0
  pullCount := 0
  size := 0
  children := []
  subject := ""

def referrerEntry (inv : Inventory) (digest : Digest) : Referrer :=
  let attached := (inv.byDigest digest).getD Manifest.zero
  { digest, subject := attached.subject, size := attached.size, artifactTags := attached.tagNames }

/-- What the first loop of `buildPlan` has built up: the two entry lists and the three sets of
digests accounted for. -/
structure Draft where
  selectedEntries : List Entry := []
  blockedEntries : List BlockedEntry := []
  cascading : List Digest := []
  selected : List Digest := []
  blocked : List Digest := []

/-- The first loop's body. -/
def Draft.add (inv : Inventory) (verdicts : Digest → Verdict) (draft : Draft) (m : Manifest) :
    Draft :=
  let decided := verdicts m.digest
  if !decided.applicable || decided.keep then draft
  else
    let subtree := inv.referrerSubtree m.digest
    match firstProtectedReferrer inv subtree with
    | some (pinned, blocker) =>
      { draft with
        blockedEntries := draft.blockedEntries ++
          [{ digest := m.digest, tags := m.tagNames, rule := decided.rule,
             ruleKind := decided.kind, priority := decided.priority, referrer := pinned, blocker }]
        blocked := draft.blocked ++ [m.digest] }
    | none =>
      { draft with
        selectedEntries := draft.selectedEntries ++
          [{ digest := m.digest, tags := m.tagNames, size := m.size, rule := decided.rule,
             ruleKind := decided.kind, priority := decided.priority,
             alsoSelectedBy := decided.agreeing, referrers := subtree.map (referrerEntry inv) }]
        cascading := draft.cascading ++ subtree
        selected := draft.selected ++ [m.digest] }

def Draft.accounted (draft : Draft) (digest : Digest) : Bool :=
  digest ∈ draft.selected || digest ∈ draft.cascading || digest ∈ draft.blocked

/-- Explains one survivor. -/
def keptEntry (inv : Inventory) (m : Manifest) (decided : Verdict) : KeptEntry :=
  if (inv.excludedBy m.digest).length > 0 then
    { digest := m.digest, tags := m.tagNames, reason := .notSelectable,
      exclusions := inv.excludedBy m.digest }
  else if !decided.applicable then
    { digest := m.digest, tags := m.tagNames, reason := .noRuleApplies }
  else
    { digest := m.digest, tags := m.tagNames, reason := .byRule, rule := decided.rule,
      ruleKind := decided.kind, priority := decided.priority, alsoKeptBy := decided.agreeing }

def buildPlan (inv : Inventory) (verdicts : Digest → Verdict) (now : Time) : Plan :=
  let draft := inv.selectable.foldl (Draft.add inv verdicts) {}
  { repository := inv.repository
    evaluatedAt := now
    selected := draft.selectedEntries
    blocked := draft.blockedEntries
    kept := (inv.manifests.filter fun m => !draft.accounted m.digest).map fun m =>
      keptEntry inv m (verdicts m.digest) }

/-! ## Evaluation -/

/-- Why there is no plan. -/
inductive EvaluateError
  | noInventory
  | noEvaluationTime
  | conflict (conflicts : List Conflict)

def decideOne (opinions : Digest → List Opinion)
    (decided : (Digest → Verdict) × List Conflict) (m : Manifest) :
    (Digest → Verdict) × List Conflict :=
  match resolve m.digest (opinions m.digest) with
  | .error conflict => (decided.1, decided.2 ++ [conflict])
  | .ok verdict => (Function.update decided.1 m.digest verdict, decided.2)

def evaluate (inventory : Option Inventory) (rules : List CompiledRule) (now : Time) :
    Except EvaluateError Plan :=
  match inventory with
  | none => .error .noInventory
  | some inv =>
    if now = 0 then .error .noEvaluationTime
    else
      let opinions := gatherOpinions inv.selectable rules now
      let (verdicts, conflicts) := inv.selectable.foldl (decideOne opinions) (fun _ => {}, [])
      if conflicts.length > 0 then .error (.conflict conflicts)
      else .ok (buildPlan inv verdicts now)

/-! ## Summary -/

/-- The plan in numbers. -/
structure Summary where
  (manifests selected cascaded blocked kept : ℕ)
  bytes : Int64
  keptBecause : List (KeptReason × ℕ)

def Plan.summary (p : Plan) : Summary :=
  let selected := p.selected.length
  let blocked := p.blocked.length
  let kept := p.kept.length
  let cascaded := p.selected.foldl (fun n e => n + e.referrers.length) 0
  let counts := fun reason => p.kept.countP (·.reason = reason)
  { selected
    blocked
    kept
    cascaded
    bytes := p.selected.foldl (fun total e => total + e.totalSize) 0
    manifests := selected + cascaded + blocked + kept
    keptBecause := [.byRule, .noRuleApplies, .notSelectable].filterMap fun reason =>
      if counts reason > 0 then some (reason, counts reason) else none }

/-! ## A small repository -/

def Manifest.untagged (digest : Digest) (pushedAt : Time) (subject : Digest) : Manifest where
  digest
  tags := []
  pushedAt
  lastPulledAt := 0
  pullCount := 0
  size := 10
  children := []
  subject

def sampleSnapshot : List Manifest :=
  [{ Manifest.untagged "idx" 4 "" with
      tags := [{ name := "v1", isProtected := true, isImmutable := false }], children := ["arm"] },
    Manifest.untagged "sig" 3 "sbom", Manifest.untagged "sbom" 2 "img",
    Manifest.untagged "img" 1 "", Manifest.untagged "arm" 1 ""]

def reapUntagged (name : String) (priority : ℤ) : CompiledRule where
  name
  priority
  kind := .selectMatched
  n := 0
  age := 0
  tagStatus := .untagged
  includeTags := []
  excludeTags := []
  includes := []
  excludes := []

def keepRecent (name : String) (priority : ℤ) (age : ℤ) : CompiledRule :=
  { reapUntagged name priority with kind := .keepNewerThan, age, tagStatus := .anyTags }

end Trove.Policy
