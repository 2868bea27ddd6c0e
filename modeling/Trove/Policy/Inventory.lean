import Trove.Lib.Search
import Trove.Lib.Sort
import Trove.Meta.Types

/-!
# Retention inventories

A retention evaluation runs over an inventory: one repository's manifests as of a single read, with
the edges between them and the subset a rule may select. `newInventory` builds it from a snapshot,
refusing a snapshot whose edges cannot be trusted. The maps of the source are functions here, since
they are built up and never ranged over.
-/

namespace Trove.Policy

open Lib Function
open Meta (Time)

abbrev Digest := String

structure Tag where
  name : String
  (isProtected isImmutable : Bool)
  deriving DecidableEq

/-- The tag-status filter of a rule. Only the first three are legal. -/
inductive TagStatus
  | anyTags
  | tagged
  | untagged
  | other (text : String)
  deriving DecidableEq

structure Manifest where
  digest : Digest
  tags : List Tag
  (pushedAt lastPulledAt : Time)
  (pullCount size : Int64)
  children : List Digest
  subject : Digest
  deriving DecidableEq

/-- In order. -/
def Manifest.tagNames (m : Manifest) : List String := sortBy id (m.tags.map Tag.name)

def Manifest.status (m : Manifest) : TagStatus :=
  if m.tags.length = 0 then .untagged else .tagged

/-- Why it is not selectable. -/
inductive ExclusionReason
  | protectedTag
  | immutableTag
  | indexChild
  | liveSubject
  deriving DecidableEq

/-- A manifest that is not selectable. -/
structure Exclusion where
  digest : Digest
  reason : ExclusionReason
  detail : String

/-- What was wrong with a snapshot. -/
inductive InventoryReason
  | noRepository
  | noDigest
  | listedTwice
  | noPushTime
  | negativeSize
  | negativePullCount
  | ownSubject
  | emptyTagName
  | tagTwice (name : String)
  | tagTaken (name : String) (owner : Digest)
  | emptyChild
  | ownChild
  | subjectCycle (path : List Digest)

/-- The row that was wrong, and how. -/
structure InventoryError where
  digest : Digest
  reason : InventoryReason

/-- What a policy is evaluated on. -/
structure Inventory where
  repository : String
  (manifests selectable : List Manifest)
  byDigest : Digest → Option Manifest
  excludedBy : Digest → List Exclusion
  referrers : Digest → List Digest
  indexParents : Digest → List Digest

/-! ## Reading the snapshot -/

def validateTags (digest : Digest) :
    List Tag → List String → (String → Option Digest) →
      Except InventoryError (String → Option Digest)
  | [], _, tagOwner => .ok tagOwner
  | tag :: tags, tagsHere, tagOwner =>
    if tag.name = "" then .error ⟨digest, .emptyTagName⟩
    else if tag.name ∈ tagsHere then .error ⟨digest, .tagTwice tag.name⟩
    else match tagOwner tag.name with
      | some owner => .error ⟨digest, .tagTaken tag.name owner⟩
      | none =>
        validateTags digest tags (tag.name :: tagsHere)
          (update tagOwner tag.name (some digest))

def validateChildren (digest : Digest) : List Digest → Except InventoryError Unit
  | [] => .ok ()
  | child :: children =>
    if child = "" then .error ⟨digest, .emptyChild⟩
    else if child = digest then .error ⟨digest, .ownChild⟩
    else validateChildren digest children

/-- The copy the inventory keeps: tags by name, children in order and without repetitions. -/
def Manifest.clone (m : Manifest) : Manifest :=
  { m with tags := sortBy Tag.name m.tags, children := compact (sortBy id m.children) }

/-- Checks one row; the result is the copy and the tag owners with its tags added. -/
def validateManifest (m : Manifest) (seen : Digest → Option Manifest)
    (tagOwner : String → Option Digest) :
    Except InventoryError (Manifest × (String → Option Digest)) :=
  if m.digest = "" then .error ⟨"", .noDigest⟩
  else if (seen m.digest).isSome then .error ⟨m.digest, .listedTwice⟩
  else if m.pushedAt = 0 then .error ⟨m.digest, .noPushTime⟩
  else if m.size < 0 then .error ⟨m.digest, .negativeSize⟩
  else if m.pullCount < 0 then .error ⟨m.digest, .negativePullCount⟩
  else if m.subject = m.digest then .error ⟨m.digest, .ownSubject⟩
  else do
    let tagOwner ← validateTags m.digest m.clone.tags [] tagOwner
    validateChildren m.digest m.clone.children
    .ok (m.clone, tagOwner)

/-- What the reading loop has built up. -/
structure Loading where
  byDigest : Digest → Option Manifest := fun _ => none
  manifests : List Manifest := []
  tagOwner : String → Option Digest := fun _ => none

def loadManifests : List Manifest → Loading → Except InventoryError Loading
  | [], loading => .ok loading
  | m :: rest, loading => do
    let (clone, tagOwner) ← validateManifest m loading.byDigest loading.tagOwner
    loadManifests rest
      { byDigest := update loading.byDigest clone.digest (some clone)
        manifests := loading.manifests ++ [clone]
        tagOwner }

/-! ## Edges -/

section Edges

variable (byDigest : Digest → Option Manifest)

def addReferrer (referrers : Digest → List Digest) (m : Manifest) : Digest → List Digest :=
  if m.subject ≠ "" ∧ (byDigest m.subject).isSome then appendAt referrers m.subject m.digest
  else referrers

def addParents (indexParents : Digest → List Digest) (m : Manifest) : Digest → List Digest :=
  m.children.foldl (fun parents child =>
    if (byDigest child).isSome then appendAt parents child m.digest else parents) indexParents

/-- The colours of the subject walk. -/
inductive Mark
  | unvisited
  | onPath
  | settled
  deriving DecidableEq

def settle (path : List Digest) (state : Digest → Mark) : Digest → Mark :=
  path.foldl (fun state node => update state node .settled) state

/-- One walk along the subjects from `current`. A node of its own path is a cycle. Each round marks
a node of the snapshot or stops, so `fuel` above their number is never used up. -/
def walk : ℕ → (Digest → Mark) → List Digest → Digest → Except InventoryError (Digest → Mark)
  | 0, state, path, _ => .ok (settle path state)
  | fuel + 1, state, path, current =>
    match state current with
    | .onPath => .error ⟨current, .subjectCycle path⟩
    | .settled => .ok (settle path state)
    | .unvisited =>
      let state := update state current .onPath
      let path := path ++ [current]
      match byDigest current with
      | none => .ok (settle path state)
      | some next =>
        if next.subject = "" then .ok (settle path state)
        else walk fuel state path next.subject

def checkCycles (fuel : ℕ) : List Manifest → (Digest → Mark) → Except InventoryError Unit
  | [], _ => .ok ()
  | start :: rest, state =>
    if state start.digest ≠ .unvisited then checkCycles fuel rest state
    else do checkCycles fuel rest (← walk byDigest fuel state [] start.digest)

def exclusionReasons (indexParents : Digest → List Digest) (m : Manifest) : List Exclusion :=
  (m.tags.flatMap fun tag =>
    (if tag.isProtected then [⟨m.digest, .protectedTag, tag.name⟩] else []) ++
      if tag.isImmutable then [⟨m.digest, .immutableTag, tag.name⟩] else []) ++
  (if (indexParents m.digest).length > 0 then
    [⟨m.digest, .indexChild, ", ".intercalate (indexParents m.digest)⟩] else []) ++
  if m.subject ≠ "" ∧ (byDigest m.subject).isSome then [⟨m.digest, .liveSubject, m.subject⟩] else []

end Edges

def exclude (reasons : Manifest → List Exclusion) (excludedBy : Digest → List Exclusion)
    (m : Manifest) : Digest → List Exclusion :=
  if (reasons m).length = 0 then excludedBy else update excludedBy m.digest (reasons m)

/-- The inventory of the manifests in digest order: `buildEdges` without its cycle check, and
`buildSelectable`. -/
def assemble (repository : String) (manifests : List Manifest)
    (byDigest : Digest → Option Manifest) : Inventory :=
  let referrers := manifests.foldl (addReferrer byDigest) fun _ => []
  let parents := manifests.foldl (addParents byDigest) fun _ => []
  let indexParents := fun child => sortBy id (parents child)
  let reasons := exclusionReasons byDigest indexParents
  { repository
    manifests
    byDigest
    indexParents
    referrers := fun subject => sortBy id (referrers subject)
    selectable := manifests.filter fun m => (reasons m).length = 0
    excludedBy := manifests.foldl (exclude reasons) fun _ => [] }

def newInventory (repository : String) (manifests : List Manifest) :
    Except InventoryError Inventory :=
  if repository = "" then .error ⟨"", .noRepository⟩
  else do
    let loaded ← loadManifests manifests {}
    let sorted := sortBy Manifest.digest loaded.manifests
    checkCycles loaded.byDigest (sorted.length + 1) sorted fun _ => .unvisited
    .ok (assemble repository sorted loaded.byDigest)

def Inventory.referrerSubtree (inv : Inventory) (digest : Digest) : List Digest :=
  sortBy id (reach inv.referrers (inv.manifests.length + 1) digest)

end Trove.Policy
