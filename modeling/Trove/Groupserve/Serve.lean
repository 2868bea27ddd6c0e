import Trove.Repo.Group

/-!
# Serving a group

The group repository's reads: the stored members are filtered by what the subject may read, asked in
position order until one serves, and their outcomes resolved. The store, the bindings and the
delegates that serve members are parameters. The variable that the read closure of `Manifest` and
`Blob` assigns is threaded through the loop as `served`.
-/

namespace Trove.Groupserve

open Lib

structure StoreError where
  isNotFound : Bool
  text : String
  deriving DecidableEq

inductive ContentError
  | contentUnknown
  | other (text : String)

/-- A manifest as it is served. -/
structure ServedManifest where
  (digest mediaType : String)
  payload : List UInt8
  deriving DecidableEq

structure ServedBlob where
  stream : ℕ
  size : ℤ
  digest : String

/-- What one delegate would answer. -/
structure ContentServer where
  manifest : String → String → Except ContentError ServedManifest
  blob : String → String → Except ContentError ServedBlob

/-- A stored row of a group. -/
structure GroupMember where
  repository : String
  position : ℤ
  required : Bool

/-- What a group is served from. -/
structure Server where
  getRepository : String → Except StoreError Meta.Repository
  listGroupMembers : String → Except StoreError (List GroupMember)
  fetchBindings : String → Except String (List Authz.Binding)
  (hosted proxy : Option ContentServer)
  publishes : Bool

/-- How a resolution fails. The first four are `registry.ErrContentUnknown` to the caller. -/
inductive ResolveError
  | badName (err : Reponame.InvalidError)
  | noGroup
  | notGroup (group : String) (type : Meta.RepositoryType)
  | contentUnknown
  | upstreamUnavailable
  | readGroup (group : String) (err : StoreError)
  | readMembers (group : String) (err : StoreError)
  | noSubject
  | readBindings (subject : String) (err : String)
  | readMember (member : String) (err : StoreError)
  | invalidGroup (group : String) (err : Option Repo.GroupError)
  deriving DecidableEq

/-- `group.member.skipped`. -/
structure SkipEvent where
  (group member reference : String)
  reason : Repo.SkipReason
  deriving DecidableEq

def contentNameFor (member remainder : String) : String :=
  if remainder = "" then member else member ++ "/" ++ remainder

namespace Server

variable (s : Server)

def typeOf (member : String) : Except ResolveError Meta.RepositoryType :=
  match s.getRepository member with
  | .error err => .error (.readMember member err)
  | .ok record => .ok record.type

def candidate (remainder : String) (row : GroupMember) : Except ResolveError Repo.MemberState := do
  let type ← s.typeOf row.repository
  .ok {
    repository := row.repository
    content := contentNameFor row.repository remainder
    type := type
    position := row.position
    required := row.required
    outcome := .unasked }

def visibleMembers (subject : Option String) (stored : List GroupMember) (remainder : String) :
    Except ResolveError Repo.MemberSet :=
  match subject with
  | none => .error .noSubject
  | some subject =>
    match s.fetchBindings subject with
    | .error err => .error (.readBindings subject err)
    | .ok bindings => do
      let candidates ← stored.mapM (s.candidate remainder)
      .ok (Repo.visibleMembers candidates bindings)

def delegateFor (m : Repo.MemberState) : Except Repo.MemberOutcome ContentServer :=
  match m.type with
  | .hosted => s.hosted.elim (.error .down) .ok
  | .proxy => s.proxy.elim (.error .down) .ok
  | .group => .error .down

end Server

/-- A delegate's answer as the outcome the resolution ranks on. -/
def outcomeOf {γ : Type} : Except ContentError γ → Repo.MemberOutcome
  | .ok _ => .served
  | .error .contentUnknown => .notFound
  | .error (.other _) => .down

/-- In resolution order. -/
def sortByPosition (members : List Repo.MemberState) : List Repo.MemberState :=
  sortBy Repo.MemberState.position members

/-- One read against one delegate. -/
abbrev Ask (γ : Type) := ContentServer → String → Except ContentError γ

abbrev Asked (γ : Type) := (String → Option Repo.MemberOutcome) × Option γ

namespace Server

variable {γ : Type} (s : Server) (attempt : Ask γ)

/-- The loop of `askMembers`: stops at the first member that serves. -/
def askFrom : Asked γ → List Repo.MemberState → Asked γ
  | asked, [] => asked
  | (outcomes, served), m :: ms =>
    match s.delegateFor m with
    | .error outcome => askFrom (Function.update outcomes m.repository (some outcome), served) ms
    | .ok delegate =>
      let answer := attempt delegate m.content
      let outcomes := Function.update outcomes m.repository (some (outcomeOf answer))
      match answer with
      | .ok content => (outcomes, some content)
      | .error _ => askFrom (outcomes, served) ms

def askMembers (members : List Repo.MemberState) : Asked γ :=
  s.askFrom attempt (fun _ => none, none) (sortByPosition members)

def publishSkips (group : String) (resolution : Repo.Resolution) : List SkipEvent :=
  if s.publishes then
    resolution.skipped.map fun m => ⟨group, m.repository, resolution.reference, m.reason⟩
  else []

end Server

/-- What a resolution leaves: its error if any, what the read closure last got, and the events. -/
structure Run (γ : Type) where
  result : Except ResolveError Unit
  served : Option γ
  events : List SkipEvent

def Run.fail {γ : Type} (err : ResolveError) : Run γ := ⟨.error err, none, []⟩

def resultOf (group : String) (resolution : Repo.Resolution) : Except ResolveError Unit :=
  match resolution.outcome with
  | .served => .ok ()
  | .notFound => .error .contentUnknown
  | .unavailable => .error .upstreamUnavailable
  | .invalid => .error (.invalidGroup group resolution.err)

namespace Server

variable {γ : Type} (s : Server)

/-- Filter, ask, and decide. -/
def resolve (subject : Option String) (name reference : String) (attempt : Ask γ) : Run γ :=
  match Repo.split name with
  | .error err => Run.fail (.badName err)
  | .ok (group, remainder) =>
    match s.getRepository group with
    | .error err => if err.isNotFound then Run.fail .noGroup else Run.fail (.readGroup group err)
    | .ok record =>
      if record.type ≠ .group then Run.fail (.notGroup group record.type)
      else
        match s.listGroupMembers group with
        | .error err => Run.fail (.readMembers group err)
        | .ok stored =>
          match s.visibleMembers subject stored remainder with
          | .error err => Run.fail err
          | .ok visible =>
            let asked := s.askMembers attempt visible.members
            let resolution := Repo.resolve (visible.withOutcomes asked.1) reference
            ⟨resultOf name resolution, asked.2, s.publishSkips name resolution⟩

end Server

def Run.response {γ : Type} (run : Run γ) : Except ResolveError (Option γ) :=
  match run.result with
  | .error err => .error err
  | .ok () => .ok run.served

namespace Server

variable (s : Server)

def manifest (subject : Option String) (name reference : String) :
    Except ResolveError (Option ServedManifest) × List SkipEvent :=
  let run := s.resolve subject name reference fun member content =>
    member.manifest content reference
  (run.response, run.events)

/-- The events it published, and the stream it closed: that of a member that answered when the
resolution then failed. -/
def blob (subject : Option String) (name digest : String) :
    Except ResolveError (Option ServedBlob) × List SkipEvent × Option ServedBlob :=
  let run := s.resolve subject name digest fun member content => member.blob content digest
  (run.response, run.events, match run.result with
    | .error _ => run.served
    | .ok () => none)

end Server

end Trove.Groupserve
