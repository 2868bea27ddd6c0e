import Trove.Blob.Store
import Trove.Meta.Collection

/-!
# Requests in flight

A request is a thread: the calls it makes to the stores, one step each, and the phase it is in
between two of them. Other requests and the collector run between any two steps. The quota is the
source's default, which refuses nothing.

Each kind of thread has one lemma, `step_cases`, that says everything one of its steps can do to the
shared state; what holds over whole runs is derived from these lemmas alone.
-/

namespace Trove.Registry

open Meta

/-- What a handler answered. -/
inductive Response
  | created
  | accepted
  | refused (status : ℕ) (code message : String)
  | digestInvalid (error : Blob.Error)
  deriving DecidableEq

def internalError : Response := .refused 500 "UNKNOWN" "internal error"

def nameUnknown : Response := .refused 404 "NAME_UNKNOWN" "repository name not known to registry"

/-- What an outside observer saw. -/
inductive Event
  | acked (digest : Digest) (at_ : Time)
  | swept (digest : Digest) (before : Time)
  deriving DecidableEq

/-- What every thread reads and writes: the metadata store, the hosted blob store, the clock and
the events so far, newest first. -/
structure Shared where
  store : Store
  bytes : Blob.Store
  clock : Time
  log : List Event

def Shared.HasRow (sh : Shared) (d : Digest) : Prop := (sh.store.blobs.lookup d).isSome

def Shared.HasBytes (sh : Shared) (d : Digest) : Prop := (sh.bytes.blobs.lookup d).isSome

instance (sh : Shared) (d : Digest) : Decidable (sh.HasRow d) :=
  inferInstanceAs (Decidable (_ = true))

instance (sh : Shared) (d : Digest) : Decidable (sh.HasBytes d) :=
  inferInstanceAs (Decidable (_ = true))

def hostedRepo (s : Store) (name : String) : Except Response Unit :=
  if Reponame.valid name = false then .error nameUnknown
  else match s.getRepository (entityOf name) with
    | .error _ => .error nameUnknown
    | .ok record =>
      if record.type = .hosted then .ok ()
      else .error (.refused 403 "DENIED" "repository does not accept client writes")

/-- A step that writes no blob row, no manifest, no edge, no hosted bytes and no event. -/
structure Shared.Quiet (sh sh' : Shared) : Prop where
  rows : sh'.store.blobs = sh.store.blobs
  manifests : sh'.store.manifests = sh.store.manifests
  refs : sh'.store.refs = sh.store.refs
  bytes : sh'.bytes.blobs = sh.bytes.blobs
  log : sh'.log = sh.log

theorem Shared.Quiet.refl (sh : Shared) : sh.Quiet sh := ⟨rfl, rfl, rfl, rfl, rfl⟩

end Trove.Registry
