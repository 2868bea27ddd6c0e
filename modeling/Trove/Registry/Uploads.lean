import Trove.Registry.Shared

/-!
# Blob uploads

A push stores the bytes first and records the blob row second. A mount answers as a push does and
writes nothing; when it cannot, the request opens an upload session instead.
-/

namespace Trove.Registry

open Meta

/-! ## Blob push -/

structure PushRequest where
  name : String
  digest : Digest
  body : Blob.Content
  session : Option String

inductive PushPhase
  | route
  | openRow (id : String)
  | openBytes (id : String)
  | write (id : String)
  | bytes
  | discard (id : String) (error : Blob.Error)
  | stamp (size : ℤ)
  | row (size : ℤ) (createdAt : Time)
  | clear (id : String)
  | answer
  | done (response : Response)
  deriving DecidableEq

/-- A push in flight. -/
structure Push where
  request : PushRequest
  phase : PushPhase

def uploadUnknown : Response :=
  .refused 404 "BLOB_UPLOAD_UNKNOWN" "blob upload unknown to registry"

def dropUpload (s : Store) (id : String) : Store :=
  match s.deleteUpload id with
  | .error _ => s
  | .ok s' => s'

variable (digestOf : String → Blob.Content → Digest)

/-- Store the bytes: `session.Commit`, or `Store.Put` of the whole body. The result is the phase
that follows. -/
def storeBytes (bytes : Blob.Store) (r : PushRequest) : PushPhase × Blob.Store :=
  match r.session with
  | none =>
    match bytes.put digestOf r.digest r.body with
    | .error (.mismatch expected actual size) =>
      (.done (.digestInvalid (.mismatch expected actual size)), bytes)
    | .error _ => (.done internalError, bytes)
    | .ok bytes' => (.stamp r.body.length, bytes')
  | some id =>
    match bytes.commit digestOf id r.digest with
    | (.error (.mismatch expected actual size), bytes') =>
      (.discard id (.mismatch expected actual size), bytes')
    | (.error _, bytes') => (.done internalError, bytes')
    | (.ok n, bytes') => (.stamp n, bytes')

def Push.step (sh : Shared) (p : Push) : Option (Shared × Push) :=
  let goto (phase : PushPhase) : Push := { p with phase := phase }
  match p.phase with
  | .route =>
    match hostedRepo sh.store p.request.name with
    | .error r => some (sh, goto (.done r))
    | .ok () =>
      match Blob.parseDigest p.request.digest with
      | .error reason =>
        some (sh, goto (.done (.digestInvalid (.invalidDigest p.request.digest reason))))
      | .ok _ =>
        match p.request.session with
        | none => some (sh, goto .bytes)
        | some id => some (sh, goto (.openRow id))
  | .openRow id =>
    if Blob.validUploadID id = false then some (sh, goto (.done uploadUnknown))
    else match sh.store.getUpload id with
      | .error _ => some (sh, goto (.done uploadUnknown))
      | .ok row =>
        -- a session started under another repository answers unknown
        if row.repository ≠ p.request.name then some (sh, goto (.done uploadUnknown))
        else some (sh, goto (.openBytes id))
  | .openBytes id =>
    match sh.bytes.openUpload id with
    | .error _ => some (sh, goto (.done uploadUnknown))
    | .ok _ => some (sh, goto (.write id))
  | .write id =>
    match sh.bytes.write id p.request.body with
    | .error _ => some (sh, goto (.done internalError))
    | .ok bytes' => some ({ sh with bytes := bytes' }, goto .bytes)
  | .bytes =>
    match storeBytes digestOf sh.bytes p.request with
    | (phase, bytes') => some ({ sh with bytes := bytes' }, goto phase)
  | .discard id e =>
    some ({ sh with store := dropUpload sh.store id }, goto (.done (.digestInvalid e)))
  | .stamp size => some (sh, goto (.row size sh.clock))
  | .row size createdAt =>
    match sh.store.putBlob ⟨p.request.digest, size, createdAt⟩ with
    | .error _ => some (sh, goto (.done internalError))
    | .ok s' =>
      match p.request.session with
      | none => some ({ sh with store := s' }, goto .answer)
      | some id => some ({ sh with store := s' }, goto (.clear id))
  | .clear id => some ({ sh with store := dropUpload sh.store id }, goto .answer)
  | .answer =>
    some ({ sh with log := .acked p.request.digest sh.clock :: sh.log }, goto (.done .created))
  | .done _ => none

variable {digestOf}

/-- The bytes are stored and the row that records them is not written yet. -/
def Push.stored (p : Push) : Bool :=
  match p.phase with
  | .stamp _ | .row _ _ => true
  | _ => false

theorem quiet_dropUpload (sh : Shared) (id : String) :
    sh.Quiet { sh with store := dropUpload sh.store id } := by
  unfold dropUpload
  split
  · exact .refl sh
  · rename_i s' h
    obtain rfl := Store.deleteUpload_ok h
    constructor <;> rfl

theorem storeBytes_cases (digestOf : String → Blob.Content → Digest) (bytes : Blob.Store)
    (r : PushRequest) :
    (∃ n bytes' content, storeBytes digestOf bytes r = (.stamp n, bytes') ∧
      bytes'.blobs = (bytes.publish r.digest content).blobs) ∨
    (∃ phase bytes', storeBytes digestOf bytes r = (phase, bytes') ∧ bytes'.blobs = bytes.blobs ∧
      Push.stored ⟨r, phase⟩ = false) := by
  unfold storeBytes
  cases r.session with
  | none =>
    simp only
    split
    · exact .inr ⟨_, _, rfl, rfl, rfl⟩
    · exact .inr ⟨_, _, rfl, rfl, rfl⟩
    · rename_i bytes' h
      exact .inl ⟨_, bytes', r.body, rfl, by rw [Blob.Store.put_ok h]⟩
  | some id =>
    rcases Blob.Store.commit_cases digestOf bytes id r.digest with
      ⟨e, bytes', h, hbl⟩ | ⟨n, bytes', content, h, hbl⟩
    · refine .inr ?_
      simp only [h]
      cases e <;> exact ⟨_, _, rfl, hbl, rfl⟩
    · exact .inl ⟨n, bytes', content, by simp only [h], hbl⟩

/-- A step of a push is quiet; or it publishes the bytes; or it records the blob row of bytes
already stored; or it answers. -/
theorem Push.step_cases {sh sh' : Shared} {p p' : Push} (h : p.step digestOf sh = some (sh', p')) :
    p'.request = p.request ∧
    ((sh.Quiet sh' ∧ (p'.stored = true → p.stored = true)) ∨
    (p.phase = .bytes ∧ p'.stored = true ∧ ∃ bytes' content, sh' = { sh with bytes := bytes' } ∧
      bytes'.blobs = (sh.bytes.publish p.request.digest content).blobs) ∨
    (p'.stored = false ∧ ∃ size createdAt s', p.phase = .row size createdAt ∧
      sh.store.putBlob ⟨p.request.digest, size, createdAt⟩ = .ok s' ∧
      sh' = { sh with store := s' }) ∨
    (p.phase = .answer ∧ p'.stored = false ∧
      sh' = { sh with log := .acked p.request.digest sh.clock :: sh.log })) := by
  obtain ⟨request, phase⟩ := p
  cases phase with
  | route =>
    simp only [step] at h
    split at h
    · cases h
      exact ⟨rfl, .inl ⟨.refl sh, by simp [stored]⟩⟩
    · split at h
      · cases h
        exact ⟨rfl, .inl ⟨.refl sh, by simp [stored]⟩⟩
      · split at h <;> cases h <;> exact ⟨rfl, .inl ⟨.refl sh, by simp [stored]⟩⟩
  | openRow id =>
    simp only [step] at h
    split_ifs at h
    · cases h
      exact ⟨rfl, .inl ⟨.refl sh, by simp [stored]⟩⟩
    · split at h
      · cases h
        exact ⟨rfl, .inl ⟨.refl sh, by simp [stored]⟩⟩
      · split_ifs at h <;> cases h <;> exact ⟨rfl, .inl ⟨.refl sh, by simp [stored]⟩⟩
  | openBytes id =>
    simp only [step] at h
    split at h <;> cases h <;> exact ⟨rfl, .inl ⟨.refl sh, by simp [stored]⟩⟩
  | write id =>
    simp only [step] at h
    split at h <;> cases h
    · exact ⟨rfl, .inl ⟨.refl sh, by simp [stored]⟩⟩
    · rename_i bytes' hwr
      exact ⟨rfl, .inl ⟨⟨rfl, rfl, rfl, Blob.Store.write_ok hwr, rfl⟩, by simp [stored]⟩⟩
  | bytes =>
    rcases storeBytes_cases digestOf sh.bytes request with
      ⟨n, bytes', content, hst, hbl⟩ | ⟨phase, bytes', hst, hbl, hsr⟩
    · simp only [step, hst] at h
      cases h
      exact ⟨rfl, .inr (.inl ⟨rfl, rfl, bytes', content, rfl, hbl⟩)⟩
    · simp only [step, hst] at h
      cases h
      refine ⟨rfl, .inl ⟨⟨rfl, rfl, rfl, hbl, rfl⟩, fun hp => ?_⟩⟩
      exact absurd hp (by simpa [stored] using hsr)
  | discard id e =>
    cases h
    exact ⟨rfl, .inl ⟨quiet_dropUpload sh id, by simp [stored]⟩⟩
  | stamp size =>
    cases h
    exact ⟨rfl, .inl ⟨.refl sh, fun _ => rfl⟩⟩
  | row size createdAt =>
    simp only [step] at h
    split at h
    · cases h
      exact ⟨rfl, .inl ⟨.refl sh, by simp [stored]⟩⟩
    · rename_i s' hput
      split at h <;> cases h <;>
        exact ⟨rfl, .inr (.inr (.inl ⟨rfl, size, createdAt, s', rfl, hput, rfl⟩))⟩
  | clear id =>
    cases h
    exact ⟨rfl, .inl ⟨quiet_dropUpload sh id, by simp [stored]⟩⟩
  | answer =>
    cases h
    exact ⟨rfl, .inr (.inr (.inr ⟨rfl, rfl, rfl⟩))⟩
  | done r => cases h

/-! ## Starting an upload, and cross-repository mounts -/

/-- The mount a POST asks for. -/
structure MountRequest where
  digest : Digest
  source : String
  readable : Bool

/-- A POST without content: a mount, an upload session, or a mount that falls back to one. -/
structure StartRequest where
  name : String
  mount : Option MountRequest
  id : String

/-- Where such a POST stands. -/
inductive StartPhase
  | route
  | mountEntity (mount : MountRequest)
  | mountBlob (mount : MountRequest)
  | mountAnswer (mount : MountRequest)
  | row
  | bytes
  | discard
  | done (response : Response)

structure Start where
  request : StartRequest
  phase : StartPhase

/-- The checks a mount makes before it reads a store. -/
def MountRequest.admissible (m : MountRequest) : Bool :=
  Blob.validDigest m.digest && Reponame.valid m.source && m.readable

def Start.step (sh : Shared) (p : Start) : Option (Shared × Start) :=
  let goto (phase : StartPhase) : Start := { p with phase := phase }
  match p.phase with
  | .route =>
    match hostedRepo sh.store p.request.name with
    | .error r => some (sh, goto (.done r))
    | .ok () =>
      match p.request.mount with
      | none => some (sh, goto .row)
      | some m => some (sh, goto (if m.admissible then .mountEntity m else .row))
  | .mountEntity m =>
    match sh.store.getRepository (entityOf m.source) with
    | .error _ => some (sh, goto .row)
    | .ok _ => some (sh, goto (.mountBlob m))
  | .mountBlob m =>
    match sh.store.getBlob m.digest with
    | .error _ => some (sh, goto .row)
    | .ok _ => some (sh, goto (.mountAnswer m))
  | .mountAnswer m =>
    some ({ sh with log := .acked m.digest sh.clock :: sh.log }, goto (.done .created))
  | .row =>
    -- the row of a new session carries no digest: nothing names one yet
    match sh.store.createUpload ⟨p.request.id, p.request.name, "", 0, sh.clock, sh.clock⟩ with
    | .error _ => some (sh, goto (.done internalError))
    | .ok s' => some ({ sh with store := s' }, goto .bytes)
  | .bytes =>
    match sh.bytes.createUpload p.request.id with
    | .error _ => some (sh, goto .discard)
    | .ok bytes' => some ({ sh with bytes := bytes' }, goto (.done .accepted))
  | .discard =>
    some ({ sh with store := dropUpload sh.store p.request.id }, goto (.done internalError))
  | .done _ => none

/-- A step of a POST without content is quiet, or it acknowledges a mount. -/
theorem Start.step_cases {sh sh' : Shared} {p p' : Start} (h : p.step sh = some (sh', p')) :
    sh.Quiet sh' ∨
      ∃ m, p.phase = .mountAnswer m ∧
        sh' = { sh with log := .acked m.digest sh.clock :: sh.log } := by
  obtain ⟨request, phase⟩ := p
  cases phase with
  | route =>
    simp only [step] at h
    split at h
    · cases h
      exact .inl (.refl sh)
    · split at h <;> cases h <;> exact .inl (.refl sh)
  | mountEntity m | mountBlob m =>
    simp only [step] at h
    split at h <;> cases h <;> exact .inl (.refl sh)
  | mountAnswer m =>
    cases h
    exact .inr ⟨m, rfl, rfl⟩
  | row =>
    simp only [step] at h
    split at h <;> cases h
    · exact .inl (.refl sh)
    · rename_i s' hrow
      obtain rfl := Store.createUpload_ok hrow
      exact .inl ⟨rfl, rfl, rfl, rfl, rfl⟩
  | bytes =>
    simp only [step] at h
    split at h <;> cases h
    · exact .inl (.refl sh)
    · rename_i bytes' hby
      exact .inl ⟨rfl, rfl, rfl, Blob.Store.createUpload_ok hby, rfl⟩
  | discard =>
    cases h
    exact .inl (quiet_dropUpload sh _)
  | done r => cases h

end Trove.Registry
