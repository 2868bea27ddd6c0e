import Trove.Blob.Digest
import Trove.Lib.Map

/-!
# The in-memory blob store

Content under its digest, and upload sessions holding the bytes received so far. Content is hashed
before anything is published, so a mismatch leaves nothing behind; a digest that is stored already
stays as it is. The hash is a parameter: `digestOf algorithm content`.
-/

namespace Trove.Blob

open Lib

/-- A digest as text. -/
abbrev Digest := String
abbrev Content := List UInt8

/-- The typed failures of a call. -/
inductive Error
  | notFound (kind id : String)
  | invalidDigest (digest : String) (reason : InvalidDigest)
  | mismatch (expected actual : Digest) (size : ℕ)
  | invalid (field reason : String)
  deriving DecidableEq

/-- The blobs, and the sessions. -/
structure Store where
  blobs : GoMap Digest Content
  uploads : GoMap String Content

def Store.empty : Store := ⟨∅, ∅⟩

def algorithmOf (digest : Digest) : String := (Strings.cut digest ':').1

def verify (digestOf : String → Content → Digest) (expected : Digest) (content : Content) :
    Except Error Unit :=
  match parseDigest expected with
  | .error reason => .error (.invalidDigest expected reason)
  | .ok _ =>
    if digestOf (algorithmOf expected) content = expected then .ok ()
    else .error (.mismatch expected (digestOf (algorithmOf expected) content) content.length)

def validateUploadID (id : String) : Except Error Unit :=
  if id = "" then .error (.invalid "id" "must not be empty")
  else if Strings.len id > maxUploadIDLength then
    .error (.invalid "id" ("must be at most " ++ toString maxUploadIDLength ++ " characters"))
  else if id = "." ∨ id = ".." then .error (.invalid "id" "must not name a directory")
  else if validUploadID id then .ok ()
  else .error (.invalid "id" "must be letters, digits, '-', '_' or '.'")

namespace Store

variable (digestOf : String → Content → Digest) (s : Store)

/-- The first write wins. -/
def publish (digest : Digest) (content : Content) : Store :=
  if (s.blobs.lookup digest).isSome then s
  else { s with blobs := s.blobs.insert digest content }

def put (expected : Digest) (content : Content) : Except Error Store :=
  match verify digestOf expected content with
  | .error e => .error e
  | .ok () => .ok (s.publish expected content)

def delete (digest : Digest) : Except Error Store :=
  match parseDigest digest with
  | .error reason => .error (.invalidDigest digest reason)
  | .ok _ =>
    if (s.blobs.lookup digest).isNone then .error (.notFound "blob" digest)
    else .ok { s with blobs := s.blobs.erase digest }

/-! ## Upload sessions -/

/-- A new, empty session. -/
def createUpload (id : String) : Except Error Store :=
  if id = "" then .error (.invalid "id" "must not be empty")
  else if (s.uploads.lookup id).isSome then .error (.invalid "id" "upload session already exists")
  else .ok { s with uploads := s.uploads.insert id [] }

def openUpload (id : String) : Except Error Content :=
  match s.uploads.lookup id with
  | none => .error (.notFound "upload" id)
  | some content => .ok content

/-- A chunk is appended. -/
def write (id : String) (chunk : Content) : Except Error Store :=
  match s.openUpload id with
  | .error e => .error e
  | .ok content => .ok { s with uploads := s.uploads.insert id (content ++ chunk) }

def cancel (id : String) : Store := { s with uploads := s.uploads.erase id }

/-- What the session holds is verified and published; the session goes either way, unless the digest
itself is refused. -/
def commit (id : String) (expected : Digest) : Except Error ℕ × Store :=
  match s.openUpload id with
  | .error e => (.error e, s)
  | .ok content =>
    match verify digestOf expected content with
    | .error (.invalidDigest d reason) => (.error (.invalidDigest d reason), s)
    | .error e => (.error e, s.cancel id)
    | .ok () => (.ok content.length, (s.publish expected content).cancel id)

/-! ## What a call leaves alone -/

variable {digestOf s} {s' : Store}

theorem lookup_publish_self (digest : Digest) (content : Content) :
    ((s.publish digest content).blobs.lookup digest).isSome := by
  unfold publish
  split_ifs with h
  · exact h
  · simp

variable {digest : Digest} {content : Content} {id : String}

theorem lookup_publish_of_isSome {d : Digest} (h : (s.blobs.lookup d).isSome) :
    ((s.publish digest content).blobs.lookup d).isSome := by
  unfold publish
  split_ifs
  · exact h
  · by_cases hd : d = digest
    · subst hd
      simp
    · simpa [hd] using h

theorem put_ok {expected : Digest} (h : s.put digestOf expected content = .ok s') :
    s' = s.publish expected content := by
  unfold put at h
  split at h
  · cases h
  · exact (Except.ok.inj h).symm

theorem delete_ok (h : s.delete digest = .ok s') :
    s' = { s with blobs := s.blobs.erase digest } := by
  unfold delete at h
  split at h
  · cases h
  · split_ifs at h
    exact (Except.ok.inj h).symm

theorem write_ok {chunk : Content} (h : s.write id chunk = .ok s') : s'.blobs = s.blobs := by
  unfold write at h
  split at h
  · cases h
  · rw [← Except.ok.inj h]

theorem createUpload_ok (h : s.createUpload id = .ok s') : s'.blobs = s.blobs := by
  unfold createUpload at h
  split_ifs at h
  rw [← Except.ok.inj h]

theorem commit_cases (digestOf : String → Content → Digest) (s : Store) (id : String)
    (expected : Digest) :
    (∃ e s', s.commit digestOf id expected = (.error e, s') ∧ s'.blobs = s.blobs) ∨
      ∃ n s' content, s.commit digestOf id expected = (.ok n, s') ∧
        s'.blobs = (s.publish expected content).blobs := by
  unfold commit
  split
  · exact .inl ⟨_, _, rfl, rfl⟩
  · split
    · exact .inl ⟨_, _, rfl, rfl⟩
    · exact .inl ⟨_, _, rfl, rfl⟩
    · exact .inr ⟨_, _, _, rfl, rfl⟩

end Store

end Trove.Blob
