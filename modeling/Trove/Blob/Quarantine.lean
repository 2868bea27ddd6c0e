import Trove.Blob.Fs

/-!
# Quarantine

A verified reader that has read a blob to its end and found a mismatch moves the blob out of the
served tree when it is closed. The move is by name, after the reader's own descriptor is closed: it
takes what is at the blob's path then. Readers run beside `Put`s, `Commit`s and deletions.
-/

namespace Trove.Blob.Fs

open Lib

/-! ## Readers -/

inductive ReadPhase
  | reading (file : ℕ) (seen : Content)
  | corrupt (file : ℕ) (err : Error)
  | mkdir (file : ℕ) (err : Error)
  | clear (file : ℕ) (err : Error)
  | move (file : ℕ) (err : Error)
  | sync (err : Error)
  | intact
  | closed (corrupt : Option Error) (err : Option FsError)
  deriving DecidableEq

/-- A reader of a blob. -/
structure BlobReader where
  digest : Digest
  phase : ReadPhase

def BlobReader.file (r : BlobReader) : Option ℕ :=
  match r.phase with
  | .reading file _ | .corrupt file _ | .mkdir file _ | .clear file _ | .move file _ => some file
  | .sync _ | .intact | .closed _ _ => none

/-- How much a read returns at most (one more than the number) or its failure, `Close`, or the
result of a system call of `Close`. -/
inductive ReadInput
  | read (n : ℕ)
  | readFault
  | close
  | go
  | fault (what : String)
  deriving DecidableEq

variable (digestOf : String → Content → Digest)

def get (disk : Disk) (digest : Digest) : Except FsError BlobReader :=
  match parseDigest digest with
  | .error reason => .error (.blob (.invalidDigest digest reason))
  | .ok _ =>
    match disk.entry (.blob digest) with
    | none => .error (.blob (.notFound "blob" digest))
    | some file => .ok ⟨digest, .reading file []⟩

def delete (disk : Disk) (digest : Digest) : Except FsError Disk :=
  match parseDigest digest with
  | .error reason => .error (.blob (.invalidDigest digest reason))
  | .ok _ =>
    match disk.entry (.blob digest) with
    | none => .error (.blob (.notFound "blob" digest))
    | some _ => .ok (disk.remove (.blob digest))

structure ReadStep where
  disk : Disk
  phase : ReadPhase
  moved : Option Content

/-- A read that reaches the end compares the hash of what was read. -/
def BlobReader.next (r : BlobReader) (disk : Disk) (input : ReadInput) : Option ReadStep :=
  match r.phase, input with
  | .reading file seen, .read n =>
    match ((disk.content file).drop seen.length).take (n + 1) with
    | [] =>
      match verify digestOf r.digest seen with
      | .ok () => some ⟨disk, .intact, none⟩
      | .error err => some ⟨disk, .corrupt file err, none⟩
    | chunk => some ⟨disk, .reading file (seen ++ chunk), none⟩
  | .reading _ _, .readFault => some ⟨disk, .intact, none⟩
  -- `Close` before the end, or of content that was sound
  | .reading _ _, .close | .intact, .close => some ⟨disk, .closed none none, none⟩
  | .corrupt file err, .close => some ⟨disk, .mkdir file err, none⟩
  | .mkdir file err, .go => some ⟨disk, .clear file err, none⟩
  | .mkdir _ err, .fault _ =>
    some ⟨disk, .closed (some err) (some (.io "create quarantine directory")), none⟩
  | .clear file err, .go => some ⟨disk.remove (.quarantine r.digest), .move file err, none⟩
  | .clear _ err, .fault _ =>
    some ⟨disk, .closed (some err) (some (.io "clear quarantine slot")), none⟩
  | .move _ err, .go =>
    match disk.rename (.blob r.digest) (.quarantine r.digest) with
    -- something else has moved or deleted it
    | none => some ⟨disk, .closed (some err) none, none⟩
    | some disk' => some ⟨disk', .sync err, disk.contentAt (.blob r.digest)⟩
  | .move _ err, .fault _ => some ⟨disk, .closed (some err) (some (.io "quarantine blob")), none⟩
  | .sync err, .go => some ⟨disk, .closed (some err) none, none⟩
  | .sync err, .fault what => some ⟨disk, .closed (some err) (some (.io what)), none⟩
  | _, _ => none

/-! ## Readers beside writers -/

/-- The disk, the calls and readers on it, and what was moved to quarantine. -/
structure Traffic where
  disk : Disk
  tasks : List Task
  readers : List BlobReader
  moved : List (Digest × Content)

/-- A call or reader starts, or one goes on. -/
inductive Action
  | put (expected : Digest) (name : String) (fault : Bool)
  | commit (id : String) (expected : Digest) (fault : Bool)
  | task (k : ℕ) (input : Input)
  | get (digest : Digest)
  | read (k : ℕ) (input : ReadInput)
  | delete (digest : Digest)

def Traffic.start (w : Traffic) (call : Call) (fault : Bool) : Traffic :=
  { w with
    disk := (call.start w.disk fault).1
    tasks := w.tasks ++ [(call.start w.disk fault).2] }

/-- One system call. -/
def Traffic.step (w : Traffic) : Action → Option Traffic
  | .put expected name fault => some (w.start (.put expected name) fault)
  | .commit id expected fault => some (w.start (.commit id expected) fault)
  | .task k input =>
    w.tasks[k]?.bind fun t => (t.next digestOf w.disk input).map fun r =>
      { w with disk := r.1, tasks := w.tasks.set k { t with phase := r.2 } }
  | .get digest =>
    match get w.disk digest with
    | .error _ => some w
    | .ok r => some { w with readers := w.readers ++ [r] }
  | .read k input =>
    w.readers[k]?.bind fun r => (r.next digestOf w.disk input).map fun s =>
      { w with
        disk := s.disk
        readers := w.readers.set k { r with phase := s.phase }
        moved := w.moved ++ s.moved.toList.map fun content => (r.digest, content) }
  | .delete digest =>
    match delete w.disk digest with
    | .error _ => some w
    | .ok disk => some { w with disk := disk }

end Trove.Blob.Fs
