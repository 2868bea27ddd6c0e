import Mathlib.Algebra.GroupWithZero.Nat
import Trove.Blob.Verify
import Trove.Lib.Decimal
import Trove.Lib.Sort

/-!
# Upload sessions in an object store

An object store has no append, so a session is a marker object and one object for each write, named
by its number. Everything else is read off the listing: the offset is the sum of the sizes, the next
number is the count, and the order of the pieces is the order of the keys. A session is meant to be
a buffer that is only appended to (`Buffer`).
-/

namespace Trove.Blob.S3

open Lib

/-- The objects of the bucket. -/
abbrev Bucket := GoMap String Content

def sessionMarker : String := "session"

def chunkDigits : ℕ := 6

def uploadPrefixFor (root id : String) : Except Error String :=
  match validateUploadID id with
  | .error err => .error err
  | .ok () => .ok (root ++ "uploads" ++ "/" ++ id ++ "/")

def blobKey (root : String) (digest : Digest) : Except Error String :=
  match parseDigest digest with
  | .error reason => .error (.invalidDigest digest reason)
  | .ok _ =>
    .ok
      (root ++ "blobs" ++ "/" ++ algorithmOf digest ++ "/" ++ ((Strings.cut digest ':').2.getD ""))

/-- One stored piece of a session. -/
structure Chunk where
  key : String
  size : ℕ

def nameIn (base key : String) : String := String.ofList (key.toList.drop base.toList.length)

def chunkOf (base : String) (object : Sigma fun _ : String => Content) : Option Chunk :=
  if Strings.hasPrefix object.1 base = false then none
  else if nameIn base object.1 = sessionMarker then none
  else if (Strings.parseInt (nameIn base object.1)).isNone then none
  else some ⟨object.1, object.2.length⟩

/-- In key order. -/
def listChunks (bucket : Bucket) (base : String) : List Chunk :=
  sortBy Chunk.key (bucket.entries.filterMap (chunkOf base))

structure Session where
  (id base : String)
  (offset next : ℕ)

def createUpload (root : String) (bucket : Bucket) (id : String) :
    Except Error (Session × Bucket) :=
  match uploadPrefixFor root id with
  | .error err => .error err
  | .ok base =>
    if (bucket.lookup (base ++ sessionMarker)).isSome then
      .error (.invalid "id" "upload session already exists")
    else .ok (⟨id, base, 0, 0⟩, bucket.insert (base ++ sessionMarker) [])

def openUpload (root : String) (bucket : Bucket) (id : String) : Except Error Session :=
  match uploadPrefixFor root id with
  | .error err => .error err
  | .ok base =>
    if (bucket.lookup (base ++ sessionMarker)).isNone then .error (.notFound "upload" id)
    else
      let chunks := listChunks bucket base
      .ok ⟨id, base, (chunks.map Chunk.size).sum, chunks.length + 1⟩

/-- The answers a body gives, read after read; after the last of them it is at its end. -/
abbrev Answers := List (Content × Option StreamError)

/-- The bytes that arrived, and the failure kept for later, if they ended in one. -/
def halted : Answers → Content × Option StreamError
  | [] => ([], none)
  | (bytes, none) :: rest => (bytes ++ (halted rest).1, (halted rest).2)
  | (bytes, some .eof) :: _ => (bytes, none)
  | (bytes, some err) :: _ => (bytes, some err)

/-- The store's error or the body's. -/
inductive WriteError
  | store (err : Error)
  | body (err : StreamError)
  deriving DecidableEq

namespace Session

variable (u : Session) (bucket : Bucket)

def chunkKey (n : ℕ) : String := u.base ++ padded chunkDigits n

def write (body : Answers) : (ℕ × Option WriteError) × Session × Bucket :=
  if (bucket.lookup (u.base ++ sessionMarker)).isNone then
    ((0, some (.store (.notFound "upload" u.id))), u, bucket)
  else
    let u := { u with next := if u.next = 0 then 1 else u.next }
    let (bytes, err) := halted body
    let bucket := bucket.insert (u.chunkKey u.next) bytes
    if 0 < bytes.length then
      let u' := { u with offset := u.offset + bytes.length, next := u.next + 1 }
      ((u'.offset, err.map .body), u', bucket)
    else ((u.offset, err.map .body), u, bucket.erase (u.chunkKey u.next))

def discard : Session × Bucket :=
  ({ u with offset := 0, next := 1 },
    ((listChunks bucket u.base).foldl (fun b c => b.erase c.key) bucket).erase
      (u.base ++ sessionMarker))

def streamed (bucket : Bucket) (chunks : List Chunk) : Content :=
  (chunks.map fun c => (bucket.lookup c.key).getD []).flatten

def commit (digestOf : String → Content → Digest) (root : String) (expected : Digest) :
    (Content × Except Error (Digest × ℕ)) × Session × Bucket :=
  match blobKey root expected with
  | .error err => (([], .error err), u, bucket)
  | .ok key =>
    if (bucket.lookup (u.base ++ sessionMarker)).isNone then
      (([], .error (.notFound "upload" u.id)), u, bucket)
    else
      let content := streamed bucket (listChunks bucket u.base)
      match verify digestOf expected content with
      | .error err => ((content, .error err), u.discard bucket)
      | .ok () =>
        ((content, .ok (expected, content.length)), u.discard (bucket.insert key content))

end Session

/-! ## Reading the chunks -/

/-- The client of the object store: `GetObject`, and `Read` and `Close` of the object. -/
structure Objects (σ : Type) where
  getObject : String → Except String σ
  read : Reader σ UInt8 StreamError
  close : σ → Option StreamError

/-- Every object can be opened, delivers its content and closes without fail. -/
structure Objects.Serves {σ : Type} (objects : Objects σ) (bucket : Bucket) : Prop where
  delivers : ∀ key bytes, bucket.lookup key = some bytes →
    ∃ object, objects.getObject key = .ok object ∧ Delivers .eof objects.read object bytes
  closes : ∀ object, objects.close object = none

/-- `chunkReader`: the open object, and the chunks behind it. -/
structure ChunkReader (σ : Type) where
  current : Option σ
  chunks : List Chunk

namespace ChunkReader

variable {σ : Type} (objects : Objects σ) (bucket : Bucket)

/-- The open object, or else the next chunk's. -/
def opened : ChunkReader σ → Except StreamError (σ × List Chunk)
  | ⟨some object, chunks⟩ => .ok (object, chunks)
  | ⟨none, []⟩ => .error .eof
  | ⟨none, c :: chunks⟩ =>
    match objects.getObject c.key with
    | .error reason => .error (.failed ("read upload chunk: " ++ reason))
    | .ok object => .ok (object, chunks)

/-- `chunkReader.Read`, if it returns within so many rounds of its loop. -/
def read : ℕ → ChunkReader σ → ℕ → Option ((Content × Option StreamError) × ChunkReader σ)
  | 0, _, _ => none
  | rounds + 1, r, n =>
    match r.opened objects with
    | .error err => some (([], some err), r)
    | .ok (object, chunks) =>
      match objects.read object n with
      | (([], none), object) => read rounds ⟨some object, chunks⟩ n
      | (([], some .eof), object) =>
        match objects.close object with
        | some err => some (([], some err), ⟨some object, chunks⟩)
        | none => read rounds ⟨none, chunks⟩ n
      | (([], some err), object) => some (([], some err), ⟨some object, chunks⟩)
      -- an error that comes with bytes is left to the next read
      | ((bytes, _), object) => some ((bytes, none), ⟨some object, chunks⟩)

/-- What is left to read: the rest of the open object, and the chunks behind it. -/
def Has (r : ChunkReader σ) (content : Content) : Prop :=
  (∀ c ∈ r.chunks, ∃ bytes, bucket.lookup c.key = some bytes) ∧
    match r.current with
    | none => content = Session.streamed bucket r.chunks
    | some object => ∃ rest, Delivers .eof objects.read object rest ∧
        content = rest ++ Session.streamed bucket r.chunks

/-- The read returns, with something of the content or with the end of it. -/
def Returns (r : ChunkReader σ) (n : ℕ) (content : Content) : Prop :=
  ∃ rounds answer, read objects rounds r n = some answer ∧
    Progress .eof (Has objects bucket) content n answer

variable {objects bucket}

variable {n : ℕ} {r : ChunkReader σ} {chunks : List Chunk}

theorem read_succ {rounds : ℕ} {answer : (Content × Option StreamError) × ChunkReader σ}
    (h : read objects rounds r n = some answer) : read objects (rounds + 1) r n = some answer := by
  induction rounds generalizing r with
  | zero => cases h
  | succ rounds ih =>
    rw [read] at h ⊢
    split at h
    · exact h
    · split at h
      · exact ih h
      · split at h
        · exact h
        · exact ih h
      · exact h
      · exact h

theorem returns_object {object : σ} {rest : Content} (hn : 0 < n) (hserves : objects.Serves bucket)
    (hchunks : ∀ c ∈ chunks, ∃ bytes, bucket.lookup c.key = some bytes)
    (hnext : Returns objects bucket ⟨none, chunks⟩ n (Session.streamed bucket chunks))
    (h : Delivers .eof objects.read object rest) :
    Returns objects bucket ⟨some object, chunks⟩ n (rest ++ Session.streamed bucket chunks) := by
  induction h with
  | @intro object rest fits front ends goes ih =>
    have hall : Delivers .eof objects.read object rest := ⟨fits, front, ends, goes⟩
    cases hrd : objects.read object n with
    | mk answer object' =>
      obtain ⟨bytes, err⟩ := answer
      obtain ⟨hft, rest', rfl, hrest, herr⟩ := hall.answer hn hrd
      cases bytes with
      | cons b bytes =>
        refine ⟨1, ((b :: bytes, none), ⟨some object', chunks⟩), by simp only [read, opened, hrd],
          ?_⟩
        exact .inr ⟨_, _, List.cons_ne_nil b bytes, hft, List.append_assoc .., rfl, hchunks, rest',
          hrest, rfl⟩
      | nil =>
        rcases herr with rfl | ⟨rfl, rfl⟩
        · obtain ⟨rounds, answer, hlp, han⟩ := ih n hn (by rw [hrd])
          rw [hrd] at hlp han
          exact ⟨rounds + 1, answer, by simpa only [read, opened, hrd] using hlp, han⟩
        · obtain ⟨rounds, answer, hlp, han⟩ := hnext
          exact ⟨rounds + 1, answer, by simpa only [read, opened, hrd, hserves.closes] using hlp,
            han⟩

theorem returns_next (hn : 0 < n) (hserves : objects.Serves bucket)
    (h : ∀ c ∈ chunks, ∃ bytes, bucket.lookup c.key = some bytes) :
    Returns objects bucket ⟨none, chunks⟩ n (Session.streamed bucket chunks) := by
  induction chunks with
  | nil => exact ⟨1, _, rfl, .inl ⟨rfl, rfl, h, rfl⟩⟩
  | cons c rest ih =>
    obtain ⟨bytes, hby⟩ := h c (.head _)
    have hrest : ∀ c ∈ rest, ∃ bytes, bucket.lookup c.key = some bytes :=
      fun d hd => h d (.tail _ hd)
    obtain ⟨object, hget, hdel⟩ := hserves.delivers c.key bytes hby
    obtain ⟨rounds, answer, hlp, han⟩ := returns_object hn hserves hrest (ih hrest) hdel
    refine ⟨rounds, answer, ?_, by simpa [Session.streamed, hby] using han⟩
    cases rounds with
    | zero => cases hlp
    | succ rounds =>
      simpa only [read, opened, hget] using hlp

theorem returns_of_has {content : Content} (hn : 0 < n) (hserves : objects.Serves bucket)
    (h : r.Has objects bucket content) : Returns objects bucket r n content := by
  obtain ⟨current, chunks⟩ := r
  obtain ⟨hchunks, hcontent⟩ := h
  cases current with
  | none =>
    obtain rfl := hcontent
    exact returns_next hn hserves hchunks
  | some object =>
    obtain ⟨rest, hdel, rfl⟩ := hcontent
    exact returns_object hn hserves hchunks (returns_next hn hserves hchunks) hdel

end ChunkReader

/-- Objects that hand over all that is asked for. -/
def Objects.whole (bucket : Bucket) : Objects (List Content) where
  getObject key := ((bucket.lookup key).map fun bytes => [bytes]).elim (.error "no such key") .ok
  read := pieces .eof
  close _ := none

theorem Objects.whole_serves (bucket : Bucket) : (whole bucket).Serves bucket where
  delivers key bytes h :=
    ⟨[bytes], by simp [whole, h], by simpa [whole] using pieces_delivers StreamError.eof [bytes]⟩
  closes _ := rfl

/-! ## The buffer a session is meant to be -/

abbrev Buffer := Option (List Content)

/-- The calls on one session, and what else happens to the bucket. -/
inductive Op
  | create
  | reopen
  | write (body : Answers)
  | commit (expected : Digest)
  | cancel
  | elsewhere (key : String) (object : Option Content)

/-- What a call returns. -/
inductive Answer
  | created (result : Except Error Unit)
  | opened (result : Except Error Unit)
  | wrote (offset : ℕ) (err : Option WriteError)
  | committed (content : Content) (result : Except Error (Digest × ℕ))
  | done
  deriving DecidableEq

namespace Buffer

def step (digestOf : String → Content → Digest) (id : String) (b : Buffer) : Op → Answer × Buffer
  | .create =>
    match b with
    | none => (.created (.ok ()), some [])
    | some _ => (.created (.error (.invalid "id" "upload session already exists")), b)
  | .reopen =>
    match b with
    | none => (.opened (.error (.notFound "upload" id)), none)
    | some _ => (.opened (.ok ()), b)
  | .write body =>
    match b with
    | none => (.wrote 0 (some (.store (.notFound "upload" id))), none)
    | some pieces =>
      let (bytes, err) := halted body
      let pieces := if bytes = [] then pieces else pieces ++ [bytes]
      (.wrote pieces.flatten.length (err.map .body), some pieces)
  | .commit expected =>
    match parseDigest expected with
    | .error reason => (.committed [] (.error (.invalidDigest expected reason)), b)
    | .ok _ =>
      match b with
      | none => (.committed [] (.error (.notFound "upload" id)), none)
      | some pieces =>
        (.committed pieces.flatten
          ((verify digestOf expected pieces.flatten).map fun _ =>
            (expected, pieces.flatten.length)),
          none)
  | .cancel => (.done, none)
  | .elsewhere _ _ => (.done, b)

def offset : Buffer → ℕ
  | none => 0
  | some pieces => pieces.flatten.length

end Buffer

structure World where
  session : Session
  bucket : Bucket

def World.step (digestOf : String → Content → Digest) (root id : String) (w : World) :
    Op → Answer × World
  | .create =>
    match createUpload root w.bucket id with
    | .error err => (.created (.error err), w)
    | .ok (u, bucket) => (.created (.ok ()), ⟨u, bucket⟩)
  | .reopen =>
    match openUpload root w.bucket id with
    | .error err => (.opened (.error err), w)
    | .ok u => (.opened (.ok ()), ⟨u, w.bucket⟩)
  | .write body =>
    let ((offset, err), u, bucket) := w.session.write w.bucket body
    (.wrote offset err, ⟨u, bucket⟩)
  | .commit expected =>
    let ((content, result), u, bucket) := w.session.commit w.bucket digestOf root expected
    (.committed content result, ⟨u, bucket⟩)
  | .cancel =>
    let (u, bucket) := w.session.discard w.bucket
    (.done, ⟨u, bucket⟩)
  | .elsewhere key object =>
    (.done, ⟨w.session,
      match object with
      | none => w.bucket.erase key
      | some bytes => w.bucket.insert key bytes⟩)

end Trove.Blob.S3
