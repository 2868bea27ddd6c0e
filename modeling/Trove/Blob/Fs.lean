import Trove.Blob.Store
import Trove.Lib.Files
import Trove.Lib.Run

/-!
# The filesystem blob driver

Calls of the driver as threads over one disk, one system call a step. An upload session is a staging
file under its identifier, a `Put` stages its content in the same directory under a random name;
both publish by renaming the staging file to the blob's path. A handle's mutex keeps the calls of
one handle apart, and calls on one identifier through two handles are separate threads.
-/

namespace Trove.Blob.Fs

open Lib

inductive Path
  | upload (name : String)
  | blob (digest : Digest)
  | quarantine (digest : Digest)
  deriving DecidableEq

/-- The driver's files. -/
abbrev Disk := Files Path UInt8

inductive FsError
  | blob (err : Error)
  | io (what : String)
  deriving DecidableEq

/-- What a call returns. -/
inductive Answer
  | opened (offset : ℕ)
  | created
  | wrote (offset : ℕ) (err : Option FsError)
  | committed (digest : Digest) (size : ℕ)
  | cancelled
  | stored
  | failed (err : FsError)
  deriving DecidableEq

inductive Stage
  | stat
  | mkdir
  | chmod
  | rename
  | recheck
  | sync
  deriving DecidableEq

/-- Where a call stands. -/
inductive Phase
  | writing (file offset written : ℕ)
  /-- `Commit`'s re-read, with what it has read. -/
  | verifying (expected : Digest) (file : ℕ) (seen : Content)
  /-- `Put`'s copy to its staging file, with what it has written. -/
  | copying (expected : Digest) (file : ℕ) (seen : Content)
  /-- `commit` of verified content. -/
  | publishing (expected : Digest) (size : ℕ) (stage : Stage)
  | removing (answer : Answer)
  | done (answer : Answer)
  deriving DecidableEq

/-- A call on a staging name; `put` tells a `Put` from a session's call. -/
structure Task where
  name : String
  put : Bool
  phase : Phase
  deriving DecidableEq

/-- What a step is given: bytes from the client, the end of them, how much a read returns at most
(one more than the number), the result of a call without data, or its failure. -/
inductive Input
  | bytes (chunk : Content)
  | eof
  | take (n : ℕ)
  | go
  | fault (what : String)
  deriving DecidableEq

variable (digestOf : String → Content → Digest)

def verified (expected : Digest) (content : Content) : Phase :=
  match verify digestOf expected content with
  | .ok () => .publishing expected content.length .stat
  | .error err => .removing (.failed (.blob err))

/-- Behind `commit`: a `Put` removes its staging file and returns what `commit` did; a session is
cleared only when the content is published. -/
def Task.published (t : Task) (expected : Digest) (size : ℕ) : Option FsError → Phase
  | none => .removing (if t.put then .stored else .committed expected size)
  | some err => if t.put then .removing (.failed err) else .done (.failed err)

/-- `commit`, one system call a step. What is at the target already is this content. -/
def Task.publish (t : Task) (disk : Disk) (expected : Digest) (size : ℕ) :
    Stage → Input → Option (Disk × Phase)
  | .stat, .go =>
    if (disk.entry (.blob expected)).isSome then some (disk, t.published expected size none)
    else some (disk, .publishing expected size .mkdir)
  | .stat, .fault _ => some (disk, t.published expected size (some (.io "stat target")))
  | .mkdir, .go => some (disk, .publishing expected size .chmod)
  | .mkdir, .fault _ =>
    some (disk, t.published expected size (some (.io "create blob directory")))
  | .chmod, .go =>
    if (disk.entry (.upload t.name)).isSome then some (disk, .publishing expected size .rename)
    else some (disk, t.published expected size (some (.io "set blob mode")))
  | .chmod, .fault _ => some (disk, t.published expected size (some (.io "set blob mode")))
  | .rename, .go =>
    match disk.rename (.upload t.name) (.blob expected) with
    | some disk' => some (disk', .publishing expected size .sync)
    | none => some (disk, .publishing expected size .recheck)
  | .rename, .fault _ => some (disk, .publishing expected size .recheck)
  | .recheck, .go =>
    some (disk, t.published expected size
      (if (disk.entry (.blob expected)).isSome then none else some (.io "commit blob")))
  | .recheck, .fault _ => some (disk, t.published expected size (some (.io "commit blob")))
  | .sync, .go => some (disk, t.published expected size none)
  | .sync, .fault what => some (disk, t.published expected size (some (.io what)))
  | _, _ => none

/-- One system call of a call under way. -/
def Task.next (t : Task) (disk : Disk) (input : Input) : Option (Disk × Phase) :=
  match t.phase, input with
  | .writing file offset written, .bytes chunk =>
    some (disk.append file chunk, .writing file offset (written + chunk.length))
  | .writing _ offset written, .eof => some (disk, .done (.wrote (offset + written) none))
  -- whatever arrived is kept when the copy or the sync fails
  | .writing _ offset written, .fault what =>
    some (disk, .done (.wrote (offset + written) (some (.io what))))
  | .verifying expected file seen, .take n =>
    match ((disk.content file).drop seen.length).take (n + 1) with
    | [] => some (disk, verified digestOf expected seen)
    | chunk => some (disk, .verifying expected file (seen ++ chunk))
  | .verifying _ _ _, .fault what => some (disk, .removing (.failed (.io what)))
  | .copying expected file seen, .bytes chunk =>
    some (disk.writeAt file seen.length chunk, .copying expected file (seen ++ chunk))
  | .copying expected _ seen, .eof => some (disk, verified digestOf expected seen)
  | .copying _ _ _, .fault what => some (disk, .removing (.failed (.io what)))
  | .publishing expected size stage, input => t.publish disk expected size stage input
  | .removing answer, .go => some (disk.remove (.upload t.name), .done answer)
  | .removing answer, .fault _ => some (disk, .done answer)
  | _, _ => none

inductive Task.Next (digestOf : String → Content → Digest) (t : Task) (disk : Disk) :
    Disk → Phase → Prop
  | append {file offset written : ℕ} (chunk : Content)
      (hphase : t.phase = .writing file offset written) :
      Next digestOf t disk (disk.append file chunk) (.writing file offset (written + chunk.length))
  | read {expected : Digest} {file : ℕ} {seen : Content} (n : ℕ)
      (hphase : t.phase = .verifying expected file seen) :
      Next digestOf t disk disk
        (.verifying expected file (seen ++ ((disk.content file).drop seen.length).take (n + 1)))
  | verify {expected : Digest} {file : ℕ} {seen : Content}
      (hphase : t.phase = .verifying expected file seen)
      (hend : (disk.content file).drop seen.length = []) :
      Next digestOf t disk disk (verified digestOf expected seen)
  | copy {expected : Digest} {file : ℕ} {seen : Content} (chunk : Content)
      (hphase : t.phase = .copying expected file seen) :
      Next digestOf t disk (disk.writeAt file seen.length chunk)
        (.copying expected file (seen ++ chunk))
  | copied {expected : Digest} {file : ℕ} {seen : Content}
      (hphase : t.phase = .copying expected file seen) :
      Next digestOf t disk disk (verified digestOf expected seen)
  | publish {expected : Digest} {size : ℕ} {stage : Stage} (stage' : Stage)
      (hphase : t.phase = .publishing expected size stage) :
      Next digestOf t disk disk (.publishing expected size stage')
  | rename {expected : Digest} {size : ℕ} {disk' : Disk}
      (hphase : t.phase = .publishing expected size .rename)
      (hrename : disk.rename (.upload t.name) (.blob expected) = some disk') :
      Next digestOf t disk disk' (.publishing expected size .sync)
  | published {expected : Digest} {size : ℕ} {stage : Stage} (err : Option FsError)
      (hphase : t.phase = .publishing expected size stage) :
      Next digestOf t disk disk (t.published expected size err)
  | fail {answer : Answer} (hbusy : ∀ answer, t.phase ≠ .done answer)
      (hwriting : ∀ file offset written, t.phase ≠ .writing file offset written) :
      Next digestOf t disk disk (.removing answer)
  | removed {answer : Answer} (hphase : t.phase = .removing answer) :
      Next digestOf t disk (disk.remove (.upload t.name)) (.done answer)
  | answer {answer : Answer} (hbusy : ∀ answer, t.phase ≠ .done answer) :
      Next digestOf t disk disk (.done answer)

section Next

variable {digestOf} {t : Task} {disk disk' : Disk} {phase : Phase}

theorem Task.publish_next {expected : Digest} {size : ℕ} {stage : Stage} {input : Input}
    (hph : t.phase = .publishing expected size stage)
    (h : t.publish disk expected size stage input = some (disk', phase)) :
    t.Next digestOf disk disk' phase := by
  unfold Task.publish at h
  split at h
  · split_ifs at h <;> cases h
    · exact .published none hph
    · exact .publish .mkdir hph
  · cases h
    exact .published _ hph
  · cases h
    exact .publish .chmod hph
  · cases h
    exact .published _ hph
  · split_ifs at h <;> cases h
    · exact .publish .rename hph
    · exact .published _ hph
  · cases h
    exact .published _ hph
  · split at h
    · rename_i disk₁ hrn
      cases h
      exact .rename hph hrn
    · cases h
      exact .publish .recheck hph
  · cases h
    exact .publish .recheck hph
  · cases h
    exact .published _ hph
  · cases h
    exact .published _ hph
  · cases h
    exact .published none hph
  · cases h
    exact .published _ hph
  · cases h

theorem Task.next_of_eq_some {input : Input}
    (h : t.next digestOf disk input = some (disk', phase)) : t.Next digestOf disk disk' phase := by
  unfold Task.next at h
  split at h
  · rename_i file offset written chunk hph
    cases h
    exact .append chunk hph
  · rename_i hph
    cases h
    exact .answer (by simp [hph])
  · rename_i hph
    cases h
    exact .answer (by simp [hph])
  · rename_i expected file seen n hph
    split at h
    · rename_i hrd
      cases h
      exact .verify hph (by simpa using hrd)
    · cases h
      exact .read n hph
  · rename_i hph
    cases h
    exact .fail (by simp [hph]) (by simp [hph])
  · rename_i expected file seen chunk hph
    cases h
    exact .copy chunk hph
  · rename_i hph
    cases h
    exact .copied hph
  · rename_i hph
    cases h
    exact .fail (by simp [hph]) (by simp [hph])
  · rename_i hph
    exact Task.publish_next hph h
  · rename_i hph
    cases h
    exact .removed hph
  · rename_i hph
    cases h
    exact .answer (by simp [hph])
  · cases h

end Next

/-- A `Write` comes with the offset its handle has, a `Put` with the random name of its staging
file. -/
inductive Call
  | openUpload (id : String)
  | createUpload (id : String)
  | write (id : String) (offset : ℕ)
  | commit (id : String) (expected : Digest)
  | cancel (id : String)
  | put (expected : Digest) (name : String)

def Call.name : Call → String
  | .openUpload id | .createUpload id | .write id _ | .commit id _ | .cancel id => id
  | .put _ name => name

def Call.start (disk : Disk) (fault : Bool) : Call → Disk × Task
  | .openUpload id =>
    match validateUploadID id with
    | .error err => (disk, ⟨id, false, .done (.failed (.blob err))⟩)
    | .ok () =>
      if fault then (disk, ⟨id, false, .done (.failed (.io "open upload session"))⟩)
      else
        match disk.contentAt (.upload id) with
        | none => (disk, ⟨id, false, .done (.failed (.blob (.notFound "upload" id)))⟩)
        | some content => (disk, ⟨id, false, .done (.opened content.length)⟩)
  | .createUpload id =>
    match validateUploadID id with
    | .error err => (disk, ⟨id, false, .done (.failed (.blob err))⟩)
    | .ok () =>
      if fault then (disk, ⟨id, false, .done (.failed (.io "create upload session"))⟩)
      else
        match disk.createExcl (.upload id) with
        | none =>
          (disk,
            ⟨id, false, .done (.failed (.blob (.invalid "id" "upload session already exists")))⟩)
        | some (_, disk') => (disk', ⟨id, false, .done .created⟩)
  | .write id offset =>
    if fault then (disk, ⟨id, false, .done (.wrote offset (some (.io "open upload session")))⟩)
    else
      match disk.entry (.upload id) with
      | none => (disk, ⟨id, false, .done (.wrote 0 (some (.blob (.notFound "upload" id))))⟩)
      | some file => (disk, ⟨id, false, .writing file offset 0⟩)
  | .commit id expected =>
    match parseDigest expected with
    | .error reason => (disk, ⟨id, false, .done (.failed (.blob (.invalidDigest expected reason)))⟩)
    | .ok _ =>
      if fault then (disk, ⟨id, false, .done (.failed (.io "open upload session"))⟩)
      else
        match disk.entry (.upload id) with
        | none => (disk, ⟨id, false, .done (.failed (.blob (.notFound "upload" id)))⟩)
        | some file => (disk, ⟨id, false, .verifying expected file []⟩)
  | .cancel id =>
    if fault then (disk, ⟨id, false, .done (.failed (.io "cancel upload session"))⟩)
    else (disk.remove (.upload id), ⟨id, false, .done .cancelled⟩)
  | .put expected name =>
    match parseDigest expected with
    | .error reason =>
      (disk, ⟨name, true, .done (.failed (.blob (.invalidDigest expected reason)))⟩)
    | .ok _ =>
      if fault then (disk, ⟨name, true, .done (.failed (.io "create staging file"))⟩)
      else
        match disk.createExcl (.upload name) with
        | none => (disk, ⟨name, true, .done (.failed (.io "create staging file"))⟩)
        | some (file, disk') => (disk', ⟨name, true, .copying expected file []⟩)

def Call.puts : Call → Bool
  | .put _ _ => true
  | _ => false

inductive Call.Started (disk : Disk) : Call → Disk → Phase → Prop
  | answered (call : Call) (answer : Answer) : Started disk call disk (.done answer)
  | created (id : String) :
      Started disk (.createUpload id) (disk.link (.upload id)) (.done .created)
  | writing {id : String} {offset file : ℕ} (hfile : disk.entry (.upload id) = some file) :
      Started disk (.write id offset) disk (.writing file offset 0)
  | verifying {id : String} {expected : Digest} {file : ℕ}
      (hfile : disk.entry (.upload id) = some file) :
      Started disk (.commit id expected) disk (.verifying expected file [])
  | cancelled (id : String) :
      Started disk (.cancel id) (disk.remove (.upload id)) (.done .cancelled)
  | copying (expected : Digest) (name : String) :
      Started disk (.put expected name) (disk.link (.upload name))
        (.copying expected disk.next [])

theorem createExcl_eq_some {disk disk' : Disk} {p : Path} {file : ℕ}
    (h : disk.createExcl p = some (file, disk')) : file = disk.next ∧ disk' = disk.link p := by
  unfold Files.createExcl at h
  split_ifs at h
  cases h
  exact ⟨rfl, rfl⟩

theorem Call.started {disk disk' : Disk} {t : Task} {fault : Bool} {call : Call}
    (h : call.start disk fault = (disk', t)) :
    t.name = call.name ∧ t.put = call.puts ∧ Call.Started disk call disk' t.phase := by
  have hans {answer : Answer} (h : (disk, ⟨call.name, call.puts, .done answer⟩) = (disk', t)) :
      t.name = call.name ∧ t.put = call.puts ∧ Call.Started disk call disk' t.phase := by
    cases h
    exact ⟨rfl, rfl, .answered _ _⟩
  cases call with
  | openUpload id =>
    rw [Call.start] at h
    split at h
    · exact hans h
    · split_ifs at h
      · exact hans h
      · split at h
        all_goals exact hans h
  | createUpload id =>
    rw [Call.start] at h
    split at h
    · exact hans h
    · split_ifs at h
      · exact hans h
      · split at h
        · exact hans h
        · rename_i file disk₁ hcr
          cases h
          obtain ⟨-, rfl⟩ := createExcl_eq_some hcr
          exact ⟨rfl, rfl, .created id⟩
  | write id offset =>
    rw [Call.start] at h
    split_ifs at h
    · exact hans h
    · split at h
      · exact hans h
      · rename_i file hfl
        cases h
        exact ⟨rfl, rfl, .writing hfl⟩
  | commit id expected =>
    rw [Call.start] at h
    split at h
    · exact hans h
    · split_ifs at h
      · exact hans h
      · split at h
        · exact hans h
        · rename_i file hfl
          cases h
          exact ⟨rfl, rfl, .verifying hfl⟩
  | cancel id =>
    rw [Call.start] at h
    split_ifs at h
    · exact hans h
    · cases h
      exact ⟨rfl, rfl, .cancelled id⟩
  | put expected name =>
    rw [Call.start] at h
    split at h
    · exact hans h
    · split_ifs at h
      · exact hans h
      · split at h
        · exact hans h
        · rename_i file disk₁ hcr
          cases h
          obtain ⟨rfl, rfl⟩ := createExcl_eq_some hcr
          exact ⟨rfl, rfl, .copying expected name⟩

structure World where
  disk : Disk
  tasks : List Task

inductive Event
  | call (call : Call) (fault : Bool)
  | step (task : ℕ) (input : Input)

/-- One system call. -/
def World.step (w : World) : Event → Option World
  | .call call fault =>
    let (disk, task) := call.start w.disk fault
    some ⟨disk, w.tasks ++ [task]⟩
  | .step k input =>
    (advance (fun disk (t : Task) => (t.next digestOf disk input).map fun r =>
      (r.1, { t with phase := r.2 })) w.disk w.tasks k).map fun r => ⟨r.1, r.2⟩

end Trove.Blob.Fs
