import Trove.Blob.FsPublished
import Trove.Meta.Memory
import Trove.Registry.Uploads

/-!
# Chunks of an upload

A PATCH opens the session, which reads the offset from the staging file, compares the stated start
with it, and appends its body through a handle of its own. PATCHes on one session run beside each
other: the handle's mutex keeps nothing apart that goes through another handle.
-/

namespace Trove.Registry

open Lib Blob List

/-- `0-` and the last offset. -/
def rangeHeader (offset : ℕ) : String :=
  if offset = 0 then "0-0" else "0-" ++ toString (offset - 1)

def contentRangeStart (header : String) : Option ℤ :=
  match Strings.cut header '-' with
  | (_, none) => none
  | (start, some _) => Strings.parseInt (Strings.trimSpace start)

def uploadLocation (name id : String) : String := "/v2/" ++ name ++ "/blobs/uploads/" ++ id

/-- What of a PATCH is read. -/
structure PatchRequest where
  (name id contentRange : String)
  contentLength : ℤ

/-- What a PATCH is answered. -/
inductive PatchResponse
  | accepted (location range uuid : String)
  | outOfRange (range : String) (response : Response)
  | refused (response : Response)
  deriving DecidableEq

/-- Where a PATCH stands. -/
inductive PatchPhase
  | route
  | openRow
  | openBytes
  | write (offset : ℕ)
  | copy (task : Fs.Task)
  | record (offset : ℕ)
  | done (response : PatchResponse)
  deriving DecidableEq

/-- A PATCH under way; `body` is what has arrived of its chunk, and `held` what the session held
after the latest step of the append. -/
structure Patch where
  request : PatchRequest
  phase : PatchPhase
  (body held : Content)

variable (digestOf : String → Content → Digest) (quota : String → ℤ → Except String Unit)

/-- What follows the opening of the session: the stated range and the quota. -/
def PatchRequest.checked (r : PatchRequest) (offset : ℕ) : PatchPhase :=
  if r.contentRange ≠ "" ∧ contentRangeStart r.contentRange ≠ some (offset : ℤ) then
    .done (.outOfRange (rangeHeader offset)
      (.refused 416 "BLOB_UPLOAD_INVALID" ("chunk must continue at offset " ++ toString offset)))
  else
    match quota r.name r.contentLength with
    | .error message => .done (.refused (.refused 403 "DENIED" message))
    | .ok () => .write offset

def PatchRequest.opened (r : PatchRequest) : Fs.Phase → PatchPhase
  | .done (.opened offset) => r.checked quota offset
  | .done (.failed (.blob (.notFound _ _))) => .done (.refused uploadUnknown)
  | _ => .done (.refused internalError)

def copying (t : Fs.Task) : PatchPhase :=
  match t.phase with
  | .done (.wrote offset none) => .record offset
  | .done _ => .done (.refused internalError)
  | _ => .copy t

def arrived : Fs.Input → Content
  | .bytes chunk => chunk
  | _ => []

/-- The next call to a store; a fault is a failure other than that there is no such row or file. -/
def Patch.step (store : Meta.Store) (disk : Fs.Disk) (p : Patch) (input : Fs.Input)
    (now : Meta.Time) : Option (Meta.Store × Fs.Disk × Patch) :=
  let goto (phase : PatchPhase) : Patch := { p with phase := phase }
  let refuse (r : Response) : Patch := { p with phase := .done (.refused r) }
  match p.phase, input with
  | .route, .go =>
    match hostedRepo store p.request.name with
    | .error r => some (store, disk, refuse r)
    | .ok () =>
      match validateUploadID p.request.id with
      | .error _ => some (store, disk, refuse uploadUnknown)
      | .ok () => some (store, disk, goto .openRow)
  | .route, .fault _ => some (store, disk, refuse internalError)
  | .openRow, .go =>
    match store.getUpload p.request.id with
    | .error _ => some (store, disk, refuse uploadUnknown)
    | .ok row =>
      if row.repository = p.request.name then some (store, disk, goto .openBytes)
      else some (store, disk, refuse uploadUnknown)
  | .openRow, .fault _ => some (store, disk, refuse internalError)
  | .openBytes, .go =>
    let (disk', t) := Fs.Call.start disk false (.openUpload p.request.id)
    some (store, disk', goto (p.request.opened quota t.phase))
  | .openBytes, .fault _ =>
    let (disk', t) := Fs.Call.start disk true (.openUpload p.request.id)
    some (store, disk', goto (p.request.opened quota t.phase))
  | .write offset, .go =>
    let (disk', t) := Fs.Call.start disk false (.write p.request.id offset)
    some (store, disk', goto (copying t))
  | .write offset, .fault _ =>
    let (disk', t) := Fs.Call.start disk true (.write p.request.id offset)
    some (store, disk', goto (copying t))
  | .copy t, input =>
    (t.next digestOf disk input).map fun r =>
      (store, r.1,
        { p with
          phase := copying { t with phase := r.2 }
          body := p.body ++ arrived input
          held := (r.1.contentAt (.upload p.request.id)).getD [] })
  | .record offset, .go =>
    match store.updateUpload p.request.id offset now with
    | .error _ => some (store, disk, refuse internalError)
    | .ok store' =>
      some (store', disk, goto (.done (.accepted (uploadLocation p.request.name p.request.id)
        (rangeHeader offset) p.request.id)))
  | .record _, .fault _ => some (store, disk, refuse internalError)
  | _, _ => none

structure Chunked where
  store : Meta.Store
  disk : Fs.Disk
  patches : List Patch

/-- A PATCH arrives, or goes on. -/
inductive ChunkAction
  | patch (request : PatchRequest)
  | step (k : ℕ) (input : Fs.Input) (now : Meta.Time)

def Chunked.step (w : Chunked) : ChunkAction → Option Chunked
  | .patch request => some { w with patches := w.patches ++ [⟨request, .route, [], []⟩] }
  | .step k input now =>
    w.patches[k]?.bind fun p => (p.step digestOf quota w.store w.disk input now).map fun r =>
      { store := r.1, disk := r.2.1, patches := w.patches.set k r.2.2 }

/-! ## Turns -/

/-- The PATCH has read the session's offset and its append has not ended. -/
def Patch.holds (p : Patch) : Bool :=
  match p.phase with
  | .write _ | .copy _ => true
  | _ => false

/-- A PATCH reads the session's offset only while no other is between that and the end of its
append. -/
def TakesTurns (w : Chunked) : ChunkAction → Prop
  | .patch _ => True
  | .step k _ _ => ∀ p ∈ w.patches[k]?, p.phase = .openBytes →
    ∀ q ∈ w.patches, q.request.id = p.request.id → q.holds = false

instance (w : Chunked) : (a : ChunkAction) → Decidable (TakesTurns w a)
  | .patch _ => inferInstanceAs (Decidable True)
  | .step k _ _ =>
    match h : w.patches[k]? with
    | none => .isTrue (by simp [TakesTurns, h])
    | some p =>
      decidable_of_iff (p.phase = .openBytes →
        ∀ q ∈ w.patches, q.request.id = p.request.id → q.holds = false) (by simp [TakesTurns, h])

/-- The chunk, when there is one and its start was stated, is in the session's content from that
start on, and the range is what the session held when the append ended. -/
def Truthful (disk : Fs.Disk) (p : Patch) : Prop :=
  ∀ location range uuid, p.phase = .done (.accepted location range uuid) → p.body ≠ [] →
    p.request.contentRange ≠ "" →
    ∃ s : ℕ, contentRangeStart p.request.contentRange = some (s : ℤ) ∧
      (∃ content, disk.contentAt (.upload p.request.id) = some content ∧
        (content.drop s).take p.body.length = p.body) ∧
      range = "0-" ++ toString (p.held.length - 1) ∧ 0 < p.held.length

/-! ## What a PATCH relies on -/

variable {digestOf quota}

def PatchRequest.Agrees (r : PatchRequest) (offset : ℕ) : Prop :=
  r.contentRange ≠ "" → contentRangeStart r.contentRange = some (offset : ℤ)

/-- The chunk was appended to what the session held, and the session has kept it. -/
def Patch.Appended (disk : Fs.Disk) (p : Patch) : Prop :=
  ∃ base more, p.request.Agrees base.length ∧ p.held = base ++ p.body ∧
    disk.contentAt (.upload p.request.id) = some (p.held ++ more)

def Patch.Ok (disk : Fs.Disk) (p : Patch) : Prop :=
  match p.phase with
  | .route | .openRow | .openBytes => p.body = []
  | .write offset => p.body = [] ∧ p.request.Agrees offset ∧
    ∃ content, disk.contentAt (.upload p.request.id) = some content ∧ content.length = offset
  | .copy t => ∃ file base, t = ⟨p.request.id, false, .writing file base.length p.body.length⟩ ∧
    p.request.Agrees base.length ∧ disk.entry (.upload p.request.id) = some file ∧
    disk.contentAt (.upload p.request.id) = some (base ++ p.body)
  | .record offset => offset = p.held.length ∧ p.Appended disk
  | .done (.accepted _ range _) => range = rangeHeader p.held.length ∧ p.Appended disk
  | .done _ => True

variable {disk disk' : Fs.Disk} {p q : Patch}

theorem Patch.Ok.truthful (h : p.Ok disk) : Truthful disk p := by
  intro location range uuid hph hbd hst
  rw [Patch.Ok, hph] at h
  obtain ⟨hrn, base, more, hag, hhl, hcn⟩ := h
  refine ⟨base.length, hag hst, ⟨p.held ++ more, hcn, ?_⟩, ?_, ?_⟩
  · rw [hhl, append_assoc, drop_left, take_left]
  · have hne : p.held.length ≠ 0 := by
      rw [hhl, length_append]
      have := length_pos_iff.mpr hbd
      omega
    rw [hrn, rangeHeader, if_neg hne]
  · rw [hhl, length_append]
    have := length_pos_iff.mpr hbd
    omega

theorem Patch.Ok.grow (h : q.Ok disk) (hen : disk'.entry = disk.entry)
    (hgr : ∀ content, disk.contentAt (.upload q.request.id) = some content →
      ∃ more, disk'.contentAt (.upload q.request.id) = some (content ++ more) ∧
        (q.holds = true → more = [])) : q.Ok disk' := by
  have hap : q.Appended disk → q.Appended disk' := by
    rintro ⟨base, more, hag, hhl, hcn⟩
    obtain ⟨more', hcn', -⟩ := hgr _ hcn
    exact ⟨base, more ++ more', hag, hhl, by rw [hcn', append_assoc]⟩
  unfold Patch.Ok at h ⊢
  unfold Patch.holds at hgr
  split at h
  · exact h
  · exact h
  · exact h
  · rename_i offset hph
    obtain ⟨hbd, hag, content, hcn, hln⟩ := h
    obtain ⟨more, hcn', hsm⟩ := hgr content hcn
    rw [hsm (by rw [hph]), append_nil] at hcn'
    exact ⟨hbd, hag, content, hcn', hln⟩
  · rename_i t hph
    obtain ⟨file, base, ht, hag, hfl, hcn⟩ := h
    obtain ⟨more, hcn', hsm⟩ := hgr _ hcn
    rw [hsm (by rw [hph]), append_nil] at hcn'
    exact ⟨file, base, ht, hag, by rw [hen]; exact hfl, hcn'⟩
  · exact ⟨h.1, hap h.2⟩
  · exact ⟨h.1, hap h.2⟩
  · trivial

/-! ## One step -/

variable (quota) in
theorem opened_ok {fault : Bool} {t : Fs.Task} (hbd : p.body = [])
    (hst : Fs.Call.start disk fault (.openUpload p.request.id) = (disk', t)) :
    disk' = disk ∧ Patch.Ok disk { p with phase := p.request.opened quota t.phase } := by
  rw [Fs.Call.start] at hst
  split at hst
  · rename_i err hvl
    cases hst
    unfold PatchRequest.opened
    split
    · rename_i heq
      cases heq
    · trivial
    · trivial
  · split_ifs at hst
    · cases hst
      exact ⟨rfl, trivial⟩
    · split at hst
      · cases hst
        exact ⟨rfl, trivial⟩
      · rename_i content hcn
        cases hst
        refine ⟨rfl, ?_⟩
        show Patch.Ok disk { p with phase := p.request.checked quota content.length }
        unfold PatchRequest.checked
        split_ifs with hrn
        · trivial
        · cases hqt : quota p.request.name p.request.contentLength with
          | error message => trivial
          | ok =>
            refine ⟨hbd, fun hsd => ?_, content, hcn, rfl⟩
            by_contra hst
            exact hrn ⟨hsd, hst⟩

theorem write_ok {offset : ℕ} {fault : Bool} {t : Fs.Task} (h : p.Ok disk)
    (hph : p.phase = .write offset)
    (hst : Fs.Call.start disk fault (.write p.request.id offset) = (disk', t)) :
    disk' = disk ∧ Patch.Ok disk { p with phase := copying t } := by
  rw [Patch.Ok, hph] at h
  obtain ⟨hbd, hag, content, hcn, rfl⟩ := h
  rw [Fs.Call.start] at hst
  split_ifs at hst
  · cases hst
    exact ⟨rfl, trivial⟩
  · split at hst
    · cases hst
      exact ⟨rfl, trivial⟩
    · rename_i file hfl
      cases hst
      refine ⟨rfl, file, content, ?_, hag, hfl, ?_⟩
      · rw [hbd]
        rfl
      · rw [hbd, append_nil]
        exact hcn

def Patch.Writes (p : Patch) (disk disk' : Fs.Disk) : Prop :=
  disk' = disk ∨ (p.holds = true ∧ ∃ file bytes, disk.entry (.upload p.request.id) = some file ∧
    disk' = disk.append file bytes)

theorem contentAt_append {file : ℕ} {bytes content : Content} {path : Fs.Path}
    (hen : disk.entry path = some file) (hcn : disk.contentAt path = some content) :
    (disk.append file bytes).contentAt path = some (content ++ bytes) := by
  obtain ⟨i, hi, rfl⟩ := Files.contentAt_eq_some.mp hcn
  obtain rfl := Option.some.inj (hi.symm.trans hen)
  exact Files.contentAt_eq_some.mpr ⟨i, hi, Files.content_store_self _⟩

theorem copy_ok {t : Fs.Task} {input : Fs.Input} {phase : Fs.Phase} (h : p.Ok disk)
    (hph : p.phase = .copy t) (hnx : t.next digestOf disk input = some (disk', phase)) :
    Patch.Ok disk' { p with
      phase := copying { t with phase := phase }
      body := p.body ++ arrived input
      held := (disk'.contentAt (.upload p.request.id)).getD [] } ∧ p.Writes disk disk' := by
  rw [Patch.Ok, hph] at h
  obtain ⟨file, base, rfl, hag, hfl, hcn⟩ := h
  cases input with
  | bytes chunk =>
    obtain ⟨rfl, rfl⟩ := hnx
    have hhl : p.holds = true := by rw [Patch.holds, hph]
    refine ⟨⟨file, base, ?_, hag, hfl, ?_⟩, .inr ⟨hhl, file, chunk, hfl, rfl⟩⟩
    · rw [arrived, length_append]
    · rw [contentAt_append hfl hcn, append_assoc]
      rfl
  | eof =>
    obtain ⟨rfl, rfl⟩ := hnx
    refine ⟨⟨?_, base, [], hag, ?_, ?_⟩, .inl rfl⟩
    · rw [hcn, Option.getD_some, length_append]
    · rw [hcn, Option.getD_some, show arrived .eof = [] from rfl, append_nil]
    · rw [hcn, Option.getD_some, append_nil]
  | fault what =>
    obtain ⟨rfl, rfl⟩ := hnx
    exact ⟨trivial, .inl rfl⟩
  | take n => cases hnx
  | go => cases hnx

/-- What a step can do: it keeps what the PATCH relies on, writes only between its two ends, and
passes the first of them by reading the offset. -/
theorem Patch.step_cases {store store' : Meta.Store} {input : Fs.Input} {now : Meta.Time}
    {p' : Patch} (h : p.Ok disk)
    (hst : p.step digestOf quota store disk input now = some (store', disk', p')) :
    p'.Ok disk' ∧ p'.request = p.request ∧ p.Writes disk disk' ∧
      (p'.holds = true → p.holds = true ∨ p.phase = .openBytes) := by
  unfold Patch.step at hst
  split at hst
  · rename_i hph
    rw [Patch.Ok, hph] at h
    split at hst
    · cases hst
      exact ⟨trivial, rfl, .inl rfl, fun hhl => by cases hhl⟩
    · split at hst
      · cases hst
        exact ⟨trivial, rfl, .inl rfl, fun hhl => by cases hhl⟩
      · cases hst
        exact ⟨h, rfl, .inl rfl, fun hhl => by cases hhl⟩
  · cases hst
    exact ⟨trivial, rfl, .inl rfl, fun hhl => by cases hhl⟩
  · rename_i hph
    rw [Patch.Ok, hph] at h
    split at hst
    · cases hst
      exact ⟨trivial, rfl, .inl rfl, fun hhl => by cases hhl⟩
    · split at hst
      · cases hst
        exact ⟨h, rfl, .inl rfl, fun hhl => by cases hhl⟩
      · cases hst
        exact ⟨trivial, rfl, .inl rfl, fun hhl => by cases hhl⟩
  · cases hst
    exact ⟨trivial, rfl, .inl rfl, fun hhl => by cases hhl⟩
  · rename_i hph
    rw [Patch.Ok, hph] at h
    rcases hsr : Fs.Call.start disk false (.openUpload p.request.id) with ⟨disk₁, t⟩
    rw [hsr] at hst
    cases hst
    obtain ⟨rfl, hok⟩ := opened_ok quota h hsr
    exact ⟨hok, rfl, .inl rfl, fun _ => .inr hph⟩
  · rename_i hph
    rw [Patch.Ok, hph] at h
    rcases hsr : Fs.Call.start disk true (.openUpload p.request.id) with ⟨disk₁, t⟩
    rw [hsr] at hst
    cases hst
    obtain ⟨rfl, hok⟩ := opened_ok quota h hsr
    exact ⟨hok, rfl, .inl rfl, fun _ => .inr hph⟩
  · rename_i offset hph
    rcases hsr : Fs.Call.start disk false (.write p.request.id offset) with ⟨disk₁, t⟩
    rw [hsr] at hst
    cases hst
    obtain ⟨rfl, hok⟩ := write_ok h hph hsr
    exact ⟨hok, rfl, .inl rfl, fun _ => .inl (by rw [Patch.holds, hph])⟩
  · rename_i offset what hph
    rcases hsr : Fs.Call.start disk true (.write p.request.id offset) with ⟨disk₁, t⟩
    rw [hsr] at hst
    cases hst
    obtain ⟨rfl, hok⟩ := write_ok h hph hsr
    exact ⟨hok, rfl, .inl rfl, fun _ => .inl (by rw [Patch.holds, hph])⟩
  · rename_i t hph
    obtain ⟨⟨disk₁, phase⟩, hnx, heq⟩ := Option.map_eq_some_iff.mp hst
    cases heq
    obtain ⟨hok, hwr⟩ := copy_ok h hph hnx
    exact ⟨hok, rfl, hwr, fun _ => .inl (by rw [Patch.holds, hph])⟩
  · rename_i offset hph
    rw [Patch.Ok, hph] at h
    obtain ⟨rfl, hap⟩ := h
    split at hst
    · cases hst
      exact ⟨trivial, rfl, .inl rfl, fun hhl => by cases hhl⟩
    · cases hst
      exact ⟨⟨rfl, hap⟩, rfl, .inl rfl, fun hhl => by cases hhl⟩
  · cases hst
    exact ⟨trivial, rfl, .inl rfl, fun hhl => by cases hhl⟩
  · cases hst

/-! ## Every run -/

structure Chunked.Inv (w : Chunked) : Prop where
  ok : ∀ p ∈ w.patches, p.Ok w.disk
  /-- At most one PATCH on a session is between its two ends. -/
  apart : ∀ (i j : ℕ) (p q : Patch), i ≠ j → w.patches[i]? = some p → w.patches[j]? = some q →
    p.request.id = q.request.id → p.holds = true → q.holds = false

theorem Patch.Ok.other (h : q.Ok disk) (hwr : p.Writes disk disk')
    (hap : p.request.id = q.request.id → p.holds = true → q.holds = false) : q.Ok disk' := by
  rcases hwr with rfl | ⟨hhl, file, bytes, hfl, rfl⟩
  · exact h
  · refine h.grow rfl fun content hcn => ?_
    by_cases hid : p.request.id = q.request.id
    · refine ⟨bytes, contentAt_append (hid ▸ hfl) hcn, fun hq => ?_⟩
      rw [hap hid hhl] at hq
      cases hq
    · -- the file has one name, so it is not this session's
      have hne : disk.entry (.upload q.request.id) ≠ some file := fun heq =>
        hid (Fs.Path.upload.inj (disk.single _ _ _ hfl heq))
      refine ⟨[], ?_, fun _ => rfl⟩
      rw [Files.append, Files.contentAt_store_ne hne, append_nil]
      exact hcn

theorem Chunked.Inv.step {w w' : Chunked} {a : ChunkAction} (h : w.Inv) (htr : TakesTurns w a)
    (hst : w.step digestOf quota a = some w') : w'.Inv := by
  cases a with
  | patch request =>
    obtain rfl := Option.some.inj hst
    refine ⟨forall_mem_concat h.ok rfl,
      forall_pairs_concat h.apart fun p hp => ⟨fun _ _ => rfl, ?_⟩⟩
    intro _ hhl
    cases hhl
  | step k input now =>
    obtain ⟨p, hp, hmap⟩ := Option.bind_eq_some_iff.mp hst
    obtain ⟨⟨store', disk', p'⟩, hp', rfl⟩ := Option.map_eq_some_iff.mp hmap
    obtain ⟨hok, hrq, hwr, hhl⟩ :=
      Patch.step_cases (h.ok p (mem_of_getElem? hp)) hp'
    -- whoever holds after the step leaves no other of the session holding
    have hal : ∀ (j : ℕ) (q : Patch), k ≠ j → w.patches[j]? = some q →
        p.request.id = q.request.id → p'.holds = true → q.holds = false := by
      intro j q hkj hq hid hhd
      rcases hhl hhd with hbf | hon
      · exact h.apart k j p q hkj hp hq hid hbf
      · exact htr p hp hon q (mem_of_getElem? hq) hid.symm
    refine ⟨fun q hq => ?_, forall_pairs_set h.apart fun j q hjk hq => ⟨fun hid hhd => ?_, ?_⟩⟩
    · obtain ⟨j, hj⟩ := mem_iff_getElem?.mp hq
      rcases eq_of_getElem?_set hj with ⟨-, rfl⟩ | ⟨hjk, hold⟩
      · exact hok
      · exact (h.ok q (mem_of_getElem? hold)).other hwr
          (h.apart k j p q (Ne.symm hjk) hp hold)
    · cases hhl' : p'.holds with
      | false => rfl
      | true =>
        rw [hal j q (Ne.symm hjk) hq (hrq ▸ hid.symm) hhl'] at hhd
        cases hhd
    · exact fun hid hhd => hal j q (Ne.symm hjk) hq (hrq ▸ hid) hhd

/-- **Truthful offsets.** In every run of any number of PATCHes that read a session's offset one at
a time, every answer is true of the content in every state reached. -/
theorem truthful_of_run (digestOf : String → Content → Digest)
    (quota : String → ℤ → Except String Unit) (store : Meta.Store) (disk : Fs.Disk)
    {actions : List ChunkAction} {w : Chunked}
    (hturns : Along (Chunked.step digestOf quota) TakesTurns ⟨store, disk, []⟩ actions)
    (hrun : exec (Chunked.step digestOf quota) ⟨store, disk, []⟩ actions = some w) :
    ∀ p ∈ w.patches, Truthful w.disk p := by
  have hst : Chunked.Inv ⟨store, disk, []⟩ := by
    refine ⟨fun p hp => absurd hp not_mem_nil, ?_⟩
    intro i j p q hij hp
    cases hp
  have hinv := exec_invariant (fun _ _ _ h hok hsp => Chunked.Inv.step h hok hsp) hst
    hturns hrun
  exact fun p hp => (hinv.ok p hp).truthful

/-! ## The run that breaks it -/

/-- The default. -/
def noQuota (_ : String) (_ : ℤ) : Except String Unit := .ok ()

def emptySession : Chunked where
  store := { Meta.Store.empty with
    repos := Table.insert ⟨"team", .hosted, [], 1, 0, 0⟩ ∅
    uploads := Table.insert ⟨"u", "team/app", "", 0, 0, 0⟩ ∅ }
  disk := Files.empty.link (.upload "u")
  patches := []

def openedBy (k : ℕ) : List ChunkAction := [.step k .go 1, .step k .go 1, .step k .go 1]

def appendedBy (k : ℕ) (chunk : Content) : List ChunkAction :=
  [.step k .go 1, .step k (.bytes chunk) 1, .step k .eof 1, .step k .go 1]

def twoPatches (range : String) : List ChunkAction :=
  [.patch ⟨"team/app", "u", "0-0", 1⟩, .patch ⟨"team/app", "u", range, 1⟩]

/-- Two chunks that state the same start are both accepted there: the second lands behind the first,
and its range leaves out the byte before it. -/
theorem truthful_bothAtZero :
    ∃ w ∈ exec (Chunked.step Fs.sampleHash noQuota) emptySession
      (twoPatches "0-0" ++ openedBy 0 ++ openedBy 1 ++ appendedBy 0 [1] ++ appendedBy 1 [2]),
      w.disk.contentAt (.upload "u") = some [1, 2] ∧
      (∃ p ∈ w.patches, p.body = [2] ∧ p.held = [1, 2] ∧
        contentRangeStart p.request.contentRange = some 0 ∧
        p.phase = .done (.accepted "/v2/team/app/blobs/uploads/u" "0-0" "u")) ∧
      ∃ p ∈ w.patches, ¬Truthful w.disk p := by
  have hrun : ∃ w ∈ exec (Chunked.step Fs.sampleHash noQuota) emptySession
      (twoPatches "0-0" ++ openedBy 0 ++ openedBy 1 ++ appendedBy 0 [1] ++ appendedBy 1 [2]),
      w.disk.contentAt (.upload "u") = some [1, 2] ∧
      ∃ p ∈ w.patches, p.body = [2] ∧ p.held = [1, 2] ∧
        contentRangeStart p.request.contentRange = some 0 ∧
        p.phase = .done (.accepted "/v2/team/app/blobs/uploads/u" "0-0" "u") ∧
        p.request.contentRange ≠ "" := by
    decide +kernel
  obtain ⟨w, hw, hcn, p, hp, hbd, hhl, hst, hph, hsd⟩ := hrun
  refine ⟨w, hw, hcn, ⟨p, hp, hbd, hhl, hst, hph⟩, p, hp, fun htr => ?_⟩
  obtain ⟨s, -, -, hrn, -⟩ := htr _ _ _ hph (by rw [hbd]; decide) hsd
  rw [hhl] at hrn
  exact absurd hrn (by decide)

/-- The same with the second chunk stated behind the first, and sent after it. -/
theorem truthful_of_run_inTurn :
    ∃ w, exec (Chunked.step Fs.sampleHash noQuota) emptySession
        (twoPatches "1-1" ++ openedBy 0 ++ appendedBy 0 [1] ++ openedBy 1 ++ appendedBy 1 [2]) =
          some w ∧
      (∃ p ∈ w.patches, p.body = [2] ∧
        p.phase = .done (.accepted "/v2/team/app/blobs/uploads/u" "0-1" "u")) ∧
      ∀ p ∈ w.patches, Truthful w.disk p := by
  have hrun : ∃ w ∈ exec (Chunked.step Fs.sampleHash noQuota) emptySession
      (twoPatches "1-1" ++ openedBy 0 ++ appendedBy 0 [1] ++ openedBy 1 ++ appendedBy 1 [2]),
      ∃ p ∈ w.patches, p.body = [2] ∧
        p.phase = .done (.accepted "/v2/team/app/blobs/uploads/u" "0-1" "u") := by
    decide +kernel
  have htr : Along (Chunked.step Fs.sampleHash noQuota) TakesTurns emptySession
      (twoPatches "1-1" ++ openedBy 0 ++ appendedBy 0 [1] ++ openedBy 1 ++ appendedBy 1 [2]) := by
    decide +kernel
  obtain ⟨w, hw, hp⟩ := hrun
  exact ⟨w, hw, hp, truthful_of_run Fs.sampleHash noQuota emptySession.store emptySession.disk
    htr hw⟩

end Trove.Registry
