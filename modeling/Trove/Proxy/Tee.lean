import Trove.Blob.Verify
import Trove.Proxy.Fill

/-!
# Filling the cache while a client reads

A blob that is not cached is streamed from the upstream to the client and into an upload session of
the cache at once. What the cache side may answer, call by call, is given with the client's calls;
everything the fill hears and asks stands in a log, and every statement about the cache is one about
that log.
-/

namespace Trove.Proxy

open Lib Meta List
open Blob (Content StreamError algorithmOf)

/-! ## The fill -/

/-- What a fill hears from its source, asks of the cache and tells, in order. -/
inductive FillEvent
  | read (bytes : Content) (err : Option StreamError)
  | write (bytes : Content) (err : Option String)
  | commit (digest : Digest) (result : Except String ℤ)
  | cancel (err : Option String)
  | putCachedBlob (row : CachedBlob) (err : Option String)
  | published (event : CacheEvent)
  | closed (err : Option StreamError)

/-- What the cache side answers to whatever one call of the client makes the fill ask. -/
structure Outcomes where
  write : Option String
  commit : Except String ℤ
  (cancel putCachedBlob : Option String)
  now : Time

/-- The stream a fill reads. -/
structure Source (σ : Type) where
  read : Reader σ UInt8 StreamError
  close : σ → Option StreamError × σ

structure Fill (σ : Type) where
  src : σ
  /-- The cache side failed; the client keeps reading. -/
  abandoned : Bool
  settled : Bool
  log : List FillEvent

namespace Fill

variable {σ : Type} (source : Source σ) (t : Target) (digest : Digest) (o : Outcomes)

/-- One more event. -/
def record (e : FillEvent) (f : Fill σ) : Fill σ := { f with log := f.log ++ [e] }

/-- The session is given up. -/
def cancel (f : Fill σ) : Fill σ :=
  if f.settled then f else { f with settled := true }.record (.cancel o.cancel)

/-- Nothing more is copied. -/
def abandon (f : Fill σ) : Fill σ := { f with abandoned := true }.cancel o

/-- The bytes first, then the row. -/
def complete (f : Fill σ) : Fill σ :=
  if f.settled || f.abandoned then f
  else
    let f := { f with settled := true }.record (.commit digest o.commit)
    match o.commit with
    | .error _ => f
    | .ok size =>
      let f := f.record (.putCachedBlob ⟨t.repository, digest, size, o.now, o.now⟩ o.putCachedBlob)
      match o.putCachedBlob with
      | some _ => f
      | none => f.record (.published (.filled t.repository t.remote digest size))

def copy (bytes : Content) (f : Fill σ) : Fill σ :=
  if bytes ≠ [] ∧ f.abandoned = false then
    let f := f.record (.write bytes o.write)
    match o.write with
    | some _ => f.abandon o
    | none => f
  else f

def settle (err : Option StreamError) (f : Fill σ) : Fill σ :=
  match err with
  | none => f
  | some .eof => f.complete t digest o
  | some (.mismatch _) => (f.record (.published (.corrupt t.repository digest))).cancel o
  | some (.failed _) => f.cancel o

def read (length : ℕ) (f : Fill σ) : (Content × Option StreamError) × Fill σ :=
  let ((bytes, err), src) := source.read f.src length
  let f := { f with src := src }.record (.read bytes err)
  ((bytes, err), (f.copy o bytes).settle t digest o err)

def close (f : Fill σ) : Option StreamError × Fill σ :=
  let f := f.cancel o
  let (err, src) := source.close f.src
  (err, { f with src := src }.record (.closed err))

end Fill

/-! ## The client -/

/-- What the client is given to read. -/
inductive Body (σ : Type)
  | uncached (src : σ)
  | filling (f : Fill σ)

def tee {σ : Type} (created : Option String) (src : σ) : Body σ :=
  match created with
  | some _ => .uncached src
  | none => .filling ⟨src, false, false, []⟩

/-- What a client does with the body. -/
inductive ClientCall
  | read (length : ℕ) (outcomes : Outcomes)
  | close (outcomes : Outcomes)

/-- What the client sees of a call. -/
inductive Seen
  | read (bytes : Content) (err : Option StreamError)
  | closed (err : Option StreamError)
  deriving DecidableEq

namespace Source

variable {σ : Type} (source : Source σ)

def call (src : σ) : ClientCall → Seen × σ
  | .read length _ =>
    let ((bytes, err), src) := source.read src length
    (.read bytes err, src)
  | .close _ =>
    let (err, src) := source.close src
    (.closed err, src)

/-- One call after another. -/
def calls (src : σ) : List ClientCall → List Seen × σ
  | [] => ([], src)
  | c :: cs =>
    let (seen, src) := source.call src c
    let (rest, src) := calls src cs
    (seen :: rest, src)

end Source

namespace Body

variable {σ : Type} (source : Source σ) (t : Target) (digest : Digest)

def call (body : Body σ) (c : ClientCall) : Seen × Body σ :=
  match body with
  | .uncached src =>
    let (seen, src) := source.call src c
    (seen, .uncached src)
  | .filling f =>
    match c with
    | .read length o =>
      let ((bytes, err), f) := f.read source t digest o length
      (.read bytes err, .filling f)
    | .close o =>
      let (err, f) := f.close source o
      (.closed err, .filling f)

def calls (body : Body σ) : List ClientCall → List Seen × Body σ
  | [] => ([], body)
  | c :: cs =>
    let (seen, body) := body.call source t digest c
    let (rest, body) := calls body cs
    (seen :: rest, body)

def src : Body σ → σ
  | .uncached src => src
  | .filling f => f.src

def log : Body σ → List FillEvent
  | .uncached _ => []
  | .filling f => f.log

end Body

/-! ## Reading the log -/

namespace FillEvent

@[simp] def isCommit : FillEvent → Bool
  | .commit _ _ => true
  | _ => false

@[simp] def isCancel : FillEvent → Bool
  | .cancel _ => true
  | _ => false

@[simp] def isPut : FillEvent → Bool
  | .putCachedBlob _ _ => true
  | _ => false

@[simp] def settles (e : FillEvent) : Bool := e.isCommit || e.isCancel || e.isPut

/-- The bytes the source gave. -/
@[simp] def given : FillEvent → Content
  | .read bytes _ => bytes
  | _ => []

@[simp] def put : FillEvent → Content
  | .write bytes _ => bytes
  | _ => []

@[simp] def failedWrite : FillEvent → Bool
  | .write _ err => err.isSome
  | _ => false

end FillEvent

def delivered (log : List FillEvent) : Content := (log.map FillEvent.given).flatten

def written (log : List FillEvent) : Content := (log.map FillEvent.put).flatten

def Called (digestOf : String → Content → Digest) (t : Target) (digest : Digest)
    (before : List FillEvent) : FillEvent → Prop
  | .commit d _ => d = digest ∧
      (∀ e ∈ before, ¬ e.isCommit = true ∧ ¬ e.isCancel = true) ∧
      (∃ bytes, .read bytes (some .eof) ∈ before) ∧
      (∀ e ∈ before, ¬ e.failedWrite = true) ∧ written before = delivered before ∧
      digestOf (algorithmOf digest) (delivered before) = digest
  | .cancel _ => ∀ e ∈ before, ¬ e.isCommit = true ∧ ¬ e.isCancel = true
  | .putCachedBlob row _ => (∀ e ∈ before, ¬ e.isPut = true) ∧
      ∃ size at_, .commit digest (.ok size) ∈ before ∧
        row = ⟨t.repository, digest, size, at_, at_⟩
  | _ => True

theorem delivered_append (log log' : List FillEvent) :
    delivered (log ++ log') = delivered log ++ delivered log' := by
  simp [delivered]

theorem written_append (log log' : List FillEvent) :
    written (log ++ log') = written log ++ written log' := by
  simp [written]

/-! ## One call -/

section step

variable {σ : Type} {digestOf : String → Content → Digest} {source : Source σ} {t : Target}
  {digest : Digest} {o : Outcomes} {src₀ : σ} {f : Fill σ}

/-- The session holds all that was delivered. -/
structure Copied (log : List FillEvent) : Prop where
  all : written log = delivered log
  stored : ∀ e ∈ log, ¬ e.failedWrite = true

theorem Copied.concat_read_nil {log : List FillEvent} (h : Copied log)
    (err : Option StreamError) : Copied (log ++ [.read [] err]) := by
  refine ⟨?_, ?_⟩
  · rw [written_append, delivered_append, h.all]
    rfl
  · simpa [or_imp, forall_and] using h.stored

theorem Copied.concat_write {log : List FillEvent} (h : Copied log) (bytes : Content)
    (err : Option StreamError) : Copied (log ++ [.read bytes err] ++ [.write bytes none]) := by
  refine ⟨?_, ?_⟩
  · simp only [written_append, delivered_append, h.all]
    simp [written, delivered]
  · simpa [or_imp, forall_and] using h.stored

namespace Fill

/-! ### The source behind a fill -/

section src

variable (f : Fill σ)

theorem cancel_src : (f.cancel o).src = f.src := by
  unfold cancel
  split_ifs <;> rfl

theorem copy_src (bytes : Content) : (f.copy o bytes).src = f.src := by
  unfold copy abandon
  split_ifs
  · cases o.write with
    | some err => exact cancel_src _
    | none => rfl
  · rfl

theorem complete_src : (f.complete t digest o).src = f.src := by
  unfold complete
  split_ifs
  · rfl
  · cases o.commit with
    | error => rfl
    | ok =>
      cases o.putCachedBlob with
      | some => rfl
      | none => rfl

theorem settle_src (err : Option StreamError) : (f.settle t digest o err).src = f.src := by
  unfold settle
  split
  · rfl
  · exact complete_src f
  · exact cancel_src _
  · exact cancel_src f

theorem read_src (length : ℕ) :
    (f.read source t digest o length).2.src = (source.read f.src length).2 := by
  unfold read
  simp only [settle_src, copy_src, record]

end src

/-! ### The log of a fill -/

/-- What a fill's log says, and what it says about the session. -/
structure Sound (digestOf : String → Content → Digest) (t : Target) (digest : Digest)
    (f : Fill σ) : Prop where
  justified : Justified (Called digestOf t digest) f.log
  settled : ∀ e ∈ f.log, e.settles = true → f.settled = true

/-- A fill that has not settled has heard no error, and its session holds what was delivered. -/
structure Inv (digestOf : String → Content → Digest) (source : Source σ) (t : Target)
    (digest : Digest) (src₀ : σ) (f : Fill σ) : Prop where
  sound : f.Sound digestOf t digest
  abandoned : f.abandoned = true → f.settled = true
  copied : f.settled = false → Copied f.log
  gives : f.settled = false → Gives source.read src₀ f.src (delivered f.log)

theorem Sound.first (h : f.Sound digestOf t digest) (hon : f.settled = false) :
    ∀ e ∈ f.log, ¬ e.isCommit = true ∧ ¬ e.isCancel = true ∧ ¬ e.isPut = true := by
  intro e he
  have hnot : ¬ e.settles = true := fun hs => by simp [h.settled e he hs] at hon
  simpa [FillEvent.settles, and_assoc] using hnot

theorem Sound.record {e : FillEvent} (h : f.Sound digestOf t digest)
    (hcl : Called digestOf t digest f.log e) (hst : e.settles = true → f.settled = true) :
    (f.record e).Sound digestOf t digest := by
  refine ⟨justified_concat.mpr ⟨h.justified, hcl⟩, fun e' he' hs => ?_⟩
  rcases mem_append.mp he' with hold | hnew
  · exact h.settled e' hold hs
  · rw [mem_singleton.mp hnew] at hs
    exact hst hs

theorem Sound.settle (h : f.Sound digestOf t digest) :
    { f with settled := true }.Sound digestOf t digest :=
  ⟨h.justified, fun _ _ _ => rfl⟩

theorem cancel_settled (f : Fill σ) : (f.cancel o).settled = true := by
  unfold cancel
  split_ifs with h
  · exact h
  · rfl

theorem Sound.cancel (h : f.Sound digestOf t digest) : (f.cancel o).Sound digestOf t digest := by
  unfold Fill.cancel
  split_ifs with hst
  · exact h
  · have hfr := h.first (by simpa using hst)
    exact h.settle.record (fun e he => ⟨(hfr e he).1, (hfr e he).2.1⟩) fun _ => rfl

theorem Sound.abandon (h : f.Sound digestOf t digest) :
    (f.abandon o).Sound digestOf t digest :=
  Sound.cancel ⟨h.justified, h.settled⟩

theorem Sound.copy (h : f.Sound digestOf t digest) (bytes : Content) :
    (f.copy o bytes).Sound digestOf t digest := by
  have hwr (err : Option String) := h.record (e := .write bytes err) trivial (by simp)
  unfold Fill.copy
  split_ifs
  · cases o.write with
    | some err => exact (hwr _).abandon
    | none => exact hwr _
  · exact h

theorem copy_open {bytes : Content} (hab : f.abandoned = true → f.settled = true)
    (hon : (f.copy o bytes).settled = false) :
    f.settled = false ∧
      (bytes = [] ∧ (f.copy o bytes).log = f.log ∨
        (f.copy o bytes).log = f.log ++ [.write bytes none]) := by
  unfold copy at hon ⊢
  split_ifs at hon ⊢ with hcp
  · cases hwr : o.write with
    | some err =>
      simp [hwr, abandon, cancel_settled] at hon
    | none =>
      rw [hwr] at hon
      exact ⟨hon, .inr rfl⟩
  · refine ⟨hon, .inl ⟨?_, rfl⟩⟩
    by_contra hby
    have hlv : f.abandoned = false := by
      cases h : f.abandoned with
      | true => simp [hab h] at hon
      | false => rfl
    exact hcp ⟨hby, hlv⟩

theorem copy_abandoned {bytes : Content} (hab : f.abandoned = true → f.settled = true)
    (h : (f.copy o bytes).abandoned = true) : (f.copy o bytes).settled = true := by
  unfold copy at h ⊢
  split_ifs at h ⊢ with hcp
  · cases hwr : o.write with
    | some err => exact cancel_settled _
    | none =>
      rw [hwr] at h
      exact hab h
  · exact hab h

theorem Sound.complete (h : f.Sound digestOf t digest)
    (hrd : f.settled = false → f.abandoned = false → Copied f.log ∧
      (∃ bytes, .read bytes (some .eof) ∈ f.log) ∧
      digestOf (algorithmOf digest) (delivered f.log) = digest) :
    (f.complete t digest o).Sound digestOf t digest := by
  unfold Fill.complete
  split_ifs with hst
  · exact h
  simp only [Bool.or_eq_true, not_or, Bool.not_eq_true] at hst
  obtain ⟨hcp, heof, hdg⟩ := hrd hst.1 hst.2
  have hfr := h.first hst.1
  have hcm := h.settle.record (e := .commit digest o.commit)
    ⟨rfl, fun e he => ⟨(hfr e he).1, (hfr e he).2.1⟩, heof, hcp.stored, hcp.all,
      hdg⟩ fun _ => rfl
  cases hrs : o.commit with
  | error err => rwa [hrs] at hcm
  | ok size =>
    rw [hrs] at hcm
    have hput := hcm.record
      (e := .putCachedBlob ⟨t.repository, digest, size, o.now, o.now⟩ o.putCachedBlob) ?_
        fun _ => rfl
    · cases hout : o.putCachedBlob with
      | some err => rwa [hout] at hput
      | none =>
        rw [hout] at hput
        exact hput.record trivial (by simp)
    · refine ⟨fun e he => ?_, size, o.now, by simp [Fill.record], rfl⟩
      rcases mem_append.mp he with hold | hnew
      · exact (hfr e hold).2.2
      · simp [mem_singleton.mp hnew]

theorem complete_settled (hab : f.abandoned = true → f.settled = true) :
    (f.complete t digest o).settled = true := by
  unfold Fill.complete
  split_ifs with hst
  · rcases Bool.or_eq_true_iff.mp hst with h | h
    · exact h
    · exact hab h
  · cases o.commit with
    | error => rfl
    | ok =>
      cases o.putCachedBlob with
      | some => rfl
      | none => rfl

theorem Inv.of_settled (h : f.Sound digestOf t digest) (hst : f.settled = true) :
    f.Inv digestOf source t digest src₀ :=
  ⟨h, fun _ => hst, by simp [hst], by simp [hst]⟩

/-- **One read** keeps the invariant, whatever the source and the cache answer. -/
theorem Inv.read (hsr : EndsOnlyAfter .eof (digestOf (algorithmOf digest) · = digest)
      source.read src₀) (h : f.Inv digestOf source t digest src₀) (length : ℕ) :
    (f.read source t digest o length).2.Inv digestOf source t digest src₀ := by
  rcases hrd : source.read f.src length with ⟨⟨bytes, err⟩, src⟩
  obtain ⟨f₁, hf₁⟩ : ∃ f₁, f₁ = { f with src := src }.record (.read bytes err) := ⟨_, rfl⟩
  obtain ⟨g, hg⟩ : ∃ g, g = f₁.copy o bytes := ⟨_, rfl⟩
  have hnx : (f.read source t digest o length).2 = g.settle t digest o err := by
    rw [hg, hf₁]
    unfold Fill.read
    rw [hrd]
  rw [hnx]
  have hsound₁ : f₁.Sound digestOf t digest := by
    rw [hf₁]
    exact Sound.record (f := { f with src := src }) (e := .read bytes err)
      ⟨h.sound.justified, h.sound.settled⟩ trivial (by simp)
  have habandoned₁ : f₁.abandoned = true → f₁.settled = true := by
    rw [hf₁]
    exact h.abandoned
  have hsn : g.Sound digestOf t digest := hg ▸ hsound₁.copy bytes
  have hab : g.abandoned = true → g.settled = true := hg ▸ copy_abandoned habandoned₁
  -- a fill that is still open has the answer in its session
  have hcp : g.settled = false → .read bytes err ∈ g.log ∧ Copied g.log ∧
      delivered g.log = delivered f.log ++ bytes ∧ f.settled = false := by
    intro hon
    rw [hg] at hon ⊢
    obtain ⟨hf, hlog⟩ := copy_open habandoned₁ hon
    have hlog₁ : f₁.log = f.log ++ [.read bytes err] := by rw [hf₁]; rfl
    rw [hf₁] at hf
    have hold := h.copied hf
    rcases hlog with ⟨rfl, hlog⟩ | hlog
    · rw [hlog, hlog₁]
      exact ⟨by simp, hold.concat_read_nil err, by simp [delivered], hf⟩
    · rw [hlog, hlog₁]
      exact ⟨by simp, hold.concat_write bytes err, by simp [delivered], hf⟩
  cases err with
  | none =>
    refine ⟨hsn, hab, fun hon => (hcp hon).2.1, fun hon => ?_⟩
    obtain ⟨_, _, hdl, hf⟩ := hcp hon
    have hsrc : g.src = src := by
      rw [hg, copy_src, hf₁]
      rfl
    have hgv := Gives.more length (h.gives hf) (by rw [hrd])
    rw [hrd] at hgv
    show Gives source.read src₀ g.src (delivered g.log)
    rwa [hsrc, hdl]
  | some err =>
    cases err with
    | eof =>
      refine .of_settled (hsn.complete fun hon _ => ?_) (complete_settled hab)
      obtain ⟨hmem, hcy, hdl, hf⟩ := hcp hon
      have hend := hsr f.src (delivered f.log) length (h.gives hf) (by rw [hrd])
      rw [hrd] at hend
      exact ⟨hcy, ⟨bytes, hmem⟩, by rw [hdl]; exact hend⟩
    | mismatch err =>
      have hcr := hsn.record (e := .published (.corrupt t.repository digest)) trivial
        (by simp)
      exact .of_settled hcr.cancel (cancel_settled _)
    | failed text => exact .of_settled hsn.cancel (cancel_settled _)

theorem Inv.close (h : f.Inv digestOf source t digest src₀) :
    (f.close source o).2.Inv digestOf source t digest src₀ := by
  have hcn : (f.cancel o).Sound digestOf t digest := h.sound.cancel
  refine .of_settled ?_ (cancel_settled f)
  exact Sound.record (f := { f.cancel o with src := (source.close (f.cancel o).src).2 })
    ⟨hcn.justified, hcn.settled⟩ trivial (by simp)

end Fill

end step

/-! ## Every sequence of calls -/

section calls

variable {σ : Type} {digestOf : String → Content → Digest} {source : Source σ} {t : Target}
  {digest : Digest} {src₀ : σ}

/-- The fill behind the body keeps its invariant; without one there is no log. -/
def Body.Inv (digestOf : String → Content → Digest) (source : Source σ) (t : Target)
    (digest : Digest) (src₀ : σ) : Body σ → Prop
  | .uncached _ => True
  | .filling f => f.Inv digestOf source t digest src₀

theorem Body.Inv.call {body : Body σ} (hsr : EndsOnlyAfter .eof
      (digestOf (algorithmOf digest) · = digest) source.read src₀)
    (h : body.Inv digestOf source t digest src₀) (c : ClientCall) :
    (body.call source t digest c).2.Inv digestOf source t digest src₀ := by
  cases body with
  | uncached src => trivial
  | filling f =>
    cases c with
    | read length o => exact Fill.Inv.read hsr h length
    | close o => exact Fill.Inv.close h

theorem Body.Inv.calls {body : Body σ} (hsr : EndsOnlyAfter .eof
      (digestOf (algorithmOf digest) · = digest) source.read src₀)
    (h : body.Inv digestOf source t digest src₀) (cs : List ClientCall) :
    (body.calls source t digest cs).2.Inv digestOf source t digest src₀ := by
  induction cs generalizing body with
  | nil => exact h
  | cons c cs ih => exact ih (h.call hsr c)

theorem Body.call_seen (body : Body σ) (c : ClientCall) :
    (body.call source t digest c).1 = (source.call body.src c).1 ∧
      (body.call source t digest c).2.src = (source.call body.src c).2 := by
  cases body with
  | uncached src => exact ⟨rfl, rfl⟩
  | filling f =>
    cases c with
    | read length o => exact ⟨rfl, f.read_src length⟩
    | close o =>
      have hsrc : (f.cancel o).src = f.src := f.cancel_src
      simp only [Body.call, Fill.close, Source.call, Body.src, hsrc, Fill.record, and_self]

theorem Body.calls_seen (body : Body σ) (cs : List ClientCall) :
    (body.calls source t digest cs).1 = (source.calls body.src cs).1 := by
  induction cs generalizing body with
  | nil => rfl
  | cons c cs ih =>
    obtain ⟨hsn, hsrc⟩ := @Body.call_seen _ source t digest body c
    simp only [Body.calls, Source.calls, hsn, ih, hsrc]

theorem Body.Inv.tee (created : Option String) :
    (tee created src₀).Inv digestOf source t digest src₀ := by
  cases created with
  | some err => trivial
  | none => exact ⟨⟨.nil, by simp⟩, by simp, fun _ => ⟨rfl, by simp⟩, fun _ => .start⟩

theorem Body.Inv.justified {body : Body σ} (h : body.Inv digestOf source t digest src₀) :
    Justified (Called digestOf t digest) body.log := by
  cases body with
  | uncached src => exact .nil
  | filling f => exact h.sound.justified

theorem not_commit_and_cancel {log : List FillEvent} (h : Justified (Called digestOf t digest) log)
    {e e' : FillEvent} (he : e ∈ log) (he' : e' ∈ log) (hcm : e.isCommit = true)
    (hcn : e'.isCancel = true) : False := by
  induction log using List.reverseRecOn with
  | nil => simp at he
  | append_singleton log last ih =>
    obtain ⟨hlog, hls⟩ := justified_concat.mp h
    rw [mem_append, mem_singleton] at he he'
    rcases he with he | rfl <;> rcases he' with he' | rfl
    · exact ih hlog he he'
    · -- the last event is the cancel
      cases e' <;> simp at hcn
      exact (hls e he).1 hcm
    · cases e <;> simp at hcm
      exact (hls.2.1 e' he').2 hcn
    · cases e' <;> simp at hcm hcn

end calls

/-- **The fill publishes the verified stream.** For a source that ends only after content that
hashes to the digest, and whatever else it and the cache side answer to whatever calls of the
client: a row is written at most once and behind a successful commit, the session is committed at
most once and only behind the end of the stream, with every byte written to it in order and no write
failed, it is never committed and cancelled, and the client sees what the source alone would have
shown it. -/
theorem tee_publishes_verified {σ : Type} (digestOf : String → Content → Digest)
    (source : Source σ) (t : Target) (digest : Digest) (src : σ) (created : Option String)
    (cs : List ClientCall)
    (hsource : EndsOnlyAfter .eof (digestOf (algorithmOf digest) · = digest) source.read src) :
    let out := (tee created src).calls source t digest cs
    let log := out.2.log
    log.countP FillEvent.isPut ≤ 1 ∧
    (∀ before row err after, log = before ++ .putCachedBlob row err :: after →
      row.repository = t.repository ∧ row.digest = digest ∧
        .commit digest (.ok row.size) ∈ before) ∧
    log.countP FillEvent.isCommit ≤ 1 ∧
    (∀ before d result after, log = before ++ .commit d result :: after →
      d = digest ∧ (∃ bytes, .read bytes (some .eof) ∈ before) ∧
        (∀ e ∈ before, ¬ e.failedWrite = true) ∧ written before = delivered before ∧
        digestOf (algorithmOf digest) (written before) = digest) ∧
    ¬ ((∃ e ∈ log, e.isCommit = true) ∧ ∃ e ∈ log, e.isCancel = true) ∧
    out.1 = (source.calls src cs).1 := by
  intro out log
  have hinv := Body.Inv.calls hsource (Body.Inv.tee (t := t) created) cs
  have hlog : Justified (Called digestOf t digest) log := hinv.justified
  refine ⟨?_, ?_, ?_, ?_, ?_, ?_⟩
  · refine hlog.countP_le_one fun before e he hput => ?_
    cases e <;> simp at hput
    exact he.1
  · intro before row err after hsp
    obtain ⟨_, size, now, hcm, rfl⟩ := hlog before _ after hsp
    exact ⟨rfl, rfl, hcm⟩
  · refine hlog.countP_le_one fun before e he hcm => ?_
    cases e <;> simp at hcm
    exact fun e' he' => (he.2.1 e' he').1
  · intro before d result after hsp
    obtain ⟨hd, _, heof, hst, hall, hdg⟩ := hlog before _ after hsp
    exact ⟨hd, heof, hst, hall, hall ▸ hdg⟩
  · rintro ⟨⟨e, he, hcm⟩, e', he', hcn⟩
    exact not_commit_and_cancel hlog he he' hcm hcn
  · have hsn := @Body.calls_seen _ source t digest (tee created src) cs
    cases created <;> exact hsn

/-! ### A fill -/

def quietClient : Client where
  resolveTag _ _ _ := .error .digestMismatch
  fetchManifest _ _ := .error .digestMismatch
  unchanged := by
    intro _ _ _ _ h
    cases h

def nginx : Target :=
  ⟨"dockerhub/library/nginx", "library/nginx", "dockerhub", quietClient, 0, 0, .strict⟩

/-- The cache takes everything. -/
def accepted : Outcomes := ⟨none, .ok 3, none, none, 0⟩

/-- Three bytes in pieces. -/
def threeByteSource : Source (List Content) := ⟨pieces .eof, fun src => (none, src)⟩

def threeByteHash (_ : String) (content : Content) : Digest :=
  if content = Blob.threeBytes.flatten then Blob.repeated 'a' else Blob.repeated 'b'

/-- The stream is read to its end and closed: a row is written. -/
theorem tee_publishes_threeBytes :
    let out := (tee none Blob.threeBytes).calls threeByteSource nginx (Blob.repeated 'a')
      [.read 8 accepted, .read 8 accepted, .read 8 accepted, .read 8 accepted, .close accepted]
    (∃ e ∈ out.2.log, e.isPut = true) ∧ out.2.log.countP FillEvent.isPut ≤ 1 ∧
      out.1 = [.read [1] none, .read [] none, .read [2, 3] none, .read [] (some .eof),
        .closed none] := by
  have hsr : EndsOnlyAfter .eof (threeByteHash (algorithmOf (Blob.repeated 'a')) · =
      Blob.repeated 'a') threeByteSource.read Blob.threeBytes := by
    intro s given n hgv herr
    exact if_pos (pieces_endsOnlyAfter StreamError.eof Blob.threeBytes s given n hgv herr)
  obtain ⟨hput, _, _, _, _, hsn⟩ := tee_publishes_verified threeByteHash threeByteSource nginx
    (Blob.repeated 'a') Blob.threeBytes none
    [.read 8 accepted, .read 8 accepted, .read 8 accepted, .read 8 accepted, .close accepted]
    hsr
  exact ⟨by decide +kernel, hput, hsn.trans (by decide +kernel)⟩

end Trove.Proxy
