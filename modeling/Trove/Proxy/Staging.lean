import Trove.Blob.FsPublished
import Trove.Proxy.Tee

/-!
# How a fill's session ends

A fill asks for one end of its session, a `Commit` or a `Cancel`, and remembers that it asked. A
`Commit` that fails for any reason but the content leaves the staging file where it is, and since
the fill has asked already, `Close` does not cancel: the bytes stay.
-/

namespace Trove.Proxy

open Lib Meta List
open Blob (Content StreamError)

def ClientCall.outcomes : ClientCall → Outcomes
  | .read _ o | .close o => o

@[simp] def ClientCall.isClose : ClientCall → Bool
  | .read _ _ => false
  | .close _ => true

/-- The event asks for one of the two ends of a session. -/
@[simp] def FillEvent.ends (e : FillEvent) : Bool := e.isCommit || e.isCancel

def Ended (digest : Digest) (cs : List ClientCall) (log : List FillEvent) : Prop :=
  (∃ size, .commit digest (.ok size) ∈ log) ∨ ∃ c ∈ cs, .cancel c.outcomes.cancel ∈ log

namespace Body

variable {σ : Type} (source : Source σ) (t : Target) (digest : Digest)

/-- The call reads the end of the stream into an open session, nothing fails before the session is
committed, and that does. -/
def commitFails (body : Body σ) (c : ClientCall) : Prop :=
  match body, c with
  | .filling f, .read length o =>
    f.settled = false ∧ (source.read f.src length).1.2 = some .eof ∧
      ((source.read f.src length).1.1 = [] ∨ o.write = none) ∧ o.commit.isOk = false
  | _, _ => False

instance (body : Body σ) (c : ClientCall) : Decidable (body.commitFails source c) :=
  match body, c with
  | .filling _, .read _ _ => inferInstanceAs (Decidable (_ ∧ _ ∧ _ ∧ _))
  | .filling _, .close _ | .uncached _, _ => inferInstanceAs (Decidable False)

/-- The body after the call. -/
def next (body : Body σ) (c : ClientCall) : Option (Body σ) :=
  some (body.call source t digest c).2

end Body

/-! ## What one call asks for -/

namespace Fill

variable {σ : Type} {source : Source σ} {t : Target} {digest : Digest} {o : Outcomes} {f : Fill σ}

def endings (f : Fill σ) : List FillEvent := f.log.filter FillEvent.ends

/-- The end an answer of the source asks for when the session is open. -/
def streamEnding (digest : Digest) (o : Outcomes) : Option StreamError → Option FillEvent
  | none => none
  | some .eof => some (.commit digest o.commit)
  | some (.mismatch _) | some (.failed _) => some (.cancel o.cancel)

def ending (digest : Digest) (o : Outcomes) (bytes : Content) (err : Option StreamError) :
    Option FillEvent :=
  if bytes ≠ [] ∧ o.write.isSome = true then some (.cancel o.cancel) else streamEnding digest o err

theorem endings_record_of_not {e : FillEvent} (h : e.ends = false) :
    (f.record e).endings = f.endings := by
  unfold endings record
  rw [filter_append, filter_singleton, h, cond_false, append_nil]

theorem endings_cancel :
    (f.cancel o).endings = f.endings ++ if f.settled then [] else [.cancel o.cancel] := by
  unfold cancel
  split_ifs
  · exact (append_nil _).symm
  · simp [endings, record, filter_append]

theorem endings_complete (hab : f.abandoned = true → f.settled = true) :
    (f.complete t digest o).endings =
      f.endings ++ if f.settled then [] else [.commit digest o.commit] := by
  unfold complete
  cases hst : f.settled with
  | true => simp
  | false =>
    have hlv : f.abandoned = false := by
      cases h : f.abandoned with
      | true => rw [hab h] at hst; cases hst
      | false => rfl
    rw [hlv]
    cases o.commit with
    | error err => simp [endings, record, filter_append]
    | ok size =>
      cases o.putCachedBlob with
      | some err | none => simp [endings, record, filter_append]

theorem copy_spec (hab : f.abandoned = true → f.settled = true) (bytes : Content) :
    ((f.copy o bytes).abandoned = true → (f.copy o bytes).settled = true) ∧
      if bytes ≠ [] ∧ o.write.isSome = true then
        (f.copy o bytes).settled = true ∧
          (f.copy o bytes).endings = f.endings ++ if f.settled then [] else [.cancel o.cancel]
      else (f.copy o bytes).settled = f.settled ∧ (f.copy o bytes).endings = f.endings := by
  refine ⟨copy_abandoned hab, ?_⟩
  unfold copy
  by_cases hby : bytes = []
  · simp [hby]
  cases hlv : f.abandoned with
  | true =>
    have hst := hab hlv
    simp [hst]
  | false =>
    cases hwr : o.write with
    | none =>
      rw [if_neg (by simp), if_pos ⟨hby, rfl⟩]
      exact ⟨rfl, endings_record_of_not rfl⟩
    | some err =>
      rw [if_pos ⟨hby, Option.isSome_some⟩, if_pos ⟨hby, rfl⟩]
      refine ⟨cancel_settled _, ?_⟩
      show ({ f.record (.write bytes (some err)) with abandoned := true }.cancel o).endings = _
      rw [endings_cancel]
      exact congrArg (· ++ _) (endings_record_of_not (f := f) (e := .write bytes (some err)) rfl)

variable (t digest o) in
theorem settle_spec (hab : f.abandoned = true → f.settled = true)
    (err : Option StreamError) :
    let g := f.settle t digest o err
    (g.abandoned = true → g.settled = true) ∧
      g.settled = (f.settled || (streamEnding digest o err).isSome) ∧
      g.endings = f.endings ++ if f.settled then [] else (streamEnding digest o err).toList := by
  intro g
  cases err with
  | none => exact ⟨hab, (Bool.or_false _).symm, by simp [g, settle, streamEnding]⟩
  | some err =>
    cases err with
    | eof =>
      have hst : g.settled = true := complete_settled hab
      exact ⟨fun _ => hst, hst.trans (Bool.or_true _).symm, endings_complete hab⟩
    | mismatch err =>
      have hst : g.settled = true := cancel_settled _
      refine ⟨fun _ => hst, hst.trans (Bool.or_true _).symm, ?_⟩
      refine endings_cancel.trans ?_
      rw [endings_record_of_not rfl]
      rfl
    | failed text =>
      have hst : g.settled = true := cancel_settled _
      exact ⟨fun _ => hst, hst.trans (Bool.or_true _).symm, endings_cancel⟩

/-- **One read** asks for its end if the session is open. -/
theorem read_spec (hab : f.abandoned = true → f.settled = true) (length : ℕ) :
    let answer := (source.read f.src length).1
    let g := (f.read source t digest o length).2
    (g.abandoned = true → g.settled = true) ∧
      g.settled = (f.settled || (ending digest o answer.1 answer.2).isSome) ∧
      g.endings = f.endings ++
        if f.settled then [] else (ending digest o answer.1 answer.2).toList := by
  intro answer g
  obtain ⟨f₁, hf₁⟩ : ∃ f₁, f₁ = { f with src := (source.read f.src length).2 }.record
    (.read answer.1 answer.2) := ⟨_, rfl⟩
  have hg : g = (f₁.copy o answer.1).settle t digest o answer.2 := by rw [hf₁]; rfl
  have hst : f₁.settled = f.settled := by rw [hf₁]; rfl
  have hen : f₁.endings = f.endings := by
    rw [hf₁]
    exact endings_record_of_not (f := { f with src := (source.read f.src length).2 }) rfl
  obtain ⟨hcp, hcy⟩ := copy_spec (o := o) (f := f₁) (by rw [hf₁]; exact hab) answer.1
  obtain ⟨hkp, hon, hak⟩ := settle_spec t digest o hcp answer.2
  rw [hg]
  unfold ending
  by_cases hwr : answer.1 ≠ [] ∧ o.write.isSome = true
  · rw [if_pos hwr] at hcy ⊢
    rw [hcy.1, Bool.true_or] at hon
    rw [hcy.1, if_pos rfl, append_nil, hcy.2, hen, hst] at hak
    exact ⟨hkp, hon.trans (Bool.or_true _).symm, hak⟩
  · rw [if_neg hwr] at hcy ⊢
    rw [hcy.1, hst] at hon
    rw [hcy.1, hcy.2, hen, hst] at hak
    exact ⟨hkp, hon, hak⟩

variable (source o f) in
theorem close_spec :
    (f.close source o).2.settled = true ∧
      (f.close source o).2.endings = f.endings ++ if f.settled then [] else [.cancel o.cancel] := by
  refine ⟨cancel_settled f, ?_⟩
  exact (endings_record_of_not rfl).trans endings_cancel

def endingOf (source : Source σ) (digest : Digest) (f : Fill σ) : ClientCall → Option FillEvent
  | .read length o =>
    ending digest o (source.read f.src length).1.1 (source.read f.src length).1.2
  | .close o => some (.cancel o.cancel)

/-- The fill after a call. -/
def step (source : Source σ) (t : Target) (digest : Digest) (f : Fill σ) : ClientCall → Fill σ
  | .read length o => (f.read source t digest o length).2
  | .close o => (f.close source o).2

variable (source t digest) in
theorem step_spec (hab : f.abandoned = true → f.settled = true) (c : ClientCall) :
    let g := f.step source t digest c
    (g.abandoned = true → g.settled = true) ∧
      g.settled = (f.settled || (f.endingOf source digest c).isSome) ∧
      g.endings = f.endings ++ if f.settled then [] else (f.endingOf source digest c).toList := by
  cases c with
  | read length o => exact read_spec hab length
  | close o =>
    obtain ⟨hst, hen⟩ := close_spec source o f
    exact ⟨fun _ => hst, hst.trans (Bool.or_true _).symm, hen⟩

theorem ending_eq_commit {bytes : Content} {err : Option StreamError} {result : Except String ℤ} :
    ending digest o bytes err = some (.commit digest result) ↔
      err = some .eof ∧ (bytes = [] ∨ o.write = none) ∧ o.commit = result := by
  unfold ending streamEnding
  by_cases hwr : bytes ≠ [] ∧ o.write.isSome = true
  · rw [if_pos hwr]
    have hnot : ¬(bytes = [] ∨ o.write = none) := by
      rintro (hnil | hnn)
      · exact hwr.1 hnil
      · simp [hnn] at hwr
    simp [hnot]
  · rw [if_neg hwr]
    have hwt : bytes = [] ∨ o.write = none := by
      by_cases hnil : bytes = []
      · exact .inl hnil
      · exact .inr (by simpa [hnil] using hwr)
    cases err with
    | none => simp
    | some err => cases err <;> simp [hwt]

theorem endingOf_cases {c : ClientCall} {e : FillEvent} (h : f.endingOf source digest c = some e) :
    (∃ result, e = .commit digest result) ∨ e = .cancel c.outcomes.cancel := by
  cases c with
  | close o => exact .inr (Option.some.inj h).symm
  | read length o =>
    rw [endingOf, ending] at h
    split_ifs at h
    · exact .inr (Option.some.inj h).symm
    · unfold streamEnding at h
      split at h
      · cases h
      · exact .inl ⟨o.commit, (Option.some.inj h).symm⟩
      · exact .inr (Option.some.inj h).symm
      · exact .inr (Option.some.inj h).symm

end Fill

/-! ## Every sequence of calls -/

section calls

variable {σ : Type} {source : Source σ} {t : Target} {digest : Digest} {cs : List ClientCall}
  {f : Fill σ}

/-- A fill has asked for no end of an open session, and for one of a settled one. -/
structure Fill.Asked (digest : Digest) (cs : List ClientCall) (f : Fill σ) : Prop where
  abandoned : f.abandoned = true → f.settled = true
  unsettled : f.settled = false → f.endings = []
  settled : f.settled = true → ∃ e, f.endings = [e] ∧
    ((∃ result, e = .commit digest result) ∨ ∃ c ∈ cs, e = .cancel c.outcomes.cancel)

theorem Fill.Asked.step (h : f.Asked digest cs) {c : ClientCall} (hc : c ∈ cs) :
    (f.step source t digest c).Asked digest cs := by
  obtain ⟨hab, hst, hen⟩ :=
    step_spec source t digest h.abandoned c
  cases hon : f.settled with
  | true =>
    rw [hon, Bool.true_or] at hst
    rw [hon, if_pos rfl, append_nil] at hen
    refine ⟨hab, fun hnot => ?_, fun _ => ?_⟩
    · rw [hst] at hnot
      cases hnot
    · rw [hen]
      exact h.settled hon
  | false =>
    rw [hon, Bool.false_or] at hst
    rw [hon, if_neg Bool.false_ne_true, h.unsettled hon, nil_append] at hen
    cases hed : f.endingOf source digest c with
    | none =>
      rw [hed] at hst hen
      refine ⟨hab, fun _ => hen, fun hnot => ?_⟩
      rw [hst] at hnot
      cases hnot
    | some e =>
      rw [hed] at hst hen
      refine ⟨hab, fun hnot => ?_, fun _ => ⟨e, hen, ?_⟩⟩
      · rw [hst] at hnot
        cases hnot
      · rcases Fill.endingOf_cases hed with hcm | hcn
        · exact .inl hcm
        · exact .inr ⟨c, hc, hcn⟩

def Fill.Failed (digest : Digest) (f : Fill σ) : Prop :=
  ∃ err, .commit digest (.error err) ∈ f.endings

/-- **One call** fails to commit exactly when it meets `commitFails`. -/
theorem Fill.failed_step (h : f.Asked digest cs) (c : ClientCall) :
    (f.step source t digest c).Failed digest ↔
      f.Failed digest ∨ (Body.filling f).commitFails source c := by
  obtain ⟨-, -, hen⟩ :=
    step_spec source t digest h.abandoned c
  unfold Failed
  rw [hen]
  cases hon : f.settled with
  | true =>
    have hnot : ¬(Body.filling f).commitFails source c := by
      cases c with
      | read length o => exact fun hfl => by simp [Body.commitFails, hon] at hfl
      | close o => exact fun hfl => hfl
    simp [hnot]
  | false =>
    rw [h.unsettled hon, if_neg Bool.false_ne_true, nil_append]
    cases c with
    | close o => simp [endingOf, Body.commitFails]
    | read length o =>
      simp only [endingOf, Body.commitFails, hon, Option.mem_toList,
        ending_eq_commit, not_mem_nil, exists_false, false_or, true_and, exists_and_left]
      cases o.commit <;> simp [Except.isOk, Except.toBool]

/-- The fill after the calls. -/
def Fill.after (source : Source σ) (t : Target) (digest : Digest) (f : Fill σ)
    (cs : List ClientCall) : Fill σ := cs.foldl (Fill.step source t digest) f

theorem Body.call_filling (f : Fill σ) (c : ClientCall) :
    ((Body.filling f).call source t digest c).2 = .filling (f.step source t digest c) := by
  cases c with
  | read length o => rfl
  | close o => rfl

theorem Body.calls_filling (f : Fill σ) (cs : List ClientCall) :
    ((Body.filling f).calls source t digest cs).2 = .filling (f.after source t digest cs) := by
  induction cs generalizing f with
  | nil => rfl
  | cons c cs ih =>
    rw [Body.calls]
    dsimp only
    rw [Body.call_filling, ih]
    rfl

variable {rest : List ClientCall}

theorem Fill.Asked.after (h : f.Asked digest cs) (hrs : ∀ c ∈ rest, c ∈ cs) :
    (f.after source t digest rest).Asked digest cs := by
  induction rest generalizing f with
  | nil => exact h
  | cons c rest ih =>
    exact ih (h.step (hrs c mem_cons_self)) fun c' hc' => hrs c' (mem_cons_of_mem c hc')

theorem Fill.failed_after (h : f.Asked digest cs) (hrs : ∀ c ∈ rest, c ∈ cs) :
    (f.after source t digest rest).Failed digest ↔ f.Failed digest ∨
      ¬Along (Body.next source t digest) (fun body c => ¬body.commitFails source c)
        (.filling f) rest := by
  induction rest generalizing f with
  | nil => simp [Fill.after, Along]
  | cons c rest ih =>
    have hst : Body.next source t digest (.filling f) c =
        some (.filling (f.step source t digest c)) := congrArg some (Body.call_filling f c)
    have hak : (f.step source t digest c).Asked digest cs := h.step (hrs c mem_cons_self)
    have hnx := ih hak fun c' hc' => hrs c' (mem_cons_of_mem c hc')
    show ((f.step source t digest c).after source t digest rest).Failed digest ↔ _
    rw [hnx, Fill.failed_step h, Along, hst]
    simp only [Option.mem_def, Option.some.injEq, forall_eq']
    tauto

theorem Fill.settled_after (h : f.Asked digest cs) (hrs : ∀ c ∈ rest, c ∈ cs)
    (hst : f.settled = true ∨ ∃ c ∈ rest, c.isClose = true) :
    (f.after source t digest rest).settled = true := by
  induction rest generalizing f with
  | nil => simpa [Fill.after] using hst
  | cons c rest ih =>
    refine ih (h.step (hrs c mem_cons_self))
      (fun c' hc' => hrs c' (mem_cons_of_mem c hc')) ?_
    rw [(step_spec source t digest h.abandoned c).2.1]
    rcases hst with hst | ⟨c', hc', hcl⟩
    · exact .inl (by rw [hst, Bool.true_or])
    · rcases mem_cons.mp hc' with rfl | hc'
      · cases c' with
        | read length o => cases hcl
        | close o => exact .inl (Bool.or_true _)
      · exact .inr ⟨c', hc', hcl⟩

theorem Fill.Asked.ended_iff (h : f.Asked digest cs) (hst : f.settled = true) :
    Ended digest cs f.log ↔ ¬f.Failed digest := by
  have hmem : ∀ e : FillEvent, e.ends = true → (e ∈ f.log ↔ e ∈ f.endings) := by
    intro e he
    unfold Fill.endings
    rw [mem_filter, he]
    exact (and_iff_left rfl).symm
  obtain ⟨e, he, hcm | ⟨c, hc, rfl⟩⟩ := h.settled hst
  · obtain ⟨result, rfl⟩ := hcm
    unfold Ended Fill.Failed
    simp only [hmem _ (rfl : (FillEvent.commit digest _).ends = true),
      hmem _ (rfl : (FillEvent.cancel _).ends = true), he, mem_singleton]
    cases result <;> simp
  · have hen : Ended digest cs f.log := .inr ⟨c, hc, (hmem _ rfl).mpr (by rw [he]; simp)⟩
    have hnot : ¬f.Failed digest := by
      rintro ⟨err, hfl⟩
      rw [he] at hfl
      simp at hfl
    exact iff_of_true hen hnot

end calls

/-- **No staged bytes.** Whatever the source and the cache side answer, once `Close` is among the
calls the session that was opened has been committed or cancelled, unless one of the calls was to
publish the stream and the `Commit` failed. -/
theorem closed_ended_iff {σ : Type} (source : Source σ) (t : Target) (digest : Digest) (src : σ)
    (cs : List ClientCall) (hclose : ∃ c ∈ cs, c.isClose = true) :
    Ended digest cs ((tee none src).calls source t digest cs).2.log ↔
      Along (Body.next source t digest) (fun body c => ¬body.commitFails source c)
        (tee none src) cs := by
  have hak : Fill.Asked digest cs (⟨src, false, false, []⟩ : Fill σ) :=
    ⟨fun h => h, fun _ => rfl, fun h => by cases h⟩
  have hfr : ¬Fill.Failed digest (⟨src, false, false, []⟩ : Fill σ) := by
    rintro ⟨err, hfl⟩
    cases hfl
  have hall : ∀ c ∈ cs, c ∈ cs := fun _ hc => hc
  unfold tee
  rw [Body.calls_filling]
  show Ended digest cs (Fill.after source t digest _ cs).log ↔ _
  rw [(hak.after hall).ended_iff (Fill.settled_after hak hall (.inr hclose)),
    Fill.failed_after hak hall]
  tauto

/-! ### A `Commit` that fails -/

def commitFailing : List Blob.Fs.Event :=
  [.call (.createUpload "u") false, .call (.write "u" 0) false, .step 1 (.bytes [1]), .step 1 .eof,
    .call (.commit "u" (Blob.repeated 'a')) false, .step 2 (.take 7), .step 2 (.take 7),
    .step 2 (.fault "input/output error")]

def readToEnd (o : Outcomes) : List ClientCall := [.read 8 o, .read 8 o, .close o]

/-- A `Commit` that fails leaves the staged byte, and the fill that hears of it cancels nothing when
it is closed. -/
theorem closed_not_ended :
    (∃ w ∈ exec (Blob.Fs.World.step Blob.Fs.sampleHash) ⟨Files.empty, []⟩ commitFailing,
      w.tasks[2]? = some ⟨"u", false, .done (.failed (.io "stat target"))⟩ ∧
        w.disk.contentAt (.upload "u") = some [1]) ∧
    ¬Ended (Blob.repeated 'a') (readToEnd { accepted with commit := .error "stat target" })
      ((tee none [[1]]).calls threeByteSource nginx (Blob.repeated 'a')
        (readToEnd { accepted with commit := .error "stat target" })).2.log := by
  refine ⟨by decide +kernel, ?_⟩
  have hlog : ((tee none [[1]]).calls threeByteSource nginx (Blob.repeated 'a')
      (readToEnd { accepted with commit := .error "stat target" })).2.log =
      [.read [1] none, .write [1] none, .read [] (some .eof),
        .commit (Blob.repeated 'a') (.error "stat target"), .closed none] := by rfl
  rw [hlog]
  simp [Ended]

theorem closed_ended_accepted :
    (∃ c ∈ readToEnd accepted, c.isClose = true) ∧
      Ended (Blob.repeated 'a') (readToEnd accepted)
        ((tee none [[1]]).calls threeByteSource nginx (Blob.repeated 'a')
          (readToEnd accepted)).2.log := by
  have hcl : ∃ c ∈ readToEnd accepted, c.isClose = true := ⟨.close accepted, by simp [readToEnd]⟩
  refine ⟨hcl, (closed_ended_iff threeByteSource nginx (Blob.repeated 'a') [[1]]
    (readToEnd accepted) hcl).mpr ?_⟩
  decide +kernel

end Trove.Proxy
