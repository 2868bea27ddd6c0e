import Trove.Gc.Bytes

/-!
# The grace window

A sweep leaves a blob alone whose row is younger than its deadline. The row's age is the age of the
first push of the digest: `PutBlob` keeps a row that exists, a mount writes nothing, and the row of
an upload session names no digest. So a push is covered as far as the row it found, or wrote, is
young enough.
-/

namespace Trove.Gc

open Meta Lib Registry

def AckedAfter (log : List Event) (d : Digest) (before : Time) : Prop :=
  ∃ t, .acked d t ∈ log ∧ before < t

/-- The event is such an acknowledgement. -/
def acksAfter (d : Digest) (before : Time) : Event → Bool
  | .acked d' t => d' = d && before < t
  | .swept _ _ => false

instance (log : List Event) (d : Digest) (before : Time) : Decidable (AckedAfter log d before) :=
  decidable_of_iff (log.any (acksAfter d before) = true) <| by
    rw [List.any_eq_true]
    constructor
    · rintro ⟨e, he, hacks⟩
      cases e with
      | acked d' t =>
        obtain ⟨rfl, ht⟩ : d' = d ∧ before < t := by simpa [acksAfter] using hacks
        exact ⟨t, he, ht⟩
      | swept d' b => simp [acksAfter] at hacks
    · rintro ⟨t, he, ht⟩
      exact ⟨_, he, by simpa [acksAfter] using ht⟩

/-! ## What the window needs -/

def acksPush (p : Push) : Option Digest :=
  if p.phase = .answer then some p.request.digest else none

def acksStart (p : Start) : Option Digest :=
  match p.phase with
  | .mountAnswer m => some m.digest
  | _ => none

def insertsRow (sh : Shared) (p : Push) : Option Blob :=
  match p.phase with
  | .row size createdAt =>
    if sh.HasRow p.request.digest then none else some ⟨p.request.digest, size, createdAt⟩
  | _ => none

def YoungRow (sh : Shared) (before : Time) (d : Digest) : Prop :=
  ∀ blob ∈ sh.store.blobs.lookup d, before ≤ blob.createdAt

instance (sh : Shared) (before : Time) (d : Digest) : Decidable (YoungRow sh before d) :=
  inferInstanceAs (Decidable (∀ blob ∈ sh.store.blobs.lookup d, before ≤ blob.createdAt))

/-- An acknowledgement after the deadline is given over a young row, and no old row is inserted for
a digest with one. -/
def KeepsYoung (before : Time) (w : World) : Action → Prop
  | .stepPush i => ∀ p ∈ w.pushes[i]?,
      (∀ d ∈ acksPush p, before < w.shared.clock → YoungRow w.shared before d) ∧
      ∀ blob ∈ insertsRow w.shared p,
        AckedAfter w.shared.log blob.digest before → before ≤ blob.createdAt
  | .stepStart i => ∀ p ∈ w.starts[i]?, ∀ d ∈ acksStart p,
      before < w.shared.clock → YoungRow w.shared before d
  | _ => True

instance (before : Time) (w : World) : (a : Action) → Decidable (KeepsYoung before w a)
  | .stepPush i => inferInstanceAs (Decidable (∀ p ∈ w.pushes[i]?,
      (∀ d ∈ acksPush p, before < w.shared.clock → YoungRow w.shared before d) ∧
      ∀ blob ∈ insertsRow w.shared p,
        AckedAfter w.shared.log blob.digest before → before ≤ blob.createdAt))
  | .stepStart i => inferInstanceAs (Decidable (∀ p ∈ w.starts[i]?, ∀ d ∈ acksStart p,
      before < w.shared.clock → YoungRow w.shared before d))
  | .tick _ | .put _ | .push _ | .start _ | .sweep _ _ _ | .stepPut _ | .stepSweep _
  | .deleteManifest _ _ | .patch _ _ | .cancel _ | .deleteUpload _ =>
    inferInstanceAs (Decidable True)

/-! ## One step -/

/-- Digests acknowledged later than the deadline have young rows, and no sweep with the deadline
has deleted the row of one. -/
structure Graced (before : Time) (w : World) : Prop where
  young : ∀ d, AckedAfter w.shared.log d before → YoungRow w.shared before d
  honoured : ∀ newer older d, w.shared.log = newer ++ .swept d before :: older →
    ¬ AckedAfter older d before

variable {before : Time} {w w' : World}

theorem AckedAfter.of_cons {e : Event} {log : List Event} {d : Digest}
    (h : AckedAfter (e :: log) d before) :
    (∃ t, e = .acked d t ∧ before < t) ∨ AckedAfter log d before := by
  obtain ⟨t, hmem, ht⟩ := h
  rcases List.mem_cons.mp hmem with rfl | hmem
  · exact .inl ⟨t, rfl, ht⟩
  · exact .inr ⟨t, hmem, ht⟩

section

variable (h : Graced before w)
include h

theorem Graced.of_same (hrw : w'.shared.store.blobs = w.shared.store.blobs)
    (hlog : w'.shared.log = w.shared.log) : Graced before w' := by
  refine ⟨fun d hack => ?_, fun newer older d hsp => ?_⟩
  · rw [hlog] at hack
    rw [YoungRow, hrw]
    exact h.young d hack
  · rw [hlog] at hsp
    exact h.honoured newer older d hsp

theorem Graced.ack {d : Digest} (hrw : w'.shared.store.blobs = w.shared.store.blobs)
    (hlog : w'.shared.log = .acked d w.shared.clock :: w.shared.log)
    (hsf : before < w.shared.clock → YoungRow w.shared before d) : Graced before w' := by
  refine ⟨fun d' hack => ?_, fun newer older d' hsp => ?_⟩
  · rw [YoungRow, hrw]
    rw [hlog] at hack
    rcases hack.of_cons with ⟨t, heq, ht⟩ | hack
    · cases heq
      exact hsf ht
    · exact h.young d' hack
  · rw [hlog] at hsp
    cases newer with
    | nil => cases hsp
    | cons e newer => exact h.honoured newer older d' (List.cons.inj hsp).2

theorem Graced.insert {blob : Blob} (hrw : w'.shared.store.blobs = w.shared.store.blobs.insert blob)
    (hlog : w'.shared.log = w.shared.log)
    (hsf : AckedAfter w.shared.log blob.digest before → before ≤ blob.createdAt) :
    Graced before w' := by
  refine ⟨fun d hack row hrow => ?_, fun newer older d hsp => ?_⟩
  · rw [hlog] at hack
    rw [hrw, Option.mem_def, Table.lookup_insert] at hrow
    split_ifs at hrow with heq
    · cases hrow
      exact hsf (heq ▸ hack)
    · exact h.young d hack row hrow
  · rw [hlog] at hsp
    exact h.honoured newer older d hsp

theorem Graced.sweepRow {blob : Blob} {deadline : Time}
    (hrow : w.shared.store.blobs.lookup blob.digest = some blob)
    (hsw : w.shared.store.sweepable blob deadline = true)
    (hrw : w'.shared.store.blobs = w.shared.store.blobs.erase blob.digest)
    (hlog : w'.shared.log = .swept blob.digest deadline :: w.shared.log) : Graced before w' := by
  refine ⟨fun d hack row hd => ?_, fun newer older d hsp => ?_⟩
  · rw [hlog] at hack
    rw [hrw, Option.mem_def, Table.lookup_erase] at hd
    split_ifs at hd
    rcases hack.of_cons with ⟨t, heq, -⟩ | hack
    · cases heq
    · exact h.young d hack row hd
  · rw [hlog] at hsp
    cases newer with
    | nil =>
      cases hsp
      intro hack
      have hyn : before ≤ blob.createdAt := h.young _ hack blob hrow
      have hold : blob.createdAt < before := (Store.sweepable_eq_true.mp hsw).1
      exact absurd hold (not_lt.mpr hyn)
    | cons e newer => exact h.honoured newer older d (List.cons.inj hsp).2

theorem Graced.step {digestOf : String → Blob.Content → Digest} {a : Action}
    (hsf : KeepsYoung before w a) (hst : w.step digestOf a = some w') : Graced before w' := by
  cases World.step_of_eq_some hst with
  | arrive hsh => exact h.of_same (by rw [hsh]) (by rw [hsh])
  | call a =>
    rcases Shared.call_cases w.shared a with ⟨repo, d, s', hdel, hcl⟩ | hq
    · obtain ⟨-, rfl⟩ := Store.deleteManifest_ok hdel
      rw [hcl]
      exact h.of_same rfl rfl
    · exact h.of_same hq.rows hq.log
  | put hp hput =>
    rcases Put.step_cases hput with ⟨rfl, -⟩ | ⟨-, s', hsr, rfl⟩ | ⟨-, tags, rfl⟩
    · exact h.of_same rfl rfl
    · obtain rfl := Store.putManifest_ok hsr
      exact h.of_same rfl rfl
    · exact h.of_same rfl rfl
  | @push i p p' sh hp hps =>
    obtain ⟨-, ⟨hq, -⟩ | ⟨-, -, bytes', content, rfl, -⟩ | ⟨-, size, at_, s', hph, hrow, rfl⟩ |
      ⟨hph, -, rfl⟩⟩ := Push.step_cases hps
    · exact h.of_same hq.rows hq.log
    · exact h.of_same rfl rfl
    · rcases Store.putBlob_ok hrow with ⟨-, rfl⟩ | ⟨hnn, rfl⟩
      · exact h.of_same rfl rfl
      · refine h.insert rfl rfl ((hsf p hp).2 _ ?_)
        simp [insertsRow, hph, Shared.HasRow, hnn]
    · exact h.ack rfl rfl ((hsf p hp).1 _ (by simp [acksPush, hph]))
  | @start i p p' sh hp hsa =>
    rcases Start.step_cases hsa with hq | ⟨m, hph, rfl⟩
    · exact h.of_same hq.rows hq.log
    · exact h.ack rfl rfl (hsf p hp _ (by simp [acksStart, hph]))
  | @sweep i sw sw' sh hsw hsp =>
    rcases Sweep.step_cases hsp with ⟨rfl, -⟩ | ⟨blob, -, hrow, hold, -, rfl⟩ | ⟨d, -, -, rfl⟩
    · exact h.of_same rfl rfl
    · exact h.sweepRow hrow hold rfl rfl
    · exact h.of_same rfl rfl

end

/-! ## Whole runs -/

end Trove.Gc
