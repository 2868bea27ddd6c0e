import Mathlib.Data.Prod.Lex
import Trove.Meta.Store

/-!
# The in-memory metadata store: garbage collection

A blob is sweepable when its row is older than the deadline, no live manifest names it as a config
or a layer, and no upload session pins it. The listing and the delete test the same condition.
-/

namespace Trove.Meta.Store

open Lib List Table

variable (s : Store)

/-- Some live manifest names it as a config or a layer. Child and subject edges protect no blob. -/
def referencedAsBlob (digest : Digest) : Bool :=
  s.refs.values.any fun refs => refs.any fun ref => ref.child = digest && ref.kind.isBlob

def pinnedByUpload (digest : Digest) : Bool :=
  s.uploads.values.any fun session => session.digest = digest

def sweepable (blob : Blob) (before : Time) : Bool :=
  decide (blob.createdAt < before) && !s.referencedAsBlob blob.digest &&
    !s.pinnedByUpload blob.digest

def sweepCandidates (before : Time) (after : Digest) : List Blob :=
  sortBy Blob.digest
    (s.blobs.values.filter fun blob => after < blob.digest && s.sweepable blob before)

/-- The first `limit` of them. -/
def listSweepCandidates (before : Time) (after : Digest) (limit : ℤ) : List Blob :=
  if limit ≤ 0 then [] else (s.sweepCandidates before after).take limit.toNat

/-- The row goes if it is still sweepable; whether it went. -/
def deleteBlobIfUnreferenced (digest : Digest) (before : Time) : Bool × Store :=
  match s.blobs.lookup digest with
  | none => (false, s)
  | some blob =>
    if s.sweepable blob before then (true, { s with blobs := s.blobs.erase digest })
    else (false, s)

/-! ## Runs -/

def startGCRun (run : GCRun) : Except Error Store :=
  if run.id = "" then .error (.invalid "id" "must not be empty")
  else if (s.gcRuns.lookup run.id).isSome then .error (.conflict "gc run" run.id)
  else .ok { s with gcRuns := s.gcRuns.insert run }

/-- A run's cursor and counters. -/
def saveGCProgress (id : String) (cursor : Digest) (scanned deleted freedBytes : ℤ) :
    Except Error Store :=
  match s.gcRuns.lookup id with
  | none => .error (.notFound "gc run" id)
  | some run => .ok { s with gcRuns := s.gcRuns.insert { run with
      cursor := cursor, scanned := scanned, deleted := deleted, freedBytes := freedBytes } }

def finishGCRun (id : String) (at_ : Time) (failure : String) : Except Error Store :=
  match s.gcRuns.lookup id with
  | none => .error (.notFound "gc run" id)
  | some run => .ok { s with gcRuns := s.gcRuns.insert { run with
      finishedAt := at_, failure := failure } }

def newer (run newest : GCRun) : Bool :=
  decide (newest.startedAt < run.startedAt) ||
    (decide (run.startedAt = newest.startedAt) && decide (newest.id < run.id))

/-- The loop body of `ResumableGCRun`: finished runs are passed over. -/
def resumePick (newest : Option GCRun) (run : GCRun) : Option GCRun :=
  if run.finishedAt ≠ 0 then newest
  else match newest with
    | none => some run
    | some best => if newer run best then some run else some best

def resumableGCRun : Except Error GCRun :=
  match s.gcRuns.values.foldl resumePick none with
  | none => .error (.notFound "gc run" "unfinished")
  | some run => .ok run

/-! ## The sweep condition -/

variable {s}

theorem referencedAsBlob_eq_true {digest : Digest} :
    s.referencedAsBlob digest = true ↔
      ∃ k refs, s.refs.lookup k = some refs ∧ ∃ r ∈ refs, r.child = digest ∧ r.kind.isBlob := by
  simp only [referencedAsBlob, any_eq_true, AList.mem_values, Bool.and_eq_true,
    decide_eq_true_eq]
  constructor
  · rintro ⟨refs, ⟨k, hk⟩, h⟩
    exact ⟨k, refs, hk, h⟩
  · rintro ⟨k, refs, hk, h⟩
    exact ⟨refs, ⟨k, hk⟩, h⟩

variable {blob : Blob} {before : Time} {s' : Store} {run : GCRun}

theorem sweepable_eq_true :
    s.sweepable blob before = true ↔ blob.createdAt < before ∧
      s.referencedAsBlob blob.digest = false ∧ s.pinnedByUpload blob.digest = false := by
  simp [sweepable, and_assoc]

variable {after : Digest} {acc : Option GCRun} {l : List GCRun}

theorem mem_sweepCandidates :
    blob ∈ s.sweepCandidates before after ↔
      s.blobs.lookup blob.digest = some blob ∧ after < blob.digest ∧
        s.sweepable blob before = true := by
  simp [sweepCandidates, mem_values]

theorem increasing_sweepCandidates (before : Time) (after : Digest) :
    Increasing Blob.digest (s.sweepCandidates before after) :=
  increasing_sortBy (s.blobs.nodup_map_key_values.sublist (filter_sublist.map _))

theorem sweepable_congr (hrf : s'.refs = s.refs) (hup : s'.uploads = s.uploads) (blob : Blob)
    (before : Time) : s'.sweepable blob before = s.sweepable blob before := by
  simp only [sweepable, referencedAsBlob, pinnedByUpload, hrf, hup]

theorem deleteBlobIfUnreferenced_cases (digest : Digest) (before : Time) :
    s.deleteBlobIfUnreferenced digest before = (false, s) ∨
      ∃ blob, s.blobs.lookup digest = some blob ∧ s.sweepable blob before = true ∧
        s.deleteBlobIfUnreferenced digest before =
          (true, { s with blobs := s.blobs.erase digest }) := by
  unfold deleteBlobIfUnreferenced
  cases hrow : s.blobs.lookup digest with
  | none => exact .inl rfl
  | some blob =>
    by_cases hsw : s.sweepable blob before = true
    · exact .inr ⟨blob, rfl, hsw, by simp [hsw]⟩
    · exact .inl (by simp [hsw])

theorem sweepCandidates_tail {rest : List Blob} (h : s.sweepCandidates before after = blob :: rest)
    (hrf : s'.refs = s.refs) (hup : s'.uploads = s.uploads)
    (hrw : ∀ d, blob.digest < d → s'.blobs.lookup d = s.blobs.lookup d) :
    s'.sweepCandidates before blob.digest = rest := by
  have hinc : Increasing Blob.digest (blob :: rest) := h ▸ increasing_sweepCandidates before after
  have haf : after < blob.digest := (mem_sweepCandidates.mp (h ▸ mem_cons_self)).2.1
  refine (increasing_sweepCandidates before blob.digest).eq_of_mem_iff
    (pairwise_cons.mp hinc).2 fun x => ?_
  rw [hinc.mem_tail, ← h, mem_sweepCandidates, mem_sweepCandidates,
    sweepable_congr hrf hup]
  constructor
  · rintro ⟨hrow, hlt, hsw⟩
    exact ⟨⟨hrw _ hlt ▸ hrow, haf.trans hlt, hsw⟩, hlt⟩
  · rintro ⟨⟨hrow, -, hsw⟩, hlt⟩
    exact ⟨(hrw _ hlt).trans hrow, hlt, hsw⟩

/-! ## Which run is resumed -/

/-- By start, ties by identifier. -/
def rank (run : GCRun) : ℤ ×ₗ String := toLex (run.startedAt, run.id)

theorem newer_eq_true {best : GCRun} : newer run best = true ↔ rank best < rank run := by
  simp only [newer, rank, Prod.Lex.toLex_lt_toLex, Bool.or_eq_true, Bool.and_eq_true,
    decide_eq_true_eq, eq_comm (a := run.startedAt)]

theorem resumePick_cases (acc : Option GCRun) (x : GCRun) :
    (x.finishedAt ≠ 0 ∧ resumePick acc x = acc) ∨
    (x.finishedAt = 0 ∧ resumePick acc x = some x ∧ ∀ r ∈ acc, rank r ≤ rank x) ∨
    (x.finishedAt = 0 ∧ ∃ best, acc = some best ∧ resumePick acc x = acc ∧ rank x ≤ rank best) := by
  unfold resumePick
  by_cases hfin : x.finishedAt = 0
  · refine .inr ?_
    cases acc with
    | none => exact .inl ⟨hfin, by simp [hfin], by simp⟩
    | some best =>
      by_cases hnew : newer x best = true
      · exact .inl ⟨hfin, by simp [hfin, hnew], by simpa using (newer_eq_true.mp hnew).le⟩
      · exact .inr ⟨hfin, best, rfl, by simp [hfin, hnew], not_lt.mp (newer_eq_true.not.mp hnew)⟩
  · exact .inl ⟨hfin, by simp [hfin]⟩

theorem foldl_resumePick_eq_none (h : l.foldl resumePick acc = none) :
    acc = none ∧ ∀ r ∈ l, r.finishedAt ≠ 0 := by
  induction l generalizing acc with
  | nil => exact ⟨h, by simp⟩
  | cons x l ih =>
    obtain ⟨hacc, hl⟩ := ih h
    rcases resumePick_cases acc x with ⟨hfin, heq⟩ | ⟨-, heq, -⟩ | ⟨-, best, hbs, heq, -⟩
    · exact ⟨heq ▸ hacc, by simpa [hfin] using hl⟩
    · simp [heq] at hacc
    · rw [heq, hbs] at hacc
      cases hacc

theorem foldl_resumePick_eq_some (h : l.foldl resumePick acc = some run) :
    (acc = some run ∨ (run ∈ l ∧ run.finishedAt = 0)) ∧ (∀ r ∈ acc, rank r ≤ rank run) ∧
      ∀ r ∈ l, r.finishedAt = 0 → rank r ≤ rank run := by
  induction l generalizing acc with
  | nil =>
    obtain rfl : acc = some run := h
    exact ⟨.inl rfl, by simp, by simp⟩
  | cons x l ih =>
    obtain ⟨hfr, hacc, hl⟩ := ih h
    rcases resumePick_cases acc x with ⟨hfin, heq⟩ | ⟨hfin, heq, hle⟩ | ⟨hfin, best, rfl, heq, hle⟩
    · rw [heq] at hfr hacc
      refine ⟨hfr.imp_right fun hr => ⟨mem_cons_of_mem x hr.1, hr.2⟩, hacc, ?_⟩
      rintro r (_ | ⟨_, hr⟩) hrf
      · exact absurd hrf hfin
      · exact hl r hr hrf
    · have hx : rank x ≤ rank run := hacc x (by simp [heq])
      refine ⟨.inr ?_, fun r hr => (hle r hr).trans hx, ?_⟩
      · rcases hfr with hsm | hr
        · obtain rfl : x = run := by simpa [heq] using hsm
          exact ⟨mem_cons_self, hfin⟩
        · exact ⟨mem_cons_of_mem x hr.1, hr.2⟩
      · rintro r (_ | ⟨_, hr⟩) hrf
        · exact hx
        · exact hl r hr hrf
    · rw [heq] at hfr hacc
      refine ⟨hfr.imp_right fun hr => ⟨mem_cons_of_mem x hr.1, hr.2⟩, hacc, ?_⟩
      rintro r (_ | ⟨_, hr⟩) hrf
      · exact hle.trans (hacc best rfl)
      · exact hl r hr hrf

theorem resumableGCRun_eq_ok :
    s.resumableGCRun = .ok run ↔ s.gcRuns.lookup run.id = some run ∧ run.finishedAt = 0 ∧
      ∀ r ∈ s.gcRuns.values, r.finishedAt = 0 → rank r ≤ rank run := by
  unfold resumableGCRun
  cases hfl : s.gcRuns.values.foldl resumePick none with
  | none =>
    constructor
    · intro h
      cases h
    · rintro ⟨hrow, hfin, -⟩
      exact absurd hfin ((foldl_resumePick_eq_none hfl).2 run (mem_values.mpr hrow))
  | some best =>
    obtain ⟨hfr, -, hmax⟩ := foldl_resumePick_eq_some hfl
    obtain ⟨hmem, hbs⟩ : best ∈ s.gcRuns.values ∧ best.finishedAt = 0 := by simpa using hfr
    have hrow := mem_values.mp hmem
    constructor
    · intro h
      obtain rfl : best = run := Except.ok.inj h
      exact ⟨hrow, hbs, hmax⟩
    · rintro ⟨hrow', hfin', hmax'⟩
      have hrn : rank best = rank run := le_antisymm (hmax' best hmem hbs)
        (hmax run (mem_values.mpr hrow') hfin')
      have hid : best.id = run.id := congrArg (fun k => (ofLex k).2) hrn
      rw [hid, hrow'] at hrow
      rw [Option.some.inj hrow]

theorem resumableGCRun_startGCRun {e : Error} (hnn : s.resumableGCRun = .error e)
    (hfin : run.finishedAt = 0) (h : s.startGCRun run = .ok s') :
    s'.resumableGCRun = .ok run ∧ s' = { s with gcRuns := s.gcRuns.insert run } := by
  unfold startGCRun at h
  split_ifs at h
  obtain rfl := Except.ok.inj h
  refine ⟨resumableGCRun_eq_ok.mpr ⟨by simp [lookup_insert], hfin, fun r hr hrf => ?_⟩, rfl⟩
  have hall : ∀ r ∈ s.gcRuns.values, r.finishedAt ≠ 0 := by
    unfold resumableGCRun at hnn
    cases hfl : s.gcRuns.values.foldl resumePick none with
    | none => exact (foldl_resumePick_eq_none hfl).2
    | some best => simp [hfl] at hnn
  rw [mem_values, lookup_insert] at hr
  split_ifs at hr with hid
  · rw [Option.some.inj hr]
  · exact absurd hrf (hall r (mem_values.mpr hr))

theorem saveGCProgress_of_resumable (h : s.resumableGCRun = .ok run) (cursor : Digest)
    (scanned deleted freedBytes : ℤ) :
    ∃ s', s.saveGCProgress run.id cursor scanned deleted freedBytes = .ok s' ∧
      s'.resumableGCRun = .ok { run with
        cursor := cursor, scanned := scanned, deleted := deleted, freedBytes := freedBytes } ∧
      s' = { s with gcRuns := s'.gcRuns } := by
  obtain ⟨hrow, hfin, hmax⟩ := resumableGCRun_eq_ok.mp h
  refine ⟨{ s with gcRuns := s.gcRuns.insert { run with
    cursor := cursor, scanned := scanned, deleted := deleted, freedBytes := freedBytes } },
    by simp only [saveGCProgress, hrow], ?_, rfl⟩
  refine resumableGCRun_eq_ok.mpr ⟨by simp [lookup_insert], hfin, fun r hr hrf => ?_⟩
  rw [mem_values, lookup_insert] at hr
  split_ifs at hr with hid
  · rw [← Option.some.inj hr]
  · exact hmax r (mem_values.mpr hr) hrf

end Trove.Meta.Store
