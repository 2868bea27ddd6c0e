import Trove.Gc.Sweep

/-!
# An interrupted sweep resumes where it stopped

Nothing else writes while the collector works here. Then the candidates left are always those after
the cursor, each batch takes the next of them, and a resumed run goes on with the deadline it was
begun with. The cursor also passes a candidate whose re-check, or whose delete of the bytes, was the
call the cancellation fell into.
-/

namespace Trove.Gc

open Meta Lib List

/-! ## What a list of scans has done -/

def Outcome.deletesRow : Outcome → Bool
  | .collected | .bytesCancelled => true
  | .refused | .recheckCancelled => false

/-- A cancellation fell into the collection of the candidate. -/
def Outcome.lost : Outcome → Bool
  | .recheckCancelled | .bytesCancelled => true
  | .collected | .refused => false

def rowDeleted (scans : List Scan) (d : Digest) : Bool :=
  scans.any fun s => s.blob.digest = d && s.outcome.deletesRow

def bytesDeleted (scans : List Scan) (d : Digest) : Bool :=
  scans.any fun s => s.blob.digest = d && s.outcome = .collected && Blob.validDigest d

/-- From `base`, the sweep has considered the candidates up to the cursor in turn, with one
deadline, and has deleted what the scans say and nothing else. -/
structure Swept (base : Env) (before : Time) (after : Digest) (env : Env) (cursor : Digest)
    (scans : List Scan) : Prop where
  scans_eq : env.scans = base.scans ++ scans
  candidates : scans.map Scan.blob ++ env.store.sweepCandidates before cursor =
    base.store.sweepCandidates before after
  deadline : ∀ s ∈ scans, s.before = before
  agreed : ∀ s ∈ scans, s.outcome ≠ .refused
  refs : env.store.refs = base.store.refs
  uploads : env.store.uploads = base.store.uploads
  rows : ∀ d, env.store.blobs.lookup d =
    if rowDeleted scans d then none else base.store.blobs.lookup d
  bytes : ∀ d, env.bytes.blobs.lookup d =
    if bytesDeleted scans d then none else base.bytes.blobs.lookup d

variable {base env env' : Env} {before : Time} {after : Digest} {scans : List Scan}
  {candidate : Blob} {rest : List Blob} {a : Attempt} {store : Store} {run : GCRun} {resumed : Bool}
  {ctx : Ctx}

theorem Swept.refl : Swept base before after base after [] :=
  ⟨by simp, by simp, by simp, by simp, rfl, rfl, fun _ => rfl, fun _ => rfl⟩

variable {cursor : Digest} {c : Collector} {result : Result} {attempts : List Attempt}

theorem Swept.of_gcRuns (h : Swept base before after env cursor scans)
    (hsc : env'.scans = env.scans)
    (hst : env'.store = { env.store with gcRuns := env'.store.gcRuns })
    (hby : env'.bytes = env.bytes) : Swept base before after env' cursor scans := by
  obtain ⟨store, bytes, scans'⟩ := env'
  subst hsc hby
  rw [show store = { env.store with gcRuns := store.gcRuns } from hst]
  exact ⟨h.scans_eq, h.candidates, h.deadline, h.agreed, h.refs, h.uploads, h.rows, h.bytes⟩

theorem Swept.scan (h : Swept base before after env cursor scans) (outcome : Outcome) (env' : Env)
    (hhd : env.store.sweepCandidates before cursor = candidate :: rest)
    (hsc : env'.scans = env.scans ++ [⟨candidate, before, outcome⟩]) (hout : outcome ≠ .refused)
    (hrf : env'.store.refs = env.store.refs) (hup : env'.store.uploads = env.store.uploads)
    (hrw : ∀ d, env'.store.blobs.lookup d =
      if candidate.digest = d && outcome.deletesRow then none else env.store.blobs.lookup d)
    (hby : ∀ d, env'.bytes.blobs.lookup d =
      if candidate.digest = d && outcome = .collected && Blob.validDigest d then none
      else env.bytes.blobs.lookup d) :
    Swept base before after env' candidate.digest (scans ++ [⟨candidate, before, outcome⟩]) ∧
      env'.store.sweepCandidates before candidate.digest = rest := by
  have htl : env'.store.sweepCandidates before candidate.digest = rest := by
    refine Store.sweepCandidates_tail hhd hrf hup fun d hlt => ?_
    rw [hrw, if_neg (by simp [hlt.ne])]
  refine ⟨⟨by rw [hsc, h.scans_eq, append_assoc], ?_, ?_, ?_, hrf.trans h.refs,
    hup.trans h.uploads, fun d => ?_, fun d => ?_⟩, htl⟩
  · rw [htl, map_append, append_assoc, ← h.candidates, hhd]
    rfl
  · exact forall_mem_append.mpr ⟨h.deadline, by simp⟩
  · exact forall_mem_append.mpr ⟨h.agreed, by simpa using hout⟩
  · rw [hrw, h.rows, rowDeleted, rowDeleted, any_append]
    cases scans.any _ <;> simp
  · rw [hby, h.bytes, bytesDeleted, bytesDeleted, any_append]
    cases scans.any _ <;> simp

/-! ## One candidate -/

@[simp] theorem Ctx.next_none : Ctx.next none = none := rfl

@[simp] theorem Ctx.cancelled_none : Ctx.cancelled none = false := rfl

theorem reclaim_cases (ctx : Ctx) (bytes : Blob.Store) (digest : Digest) :
    ∃ r ctx' bytes', reclaim ctx bytes digest = (r, ctx', bytes') ∧ (ctx = none → ctx' = none) ∧
      ((r = .cancelled ∧ ctx'.cancelled = true ∧ bytes' = bytes) ∨
        (r ≠ .cancelled ∧ ∀ d, bytes'.blobs.lookup d =
          if digest = d && Blob.validDigest d then none else bytes.blobs.lookup d)) := by
  unfold reclaim
  by_cases hvl : Blob.validDigest digest = true
  · by_cases hctx : ctx.cancelled = true
    · exact ⟨.cancelled, ctx, bytes, by simp [hvl, hctx], id, .inl ⟨rfl, hctx, rfl⟩⟩
    · obtain ⟨x, hx⟩ := Blob.parseDigest_of_validDigest hvl
      cases hrow : bytes.blobs.lookup digest with
      | none =>
        refine ⟨.gone, ctx.next, bytes, by simp [hvl, hctx, Blob.Store.delete, hx, hrow],
          by rintro rfl; rfl, .inr ⟨by decide, fun d => ?_⟩⟩
        simpa using by rintro rfl -; exact hrow
      | some content =>
        refine ⟨.gone, ctx.next, { bytes with blobs := bytes.blobs.erase digest },
          by simp [hvl, hctx, Blob.Store.delete, hx, hrow], by rintro rfl; rfl,
          .inr ⟨by decide, fun d => ?_⟩⟩
        by_cases hd : digest = d
        · subst hd
          simp [hvl]
        · simp [hd, AList.lookup_erase_ne (Ne.symm hd)]
  · refine ⟨.leaked, ctx, bytes, by simp [hvl], id, .inr ⟨by decide, fun d => ?_⟩⟩
    simpa using by rintro rfl hvd; exact absurd hvd hvl

/-- With nothing else writing, `collect` takes the next candidate and no other. The re-check agrees
with the listing, so a row stays only when the context is cancelled. -/
theorem collect_spec {st : State} (h : Swept base before after st.env st.cursor scans)
    (hhd : st.env.store.sweepCandidates before st.cursor = candidate :: rest) :
    ∃ outcome, Swept base before after (collect before candidate st).env candidate.digest
        (scans ++ [⟨candidate, before, outcome⟩]) ∧
      (collect before candidate st).env.store.sweepCandidates before candidate.digest = rest ∧
      (collect before candidate st).env.store.gcRuns = st.env.store.gcRuns ∧
      (collect before candidate st).result.scanned = st.result.scanned + 1 ∧
      (collect before candidate st).result.deleted =
        st.result.deleted + (if outcome.deletesRow then 1 else 0) ∧
      (outcome.lost = true → (collect before candidate st).ctx.cancelled = true) ∧
      (st.ctx = none → (collect before candidate st).ctx = none) := by
  obtain ⟨hrow, -, hsw⟩ := Store.mem_sweepCandidates.mp (hhd ▸ mem_cons_self)
  by_cases hctx : st.ctx.cancelled = true
  · obtain ⟨hsp, htl⟩ := h.scan .recheckCancelled { st.env with
      scans := st.env.scans ++ [⟨candidate, before, .recheckCancelled⟩] } hhd rfl (by decide)
      rfl rfl (by simp [Outcome.deletesRow]) (by simp)
    rw [collect, if_pos hctx]
    exact ⟨.recheckCancelled, hsp, htl, rfl, rfl, by simp [Outcome.deletesRow],
      fun _ => hctx, id⟩
  · have hdel : st.env.store.deleteBlobIfUnreferenced candidate.digest before =
        (true, { st.env.store with blobs := st.env.store.blobs.erase candidate.digest }) := by
      simp [Store.deleteBlobIfUnreferenced, hrow, hsw]
    obtain ⟨r, ctx', bytes', hre, hnn, hcs⟩ :=
      reclaim_cases st.ctx.next st.env.bytes candidate.digest
    have hrw : ∀ d, (st.env.store.blobs.erase candidate.digest).lookup d =
        if candidate.digest = d && true then none else st.env.store.blobs.lookup d := fun d => by
      rw [Table.lookup_erase]
      simp [eq_comm]
    have hctx' : st.ctx = none → ctx' = none := fun hn => hnn (by rw [hn]; rfl)
    rw [collect, if_neg hctx, hdel]
    dsimp only
    rw [hre]
    rcases hcs with ⟨rfl, hcan, rfl⟩ | ⟨hr, hby⟩
    · obtain ⟨hsp, htl⟩ := h.scan .bytesCancelled
        ⟨{ st.env.store with blobs := st.env.store.blobs.erase candidate.digest }, st.env.bytes,
          st.env.scans ++ [⟨candidate, before, .bytesCancelled⟩]⟩ hhd rfl
        (by decide) rfl rfl hrw (by simp)
      exact ⟨.bytesCancelled, hsp, htl, rfl, rfl, rfl, fun _ => hcan, hctx'⟩
    · obtain ⟨hsp, htl⟩ := h.scan .collected
        ⟨{ st.env.store with blobs := st.env.store.blobs.erase candidate.digest }, bytes',
          st.env.scans ++ [⟨candidate, before, .collected⟩]⟩ hhd rfl
        (by decide) rfl rfl hrw (by simpa using hby)
      rw [if_neg hr]
      exact ⟨.collected, hsp, htl, rfl, rfl, rfl, by simp [Outcome.lost], hctx'⟩

/-! ## The loop -/

def Ctx.spent (ctx : Ctx) : ℕ := if ctx.cancelled then 1 else 0

/-- The scans are counted, at most one candidate is lost for each of `k` earlier calls of `Run` and
one more if this one is cancelled, and the store has the run open. -/
structure Inv (base : Env) (run : GCRun) (k : ℕ) (st : State) (scans : List Scan) : Prop where
  swept : Swept base run.sweepBefore run.cursor st.env st.cursor scans
  scanned : st.result.scanned = run.scanned + scans.length
  deleted : st.result.deleted = run.deleted + scans.countP (·.outcome.deletesRow)
  budget : scans.countP (·.outcome.lost) ≤ k + st.ctx.spent
  opened : ∃ cursor scanned deleted freed, st.env.store.resumableGCRun = .ok { run with
    cursor := cursor, scanned := scanned, deleted := deleted, freedBytes := freed }

variable {base : Env} {run : GCRun} {k : ℕ} {st : State} {scans : List Scan}

section

variable (h : Inv base run k st scans)
include h

theorem Inv.next (hctx : st.ctx.cancelled = false) :
    Inv base run k { st with ctx := st.ctx.next } scans := by
  refine ⟨h.swept, h.scanned, h.deleted, h.budget.trans ?_, h.opened⟩
  simp [Ctx.spent, hctx]

theorem Inv.of_collect (hls : scans.countP (·.outcome.lost) ≤ k)
    (hhd : st.env.store.sweepCandidates run.sweepBefore st.cursor = candidate :: rest) :
    ∃ scans', Inv base run k
        { collect run.sweepBefore candidate st with cursor := candidate.digest } scans' ∧
      (collect run.sweepBefore candidate st).env.store.sweepCandidates run.sweepBefore
        candidate.digest = rest ∧
      (st.ctx = none → (collect run.sweepBefore candidate st).ctx = none) := by
  obtain ⟨outcome, hsw, htl, hrn, hsc, hdl, hcan, hnn⟩ :=
    collect_spec h.swept hhd
  refine ⟨_, ⟨hsw, ?_, ?_, ?_, ?_⟩, htl, hnn⟩
  · rw [hsc, h.scanned, length_append, length_singleton]
    omega
  · rw [hdl, h.deleted, countP_append, countP_singleton]
    cases outcome.deletesRow <;> simp [Int.add_assoc]
  · rw [countP_append, countP_singleton]
    refine Nat.add_le_add hls ?_
    cases hl : outcome.lost with
    | false => simp
    | true => simp [Ctx.spent, hcan hl]
  · simpa only [Store.resumableGCRun, hrn] using h.opened

theorem countP_lost_le (hctx : st.ctx.cancelled = false) : scans.countP (·.outcome.lost) ≤ k := by
  simpa [Ctx.spent, hctx] using h.budget

theorem Inv.of_sweepBatch {batch : List Blob}
    (hls : st.env.store.sweepCandidates run.sweepBefore st.cursor = batch ++ rest) :
    ∃ through st' scans', sweepBatch run.sweepBefore batch st = (through, st') ∧
      Inv base run k st' scans' ∧
      (through = true → st'.env.store.sweepCandidates run.sweepBefore st'.cursor = rest) ∧
      (st.ctx = none → through = true ∧ st'.ctx = none) := by
  induction batch generalizing st scans with
  | nil => exact ⟨true, st, scans, rfl, h, fun _ => hls, fun hn => ⟨rfl, hn⟩⟩
  | cons candidate batch ih =>
    by_cases hctx : st.ctx.cancelled = true
    · refine ⟨false, st, scans, by simp [sweepBatch, hctx], h, by simp, fun hn => ?_⟩
      simp [hn] at hctx
    · have hal : st.ctx.cancelled = false := by simpa using hctx
      obtain ⟨scans₁, h₁, htl, hnone₁⟩ :=
        (h.next hal).of_collect (countP_lost_le h hal) hls
      obtain ⟨through, st', scans', heq, h', hdn, hnn⟩ := ih h₁ htl
      refine ⟨through, st', scans', ?_, h', hdn, fun hn => hnn (hnone₁ (by simp [hn]))⟩
      rw [sweepBatch, if_neg hctx, heq]

theorem Inv.of_saveProgress : Inv base run k (saveProgress run.id st) scans ∧
      (saveProgress run.id st).ctx = st.ctx ∧ (saveProgress run.id st).cursor = st.cursor ∧
      (saveProgress run.id st).env.store.resumableGCRun = .ok { run with
        cursor := st.cursor, scanned := st.result.scanned, deleted := st.result.deleted,
        freedBytes := st.result.bytes } := by
  obtain ⟨cursor, scanned, deleted, freed, hon⟩ := h.opened
  obtain ⟨store', hsv, hres, hst⟩ := Store.saveGCProgress_of_resumable hon st.cursor
    st.result.scanned st.result.deleted st.result.bytes
  have heq : saveProgress run.id st = { st with env := { st.env with store := store' } } := by
    unfold saveProgress
    rw [hsv]
  rw [heq]
  exact ⟨⟨h.swept.of_gcRuns rfl hst rfl, h.scanned, h.deleted, h.budget, _, _, _, _, hres⟩,
    rfl, rfl, hres⟩

end

theorem listSweepCandidates_split (c : Collector) (s : Store) (before : Time) (after : Digest) :
    ∃ rest, s.sweepCandidates before after =
        s.listSweepCandidates before after c.batch ++ rest ∧
      (s.listSweepCandidates before after c.batch = [] → rest = []) := by
  have hpos := c.batch_pos
  refine ⟨(s.sweepCandidates before after).drop c.batch.toNat, ?_, ?_⟩
  · rw [Store.listSweepCandidates, if_neg (by omega), take_append_drop]
  · rw [Store.listSweepCandidates, if_neg (by omega), take_eq_nil_iff, drop_eq_nil_iff]
    rintro (hzr | hnil)
    · omega
    · simp [hnil]

/-- With more fuel than candidates the loop ends: it is through with all of them, or the context is
cancelled. -/
theorem Inv.of_loop (c : Collector) {fuel : ℕ} (h : Inv base run k st scans)
    (hfl : (st.env.store.sweepCandidates run.sweepBefore st.cursor).length < fuel) :
    ∃ ending st' scans', c.loop run.id run.sweepBefore fuel st = (ending, st') ∧
      Inv base run k st' scans' ∧ (st.ctx = none → ending = .complete) ∧
      ((ending = .complete ∧ st'.env.store.sweepCandidates run.sweepBefore st'.cursor = [] ∧
        scans'.countP (·.outcome.lost) ≤ k) ∨ ending = .interrupted) := by
  induction fuel generalizing st scans with
  | zero => exact absurd hfl (Nat.not_lt_zero _)
  | succ fuel ih =>
    by_cases hctx : st.ctx.cancelled = true
    · refine ⟨.interrupted, st, scans, by simp [Collector.loop, hctx], h, fun hn => ?_, .inr rfl⟩
      simp [hn] at hctx
    have hal : st.ctx.cancelled = false := by simpa using hctx
    have hls := countP_lost_le h hal
    by_cases hctx₁ : st.ctx.next.cancelled = true
    · refine ⟨.interrupted, { st with ctx := st.ctx.next }, scans,
        by simp [Collector.loop, hal, hctx₁], h.next hal, fun hn => ?_, .inr rfl⟩
      simp [hn] at hctx₁
    have halive₁ : st.ctx.next.cancelled = false := by simpa using hctx₁
    have h₂ : Inv base run k { st with ctx := st.ctx.next.next } scans :=
      (h.next hal).next halive₁
    obtain ⟨rest, hsp, hrs⟩ :=
      listSweepCandidates_split c st.env.store run.sweepBefore st.cursor
    cases hlt : st.env.store.listSweepCandidates run.sweepBefore st.cursor c.batch with
    | nil =>
      have hnn : st.env.store.sweepCandidates run.sweepBefore st.cursor = [] := by
        rw [hsp, hlt, hrs hlt]
        rfl
      refine ⟨.complete, { st with ctx := st.ctx.next.next }, scans, ?_, h₂, fun _ => rfl,
        .inl ⟨rfl, hnn, hls⟩⟩
      simp [Collector.loop, hal, halive₁, hlt]
    | cons candidate batch =>
      rw [hlt] at hsp
      obtain ⟨through, st₁, scans₁, hbt, h₃, hdn, hnn⟩ := h₂.of_sweepBatch hsp
      cases through with
      | false =>
        refine ⟨.interrupted, st₁, scans₁, ?_, h₃, fun hn => ?_, .inr rfl⟩
        · simp [Collector.loop, hal, halive₁, hlt, hbt]
        · simpa using (hnn (by simp [hn])).1
      | true =>
        obtain ⟨h₄, hctx₄, -⟩ := h₃.of_saveProgress
        have hrest₄ : (saveProgress run.id st₁).env.store.sweepCandidates run.sweepBefore
            (saveProgress run.id st₁).cursor = rest :=
          (append_cancel_left (h₄.swept.candidates.trans h₃.swept.candidates.symm)).trans
            (hdn rfl)
        obtain ⟨ending, st', scans', heq, h', hcm, hend⟩ := ih h₄ (by
          rw [hsp] at hfl
          simp only [length_append, length_cons] at hfl
          rw [hrest₄]
          omega)
        refine ⟨ending, st', scans', ?_, h', fun hn => hcm ?_, hend⟩
        · simpa [Collector.loop, hal, halive₁, hlt, hbt] using heq
        · rw [hctx₄]
          exact (hnn (by simp [hn])).2

/-! ## One call of `Run` -/

theorem begin_begun {store' : Store} (h : c.begin a store = .begun run resumed ctx store') :
    store'.resumableGCRun = .ok run ∧ store' = { store with gcRuns := store'.gcRuns } ∧
      c.begin { a with ctx := none } store = .begun run resumed none store' := by
  by_cases hctx : a.ctx.cancelled = true
  · simp [Collector.begin, hctx] at h
  cases hres : store.resumableGCRun with
  | ok existing =>
    obtain ⟨rfl, rfl, -, rfl⟩ :
        existing = run ∧ true = resumed ∧ a.ctx.next = ctx ∧ store = store' := by
      simpa [Collector.begin, hctx, hres] using h
    exact ⟨hres, rfl, by simp [Collector.begin, hres]⟩
  | error e =>
    by_cases hctx' : a.ctx.next.cancelled = true
    · simp [Collector.begin, hctx, hres, hctx'] at h
    cases hst : store.startGCRun (c.freshRun a) with
    | error e => simp [Collector.begin, hctx, hres, hctx', hst] at h
    | ok store₁ =>
      obtain ⟨rfl, rfl, -, rfl⟩ : c.freshRun a = run ∧ false = resumed ∧ a.ctx.next.next = ctx ∧
          store₁ = store' := by
        simpa [Collector.begin, hctx, hres, hctx', hst] using h
      obtain ⟨hon, hsr⟩ := Store.resumableGCRun_startGCRun hres rfl hst
      have hfr : c.freshRun { a with ctx := none } = c.freshRun a := rfl
      exact ⟨hon, by rw [hsr], by simp [Collector.begin, hres, hfr, hst]⟩

theorem begin_of_resumable (c : Collector) (a : Attempt) (h : store.resumableGCRun = .ok run) :
    c.begin a store = .cancelled ∨ c.begin a store = .begun run true a.ctx.next store := by
  unfold Collector.begin
  by_cases hctx : a.ctx.cancelled = true
  · exact .inl (by simp [hctx])
  · exact .inr (by simp [hctx, h])

/-- Between two calls of `Run`: the store has the run open, at the cursor and with the counts of the
scans so far, and at most `k` candidates are lost. -/
structure Paused (base : Env) (run : GCRun) (k : ℕ) (env : Env) (scans : List Scan) : Prop where
  lost : scans.countP (·.outcome.lost) ≤ k
  opened : ∃ cursor freed, Swept base run.sweepBefore run.cursor env cursor scans ∧
    env.store.resumableGCRun = .ok { run with
      cursor := cursor
      scanned := run.scanned + scans.length
      deleted := run.deleted + scans.countP (·.outcome.deletesRow)
      freedBytes := freed }

structure Finished (base : Env) (run : GCRun) (k : ℕ) (env : Env) (result : Result)
    (scans : List Scan) : Prop where
  lost : scans.countP (·.outcome.lost) ≤ k
  swept : ∃ cursor, Swept base run.sweepBefore run.cursor env cursor scans
  all : scans.map Scan.blob = base.store.sweepCandidates run.sweepBefore run.cursor
  scanned : result.scanned = run.scanned + scans.length
  deleted : result.deleted = run.deleted + scans.countP (·.outcome.deletesRow)

theorem finish_spec (id : String) (at_ : Time) (env : Env) :
    (finish id at_ env).scans = env.scans ∧ (finish id at_ env).bytes = env.bytes ∧
      (finish id at_ env).store =
        { env.store with gcRuns := (finish id at_ env).store.gcRuns } := by
  unfold finish Store.finishGCRun
  cases env.store.gcRuns.lookup id <;> exact ⟨rfl, rfl, rfl⟩

theorem length_sweepCandidates_le (s : Store) (before : Time) (after : Digest) :
    (s.sweepCandidates before after).length ≤ s.blobs.values.length := by
  rw [Store.sweepCandidates, (perm_sortBy _).length_eq]
  exact length_filter_le _ _

theorem Inv.of_run (c : Collector) {run' : GCRun}
    (h : Inv base run k (.ofRun run' resumed ctx { env with store := store }) scans)
    (hbg : c.begin a env.store = .begun run' resumed ctx store) (hid : run'.id = run.id)
    (hbf : run'.sweepBefore = run.sweepBefore) :
    ∃ env' scans', (∃ result, c.run a env = (env', .interrupted result) ∧ ctx ≠ none ∧
        Paused base run (k + 1) env' scans') ∨
      ∃ result, c.run a env = (env', .complete result) ∧
        Finished base run k env' result scans' := by
  obtain ⟨ending, st', scans', heq, h', hcm, hend⟩ := h.of_loop c
    (Nat.lt_succ_of_le (length_sweepCandidates_le store run.sweepBefore run'.cursor))
  obtain ⟨hsv, -, hcr, hon⟩ := h'.of_saveProgress
  rw [← hid, ← hbf] at heq
  rw [← hid] at hsv hon hcr
  rcases hend with ⟨rfl, hnil, hls⟩ | rfl
  · refine ⟨finish run'.id a.finishedAt (saveProgress run'.id st').env, scans',
      .inr ⟨{ st'.result with complete := true }, ?_, hls, ⟨st'.cursor, ?_⟩, ?_,
        h'.scanned, h'.deleted⟩⟩
    · simp [Collector.run, hbg, heq]
    · obtain ⟨hf₁, hf₂, hf₃⟩ := finish_spec run'.id a.finishedAt (saveProgress run'.id st').env
      exact hcr ▸ hsv.swept.of_gcRuns hf₁ hf₃ hf₂
    · rw [← h'.swept.candidates, hnil, append_nil]
  · refine ⟨(saveProgress run'.id st').env, scans', .inl ⟨st'.result, ?_, ?_, ?_, ?_⟩⟩
    · simp [Collector.run, hbg, heq]
    · intro hn
      simpa using hcm hn
    · refine h'.budget.trans (Nat.add_le_add_left ?_ k)
      unfold Ctx.spent
      split_ifs <;> omega
    · refine ⟨st'.cursor, st'.result.bytes, hcr ▸ hsv.swept, ?_⟩
      rw [hon, h'.scanned, h'.deleted, hid]

/-! ## Restarting until one call completes -/

theorem Paused.of_restart (c : Collector) (h : Paused base run k env scans)
    (hend : c.restart attempts env = (env', some (.complete result))) :
    ∃ k' < k + attempts.length, ∃ scans', Finished base run k' env' result scans' := by
  induction attempts generalizing env k scans with
  | nil => simp [Collector.restart] at hend
  | cons a attempts ih =>
    obtain ⟨cursor, freed, hsw, hon⟩ := h.opened
    rw [length_cons]
    rcases begin_of_resumable c a hon with hbg | hbg
    · have hrun : c.run a env = (env, .cancelled) := by simp [Collector.run, hbg]
      obtain ⟨k', hk, hfin⟩ := ih h (by simpa [Collector.restart, hrun] using hend)
      exact ⟨k', by omega, hfin⟩
    · have hinv : Inv base run k (.ofRun { run with
          cursor := cursor
          scanned := run.scanned + scans.length
          deleted := run.deleted + scans.countP (·.outcome.deletesRow)
          freedBytes := freed } true a.ctx.next env) scans :=
        ⟨hsw, rfl, rfl, h.lost.trans (Nat.le_add_right k _), _, _, _, _, hon⟩
      obtain ⟨env₁, scans₁, ⟨result₁, hrun, -, hps⟩ | ⟨result₁, hrun, hfin⟩⟩ :=
        hinv.of_run c hbg rfl rfl
      · obtain ⟨k', hk, hfin⟩ := ih hps (by simpa [Collector.restart, hrun] using hend)
        exact ⟨k', by omega, hfin⟩
      · obtain ⟨rfl, rfl⟩ : env₁ = env' ∧ result₁ = result := by
          simpa [Collector.restart, hrun] using hend
        exact ⟨k, by omega, scans₁, hfin⟩

def Begun.isBegun : Begun → Bool
  | .begun _ _ _ _ => true
  | .cancelled | .failed _ => false

theorem Inv.of_begin (hbg : c.begin a env.store = .begun run resumed ctx store) :
    Inv env run 0 (.ofRun run resumed ctx { env with store := store }) [] := by
  obtain ⟨hon, hst, -⟩ := begin_begun hbg
  exact ⟨Swept.refl.of_gcRuns rfl hst rfl, (Int.add_zero _).symm, (Int.add_zero _).symm,
    Nat.zero_le _,
    _, _, _, _, hon⟩

theorem restart_finished (c : Collector)
    (hend : c.restart attempts env = (env', some (.complete result))) :
    ∃ first run resumed ctx store,
      attempts.find? (fun a => (c.begin a env.store).isBegun) = some first ∧
      c.begin first env.store = .begun run resumed ctx store ∧
      ∃ k < attempts.length, ∃ scans, Finished env run k env' result scans := by
  induction attempts with
  | nil => simp [Collector.restart] at hend
  | cons a attempts ih =>
    cases hbg : c.begin a env.store with
    | cancelled =>
      have hrun : c.run a env = (env, .cancelled) := by simp [Collector.run, hbg]
      obtain ⟨first, run, resumed, ctx, store, hfn, hb, k, hk, hfin⟩ :=
        ih (by simpa [Collector.restart, hrun] using hend)
      refine ⟨first, run, resumed, ctx, store, ?_, hb, k, Nat.lt_succ_of_lt hk, hfin⟩
      rw [List.find?_cons_of_neg (by simp [hbg, Begun.isBegun]), hfn]
    | failed e => simp [Collector.restart, Collector.run, hbg] at hend
    | begun run resumed ctx store =>
      refine ⟨a, run, resumed, ctx, store, by simp [hbg, Begun.isBegun], hbg, ?_⟩
      rw [length_cons]
      obtain ⟨env₁, scans₁, ⟨result₁, hrun, -, hps⟩ | ⟨result₁, hrun, hfin⟩⟩ :=
        (Inv.of_begin hbg).of_run c hbg rfl rfl
      · obtain ⟨k', hk, hfin⟩ :=
          hps.of_restart c (by simpa [Collector.restart, hrun] using hend)
        exact ⟨k', by omega, hfin⟩
      · obtain ⟨rfl, rfl⟩ : env₁ = env' ∧ result₁ = result := by
          simpa [Collector.restart, hrun] using hend
        exact ⟨0, by omega, scans₁, hfin⟩

theorem run_uninterrupted (c : Collector)
    (hbg : c.begin a env.store = .begun run resumed ctx store) :
    ∃ env' result scans, c.run { a with ctx := none } env = (env', .complete result) ∧
      Finished env run 0 env' result scans := by
  obtain ⟨-, -, hbg'⟩ := begin_begun hbg
  obtain ⟨env', scans, ⟨result, -, hctx, -⟩ | ⟨result, hrun, hfin⟩⟩ :=
    (Inv.of_begin hbg').of_run c hbg' rfl rfl
  · exact absurd rfl hctx
  · exact ⟨env', result, scans, hrun, hfin⟩

/-! ## Against one uninterrupted call -/

/-- The row of the digest stayed because its re-check was cancelled. -/
def rowKept (scans : List Scan) (d : Digest) : Bool :=
  scans.any fun s => s.blob.digest = d && s.outcome = .recheckCancelled

/-- The bytes of the digest stayed because its re-check or their delete was cancelled. -/
def bytesKept (scans : List Scan) (d : Digest) : Bool :=
  scans.any fun s => s.blob.digest = d && s.outcome.lost

/-- Calls of `Run` that together end in `env'`, against one uninterrupted call that ends in `envU`:
the same candidates, each once and with one deadline; the same rows and bytes deleted, except for
fewer than `calls` candidates a cancellation fell on. -/
structure SameSweep (env env' envU : Env) (result resultU : Result) (before : Time)
    (calls : ℕ) : Prop where
  candidates : env'.scans.map Scan.blob = envU.scans.map Scan.blob
  once : (env'.scans.map fun s => s.blob.digest).Nodup
  deadline : ∀ s ∈ env'.scans ++ envU.scans, s.before = before
  uninterrupted : ∀ s ∈ envU.scans, s.outcome = .collected
  interrupted : ∀ s ∈ env'.scans, s.outcome = .collected ∨ s.outcome.lost = true
  lost : env'.scans.countP (·.outcome.lost) < calls
  rows : ∀ d, env'.store.blobs.lookup d =
    if rowKept env'.scans d then env.store.blobs.lookup d else envU.store.blobs.lookup d
  bytes : ∀ d, env'.bytes.blobs.lookup d =
    if bytesKept env'.scans d then env.bytes.blobs.lookup d else envU.bytes.blobs.lookup d
  scanned : result.scanned = resultU.scanned
  deleted : result.deleted + env'.scans.countP (·.outcome = .recheckCancelled) = resultU.deleted

section Compare

variable {scansU : List Scan}

theorem nodup_digests {s : Store} {before : Time} {after : Digest}
    (h : scans.map Scan.blob = s.sweepCandidates before after) :
    (scans.map fun s => s.blob.digest).Nodup := by
  have hinc := Store.increasing_sweepCandidates (s := s) before after
  rw [← h] at hinc
  have hne : scans.Pairwise fun a b => a.blob.digest ≠ b.blob.digest :=
    (pairwise_map.mp hinc).imp fun hlt => hlt.ne
  exact pairwise_map.mpr hne

theorem any_of_mem (hnd : (scans.map fun s => s.blob.digest).Nodup) {s : Scan} (hs : s ∈ scans)
    (p : Scan → Bool) : (scans.any fun t => t.blob.digest = s.blob.digest && p t) = p s := by
  rw [Bool.eq_iff_iff, any_eq_true]
  constructor
  · rintro ⟨t, ht, hd⟩
    rw [Bool.and_eq_true, decide_eq_true_eq] at hd
    exact inj_on_of_nodup_map hnd ht hs hd.1 ▸ hd.2
  · exact fun hp => ⟨s, hs, by simp [hp]⟩

theorem any_eq_false_of_not_mem {d : Digest} (h : d ∉ scans.map fun s => s.blob.digest)
    (p : Scan → Bool) : (scans.any fun s => s.blob.digest = d && p s) = false := by
  rw [any_eq_false]
  intro s hs hd
  exact h (mem_map.mpr ⟨s, hs, by simpa using (Bool.and_eq_true_iff.mp hd).1⟩)

theorem lookup_eq_of_kept {ν : Type} {m mU m₀ : Option ν} {d : Digest} {p q kept : Scan → Bool}
    (hdg : (scans.map fun s => s.blob.digest) = scansU.map fun s => s.blob.digest)
    (hnd : (scans.map fun s => s.blob.digest).Nodup)
    (hsp : ∀ s ∈ scans, p s = !kept s) (hall : ∀ s ∈ scansU, q s = true)
    (hm : m = if (scans.any fun s => s.blob.digest = d && p s) then none else m₀)
    (hmU : mU = if (scansU.any fun s => s.blob.digest = d && q s) then none else m₀) :
    m = if (scans.any fun s => s.blob.digest = d && kept s) then m₀ else mU := by
  by_cases hin : d ∈ scans.map fun s => s.blob.digest
  · obtain ⟨u, hu, hud⟩ := mem_map.mp (hdg ▸ hin)
    obtain ⟨s, hs, rfl⟩ := mem_map.mp hin
    rw [← hud, any_of_mem (hdg ▸ hnd) hu, hall u hu] at hmU
    rw [any_of_mem hnd hs, hsp s hs] at hm
    rw [any_of_mem hnd hs, hm, hmU]
    cases kept s <;> rfl
  · rw [any_eq_false_of_not_mem hin] at hm ⊢
    rw [any_eq_false_of_not_mem (hdg ▸ hin)] at hmU
    exact hm.trans hmU.symm

theorem collected_of_lost_zero (hls : scansU.countP (·.outcome.lost) ≤ 0)
    (har : ∀ s ∈ scansU, s.outcome ≠ .refused) : ∀ s ∈ scansU, s.outcome = .collected := by
  intro s hs
  have hno : ¬ s.outcome.lost = true := countP_eq_zero.mp (Nat.le_zero.mp hls) s hs
  cases hout : s.outcome <;> simp_all [Outcome.lost]

theorem Finished.sameSweep {env env' envU : Env} {result resultU : Result} {calls : ℕ}
    (hsc : env.scans = []) (h : Finished env run k env' result scans)
    (hU : Finished env run 0 envU resultU scansU) (hk : k < calls) :
    SameSweep env env' envU result resultU run.sweepBefore calls := by
  obtain ⟨cursor, hsw⟩ := h.swept
  obtain ⟨cursorU, hsp⟩ := hU.swept
  obtain rfl : env'.scans = scans := by simpa [hsc] using hsw.scans_eq
  obtain rfl : envU.scans = scansU := by simpa [hsc] using hsp.scans_eq
  have hbl : env'.scans.map Scan.blob = envU.scans.map Scan.blob := h.all.trans hU.all.symm
  have hlen : env'.scans.length = envU.scans.length := by
    simpa using congrArg List.length hbl
  have hdg := congrArg (List.map fun b : Blob => b.digest) hbl
  rw [map_map, map_map] at hdg
  have hnd := nodup_digests h.all
  have hcl := collected_of_lost_zero hU.lost hsp.agreed
  have hsl : ∀ s ∈ env'.scans,
      s.outcome.deletesRow = !decide (s.outcome = .recheckCancelled) := by
    intro s hs
    have hag := hsw.agreed s hs
    cases hout : s.outcome <;> simp_all [Outcome.deletesRow]
  refine ⟨hbl, hnd, ?_, hcl, ?_, lt_of_le_of_lt h.lost hk, fun d => ?_, fun d => ?_,
    ?_, ?_⟩
  · exact forall_mem_append.mpr ⟨hsw.deadline, hsp.deadline⟩
  · intro s hs
    have hag := hsw.agreed s hs
    cases hout : s.outcome <;> simp_all [Outcome.lost]
  · exact lookup_eq_of_kept hdg hnd hsl
      (fun s hs => by rw [hcl s hs]; rfl) (hsw.rows d) (hsp.rows d)
  · have hrw := hsw.bytes d
    have hrs := hsp.bytes d
    by_cases hvl : Blob.validDigest d = true
    · refine lookup_eq_of_kept (p := fun s => s.outcome = .collected)
        (q := fun s => s.outcome = .collected) hdg hnd (fun s hs => ?_)
        (fun s hs => by simp [hcl s hs]) ?_ ?_
      · have hag := hsw.agreed s hs
        cases hout : s.outcome <;> simp_all [Outcome.lost]
      · simpa [bytesDeleted, hvl] using hrw
      · simpa [bytesDeleted, hvl] using hrs
    · have hsm : env'.bytes.blobs.lookup d = env.bytes.blobs.lookup d := by
        simpa [bytesDeleted, hvl] using hrw
      have hsa : envU.bytes.blobs.lookup d = env.bytes.blobs.lookup d := by
        simpa [bytesDeleted, hvl] using hrs
      rw [hsm, hsa, ite_self]
  · rw [h.scanned, hU.scanned, hlen]
  · have hcn : env'.scans.countP (·.outcome.deletesRow) +
        env'.scans.countP (·.outcome = .recheckCancelled) = env'.scans.length := by
      rw [length_eq_countP_add_countP (p := fun s : Scan => s.outcome.deletesRow)]
      congr 1
      refine countP_congr fun s hs => ?_
      simp [hsl s hs]
    have hct : envU.scans.countP (·.outcome.deletesRow) = envU.scans.length := by
      rw [countP_eq_length]
      intro s hs
      rw [hcl s hs]
      rfl
    rw [h.deleted, hU.deleted, hct, ← hlen, ← hcn]
    omega

end Compare

/-- **Resumption.** Cancel calls of `Run` wherever you like and call it again until one completes:
against one uninterrupted `Run`, the calls together consider the same candidates and lose fewer of
them than there were calls. -/
theorem restart_sameSweep (c : Collector) (attempts : List Attempt) (env env' : Env)
    (result : Result) (hscans : env.scans = [])
    (hend : c.restart attempts env = (env', some (.complete result))) :
    ∃ first run resumed ctx store envU resultU,
      attempts.find? (fun a => (c.begin a env.store).isBegun) = some first ∧
      c.begin first env.store = .begun run resumed ctx store ∧
      c.run { first with ctx := none } env = (envU, .complete resultU) ∧
      SameSweep env env' envU result resultU run.sweepBefore attempts.length := by
  obtain ⟨first, run, resumed, ctx, store, hfn, hbg, k, hk, scans, hfin⟩ :=
    restart_finished c hend
  obtain ⟨envU, resultU, scansU, hrun, hfi⟩ := run_uninterrupted c hbg
  exact ⟨first, run, resumed, ctx, store, envU, resultU, hfn, hbg, hrun,
    hfin.sameSweep hscans hfi hk⟩

/-! ## A cancellation inside a call -/

def defaultCollector : Collector := ⟨defaultGrace, defaultBatchSize, by decide, by decide⟩

def oldBlobEnv : Env where
  store := { Store.empty with blobs := Table.insert ⟨Blob.repeated 'a', 3, 1⟩ ∅ }
  bytes := { Blob.Store.empty with blobs := AList.insert (Blob.repeated 'a') [1, 2, 3] ∅ }
  scans := []

/-- A call whose context passes `n` observations, and one with a context that is never cancelled. -/
def cancelledAfter (n : ℕ) : List Attempt :=
  [⟨some n, "r1", 2 * defaultGrace, 2 * defaultGrace⟩,
    ⟨none, "r2", 3 * defaultGrace, 3 * defaultGrace⟩]

/-- After five observations the context is cancelled inside the re-check of the blob, after six
inside the delete of its bytes: the second call leaves the row and the bytes, or the bytes. -/
theorem restart_leaves_candidate :
    (∃ envU, defaultCollector.run ⟨none, "r1", 2 * defaultGrace, 2 * defaultGrace⟩ oldBlobEnv =
        (envU, .complete ⟨"r1", false, 1, 1, 3, 0, 0, true⟩) ∧
      envU.store.blobs.lookup (Blob.repeated 'a') = none ∧
      envU.bytes.blobs.lookup (Blob.repeated 'a') = none) ∧
    (∃ env', defaultCollector.restart (cancelledAfter 5) oldBlobEnv =
        (env', some (.complete ⟨"r1", true, 1, 0, 0, 0, 0, true⟩)) ∧
      (env'.store.blobs.lookup (Blob.repeated 'a')).isSome ∧
      (env'.bytes.blobs.lookup (Blob.repeated 'a')).isSome) ∧
    ∃ env', defaultCollector.restart (cancelledAfter 6) oldBlobEnv =
        (env', some (.complete ⟨"r1", true, 1, 1, 3, 0, 0, true⟩)) ∧
      env'.store.blobs.lookup (Blob.repeated 'a') = none ∧
      (env'.bytes.blobs.lookup (Blob.repeated 'a')).isSome :=
  ⟨⟨_, rfl, by decide, by decide⟩, ⟨_, rfl, by decide, by decide⟩, _, rfl, by decide, by decide⟩

theorem restart_sameSweep_cancelled_inside :
    ∃ env' before envU resultU,
      defaultCollector.restart (cancelledAfter 5) oldBlobEnv =
        (env', some (.complete ⟨"r1", true, 1, 0, 0, 0, 0, true⟩)) ∧
      SameSweep oldBlobEnv env' envU ⟨"r1", true, 1, 0, 0, 0, 0, true⟩ resultU
        before (cancelledAfter 5).length := by
  have hgo : ∃ env', defaultCollector.restart (cancelledAfter 5) oldBlobEnv =
      (env', some (.complete ⟨"r1", true, 1, 0, 0, 0, 0, true⟩)) := ⟨_, rfl⟩
  obtain ⟨env', hend⟩ := hgo
  obtain ⟨-, run, -, -, -, envU, resultU, -, -, -, hsm⟩ :=
    restart_sameSweep defaultCollector (cancelledAfter 5) oldBlobEnv env' _ rfl hend
  exact ⟨env', run.sweepBefore, envU, resultU, hend, hsm⟩

end Trove.Gc
