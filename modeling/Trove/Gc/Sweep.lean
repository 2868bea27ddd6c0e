import Trove.Blob.Store
import Trove.Meta.Collection

/-!
# The collector

`Collector.run` is one sweep, from beginning or resuming a run to closing it or leaving it open. The
context is what cancels it: it is observed at every `ctx.Err()` and inside every store call that
takes it, and a call that finds it cancelled returns without effect. Saving progress and closing
the run are detached from it.
-/

namespace Trove.Gc

open Meta

/-! ## Contexts -/

/-- A context by the number of observations it still passes; `none` is never cancelled. -/
abbrev Ctx := Option ℕ

def Ctx.cancelled : Ctx → Bool
  | some 0 => true
  | _ => false

def Ctx.next : Ctx → Ctx
  | some (n + 1) => some n
  | ctx => ctx

/-! ## Configuration -/

def defaultGrace : Time := 24 * 60 * 60 * 1000000000

def defaultBatchSize : ℤ := 256

/-- How a collector is configured. -/
structure Options where
  grace : Time
  batchSize : ℤ

inductive InvalidOptions
  | negativeGrace (grace : Time)

/-- A collector has a positive grace window and a positive batch size. -/
structure Collector where
  grace : Time
  batch : ℤ
  grace_pos : 0 < grace
  batch_pos : 0 < batch

/-- Zero means the default, a negative grace is refused. -/
def Collector.new (opts : Options) : Except InvalidOptions Collector :=
  if hneg : opts.grace < 0 then .error (.negativeGrace opts.grace)
  else .ok {
    grace := if opts.grace = 0 then defaultGrace else opts.grace
    batch := if opts.batchSize ≤ 0 then defaultBatchSize else opts.batchSize
    grace_pos := by
      split_ifs with h
      · decide
      · exact lt_of_le_of_ne (not_lt.mp hneg) (Ne.symm h)
    batch_pos := by
      split_ifs with h
      · decide
      · exact not_le.mp h }

/-! ## One candidate -/

inductive Outcome
  | collected
  | refused
  | recheckCancelled
  | bytesCancelled
  deriving DecidableEq

structure Scan where
  blob : Blob
  before : Time
  outcome : Outcome

structure Env where
  store : Store
  bytes : Blob.Store
  scans : List Scan

/-- What one sweep did. -/
structure Result where
  runID : String
  resumed : Bool
  (scanned deleted bytes skipped leaked : ℤ)
  complete : Bool

/-- The locals of a sweep. -/
structure State where
  ctx : Ctx
  env : Env
  result : Result
  cursor : Digest

/-- What became of the bytes. -/
inductive Reclaimed
  | gone
  | leaked
  | cancelled
  deriving DecidableEq

def reclaim (ctx : Ctx) (bytes : Blob.Store) (digest : Digest) : Reclaimed × Ctx × Blob.Store :=
  if Blob.validDigest digest = false then (.leaked, ctx, bytes)
  else if ctx.cancelled then (.cancelled, ctx, bytes)
  else match bytes.delete digest with
    | .ok bytes' => (.gone, ctx.next, bytes')
    | .error (.notFound _ _) => (.gone, ctx.next, bytes)
    | .error _ => (.leaked, ctx.next, bytes)

/-- `collect` removes one candidate: the row first, then its bytes. Nothing here fails the sweep. -/
def collect (before : Time) (candidate : Blob) (st : State) : State :=
  let result := { st.result with scanned := st.result.scanned + 1 }
  let scan (outcome : Outcome) := st.env.scans ++ [⟨candidate, before, outcome⟩]
  if st.ctx.cancelled then
    { st with
      env := { st.env with scans := scan .recheckCancelled }
      result := { result with skipped := result.skipped + 1 } }
  else match st.env.store.deleteBlobIfUnreferenced candidate.digest before with
    | (false, _) =>
      { st with
        ctx := st.ctx.next
        env := { st.env with scans := scan .refused }
        result := { result with skipped := result.skipped + 1 } }
    | (true, store) =>
      match reclaim st.ctx.next st.env.bytes candidate.digest with
      | (reclaimed, ctx, bytes) =>
        { st with
          ctx := ctx
          env := ⟨store, bytes,
            scan (if reclaimed = .cancelled then .bytesCancelled else .collected)⟩
          result := { result with
            deleted := result.deleted + 1
            bytes := result.bytes + candidate.size
            leaked := result.leaked + if reclaimed = .gone then 0 else 1 } }

def sweepBatch (before : Time) : List Blob → State → Bool × State
  | [], st => (true, st)
  | candidate :: rest, st =>
    if st.ctx.cancelled then (false, st)
    else sweepBatch before rest
      { collect before candidate { st with ctx := st.ctx.next } with cursor := candidate.digest }

/-! ## A run -/

def saveProgress (id : String) (st : State) : State :=
  match st.env.store.saveGCProgress id st.cursor st.result.scanned st.result.deleted
      st.result.bytes with
  | .error _ => st
  | .ok store => { st with env := { st.env with store := store } }

def finish (id : String) (at_ : Time) (env : Env) : Env :=
  match env.store.finishGCRun id at_ "" with
  | .error _ => env
  | .ok store => { env with store := store }

inductive Ending
  | complete
  | interrupted
  | outOfFuel
  deriving DecidableEq

/-- The loop of `Run`: list a batch, collect it, save the progress, until a listing is empty or the
context is cancelled. -/
def Collector.loop (c : Collector) (id : String) (before : Time) : ℕ → State → Ending × State
  | 0, st => (.outOfFuel, st)
  | fuel + 1, st =>
    if st.ctx.cancelled then (.interrupted, st)
    else
      let st := { st with ctx := st.ctx.next }
      -- cancelled inside the listing
      if st.ctx.cancelled then (.interrupted, st)
      else
        let st := { st with ctx := st.ctx.next }
        match st.env.store.listSweepCandidates before st.cursor c.batch with
        | [] => (.complete, st)
        | candidates =>
          match sweepBatch before candidates st with
          | (false, st) => (.interrupted, st)
          | (true, st) => c.loop id before fuel (saveProgress id st)

structure Attempt where
  ctx : Ctx
  newID : String
  (now finishedAt : Time)

/-- What `begin` answers. -/
inductive Begun
  | cancelled
  | failed (error : Error)
  | begun (run : GCRun) (resumed : Bool) (ctx : Ctx) (store : Store)

def Collector.freshRun (c : Collector) (a : Attempt) : GCRun :=
  ⟨a.newID, a.now, 0, a.now - c.grace, "", 0, 0, 0, ""⟩

/-- `begin` resumes an interrupted run, with its own deadline, or starts a new one. -/
def Collector.begin (c : Collector) (a : Attempt) (store : Store) : Begun :=
  if a.ctx.cancelled then .cancelled
  else match store.resumableGCRun with
    | .ok existing => .begun existing true a.ctx.next store
    | .error _ =>
      if a.ctx.next.cancelled then .cancelled
      else match store.startGCRun (c.freshRun a) with
        | .error e => .failed e
        | .ok store' => .begun (c.freshRun a) false a.ctx.next.next store'

/-- What `Run` returns. -/
inductive RunEnd
  | cancelled
  | failed (error : Error)
  | interrupted (result : Result)
  | complete (result : Result)
  | outOfFuel

def State.ofRun (run : GCRun) (resumed : Bool) (ctx : Ctx) (env : Env) : State :=
  ⟨ctx, env, ⟨run.id, resumed, run.scanned, run.deleted, run.freedBytes, 0, 0, false⟩, run.cursor⟩

/-- `Run`. A listing per blob and one more are more than any sweep makes. -/
def Collector.run (c : Collector) (a : Attempt) (env : Env) : Env × RunEnd :=
  match c.begin a env.store with
  | .cancelled => (env, .cancelled)
  | .failed e => (env, .failed e)
  | .begun run resumed ctx store =>
    match c.loop run.id run.sweepBefore (store.blobs.values.length + 1)
        (.ofRun run resumed ctx { env with store := store }) with
    | (.complete, st) =>
      (finish run.id a.finishedAt (saveProgress run.id st).env,
        .complete { st.result with complete := true })
    | (.interrupted, st) => ((saveProgress run.id st).env, .interrupted st.result)
    | (.outOfFuel, st) => (st.env, .outOfFuel)

/-- Call `Run` again after every cancelled one, until one of them ends otherwise. -/
def Collector.restart (c : Collector) : List Attempt → Env → Env × Option RunEnd
  | [], env => (env, none)
  | a :: attempts, env =>
    match c.run a env with
    | (env', .cancelled) | (env', .interrupted _) => c.restart attempts env'
    | (env', ending) => (env', some ending)

end Trove.Gc
