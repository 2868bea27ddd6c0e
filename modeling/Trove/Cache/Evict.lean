import Trove.Blob.Store
import Trove.Meta.Eviction

/-!
# Evicting cached content

A sweep brings each scope of the cache inside its budget: it lists the coldest rows a page at a time
and deletes them until the scope is at its target. Rows are a proxy's own, bytes are shared by
digest, so the bytes of a blob go with the last row that claims them.

Every call to a store or the context counts, and `fails` says which of them meet a failure; a call
that does has no effect. The loop over pages is given fuel.
-/

namespace Trove.Cache

open Lib Meta

inductive Fault
  | notFound
  | other (text : String)
  deriving DecidableEq

/-- Which sweep took it. -/
inductive Reason
  | budget
  | orphan
  deriving DecidableEq

structure Evicted where
  repository : String
  digest : Digest
  size : ℤ
  reason : Reason

/-- One pass of a sweep. -/
structure Scope where
  entity : String
  (budget target before after : ℤ)

/-- What one sweep did. -/
structure Result where
  manifests : ℕ := 0
  blobs : ℕ := 0
  bytes : ℤ := 0
  shared : ℕ := 0
  skipped : ℕ := 0
  failed : ℕ := 0
  scopes : List Scope := []

/-- Its configuration. -/
structure Evictor where
  publishes : Bool
  globalBudget : ℤ
  perEntity : GoMap String ℤ
  /-- The part of a budget that the headroom frees: `int64(float64(budget) * headroom)`. -/
  headroom : ℤ → ℤ
  (pageSize maxOrph : ℤ)

structure World where
  store : Memory
  blobs : Blob.Store
  calls : ℕ
  events : List Evicted
  /-- The digests whose bytes were deleted, each with the claims there were on it then. -/
  deletions : List (Digest × ℕ)

/-- One more call. -/
def World.tick (w : World) : World := { w with calls := w.calls + 1 }

/-- A sweep on its way. -/
structure Sweeping where
  world : World
  result : Result

def Sweeping.tick (st : Sweeping) : Sweeping := { st with world := st.world.tick }

def answer {α : Type} (fault : Option Fault) (reply : Except Meta.Error α) : Except Fault α :=
  match fault with
  | some fault => .error fault
  | none =>
    match reply with
    | .ok a => .ok a
    | .error (.notFound ..) => .error .notFound
    | .error _ => .error (.other "")

def Evictor.target (e : Evictor) (budget : ℤ) : ℤ := budget - e.headroom budget

def publishEvicted (e : Evictor) (event : Evicted) (w : World) : World :=
  if e.publishes then { w with events := w.events ++ [event] } else w

section Evict

variable (fails : ℕ → Option Fault) (e : Evictor)

def World.deleteBytes (digest : Digest) (w : World) : Except Fault Unit × World :=
  match fails w.calls with
  | some fault => (.error fault, w.tick)
  | none =>
    match w.blobs.delete digest with
    | .ok blobs =>
      (.ok (), { w.tick with
        blobs := blobs
        deletions := w.deletions ++ [(digest, w.store.blobClaims digest)] })
    | .error (.notFound ..) => (.error .notFound, w.tick)
    | .error _ => (.error (.other ""), w.tick)

/-- Bytes that cannot be deleted are left to the orphan pass. -/
def reclaim (digest : Digest) (w : World) : World :=
  match Blob.parseDigest digest with
  | .error _ => w
  | .ok _ => (w.deleteBytes fails digest).2

def evictManifest (item : CachedItem) (st : Sweeping) : Bool × Sweeping :=
  match answer (fails st.world.calls)
      (st.world.store.deleteCachedManifest item.repository item.digest) with
  | .ok store =>
    (true, {
      world := publishEvicted e ⟨item.repository, item.digest, item.size, .budget⟩
        { st.world.tick with store := store }
      result := { st.result with
        manifests := st.result.manifests + 1
        bytes := st.result.bytes + item.size } })
  | .error .notFound =>
    (true, { st.tick with result := { st.result with skipped := st.result.skipped + 1 } })
  | .error (.other _) =>
    (false, { st.tick with result := { st.result with failed := st.result.failed + 1 } })

/-- One proxy's claim goes, and the bytes when it was the last. -/
def evictBlob (item : CachedItem) (st : Sweeping) : Bool × Sweeping :=
  match answer (fails st.world.calls)
      (st.world.store.deleteCachedBlob item.repository item.digest) with
  | .error .notFound =>
    (true, { st.tick with result := { st.result with skipped := st.result.skipped + 1 } })
  | .error (.other _) =>
    (false, { st.tick with result := { st.result with failed := st.result.failed + 1 } })
  | .ok (remaining, store) =>
    let world := { st.world.tick with store := store }
    let result := { st.result with
      blobs := st.result.blobs + 1
      bytes := st.result.bytes + item.size }
    (true, {
      world := publishEvicted e ⟨item.repository, item.digest, item.size, .budget⟩
        (if remaining > 0 then world else reclaim fails item.digest world)
      result := if remaining > 0 then { result with shared := result.shared + 1 } else result })

def evictItem (item : CachedItem) (st : Sweeping) : Bool × Sweeping :=
  match item.kind with
  | .manifest => evictManifest fails e item st
  | .blob => evictBlob fails e item st
  | .unknown _ =>
    (false, { st with result := { st.result with failed := st.result.failed + 1 } })

/-- How a sweep fails. -/
inductive SweepError
  | readUsage (entity : String) (fault : Fault)
  | listEvictable (entity : String) (fault : Fault)
  | context
  deriving DecidableEq

/-- The loop over one page; `after` is the usage as the pass computes it. -/
def evictPage (target : ℤ) :
    List CachedItem → ℤ → Sweeping → Except SweepError Unit × ℤ × Sweeping
  | [], after, st => (.ok (), after, st)
  | item :: items, after, st =>
    if after ≤ target then (.ok (), after, st)
    else
      match fails st.world.calls with
      | some _ => (.error .context, after, st.tick)
      | none =>
        match evictItem fails e item st.tick with
        | (true, st) => evictPage target items (after - item.size) st
        | (false, st) => evictPage target items after st

/-- The loop over pages. A page that leaves the usage as it was ends it. -/
def evictPages (entity : String) (target : ℤ) :
    ℕ → ℤ → Sweeping → Option (Except SweepError Unit) × ℤ × Sweeping
  | 0, after, st => (none, after, st)
  | fuel + 1, after, st =>
    if after ≤ target then (some (.ok ()), after, st)
    else
      match fails st.world.calls with
      | some fault => (some (.error (.listEvictable entity fault)), after, st.tick)
      | none =>
        match st.world.store.listEvictable entity e.pageSize with
        | [] => (some (.ok ()), after, st.tick)
        | item :: items =>
          match evictPage fails e target (item :: items) after st.tick with
          | (.error err, left, st) => (some (.error err), left, st)
          | (.ok (), left, st) =>
            if left = after then (some (.ok ()), left, st)
            else evictPages entity target fuel left st

def Sweeping.record (scope : Scope) (st : Sweeping) : Sweeping :=
  { st with result := { st.result with scopes := st.result.scopes ++ [scope] } }

def sweepScope (fuel : ℕ) (entity : String) (budget : ℤ) (st : Sweeping) :
    Option (Except SweepError Unit) × Sweeping :=
  if budget ≤ 0 then (some (.ok ()), st)
  else
    match fails st.world.calls with
    | some fault => (some (.error (.readUsage entity fault)), st.tick)
    | none =>
      let usage := (st.world.store.cachedUsage entity).bytes
      let target := e.target budget
      if usage ≤ budget then
        (some (.ok ()), st.tick.record ⟨entity, budget, target, usage, usage⟩)
      else
        match evictPages fails e entity target fuel usage st.tick with
        | (outcome, after, st) => (outcome, st.record ⟨entity, budget, target, usage, after⟩)

/-- The carve-outs in name order, then the whole cache. -/
def Evictor.passes (e : Evictor) : List (String × ℤ) :=
  (sortBy id e.perEntity.keys).map (fun entity => (entity, (e.perEntity.lookup entity).getD 0)) ++
    [("", e.globalBudget)]

def sweepScopes (fuel : ℕ) :
    List (String × ℤ) → Sweeping → Option (Except SweepError Unit) × Sweeping
  | [], st => (some (.ok ()), st)
  | (entity, budget) :: passes, st =>
    match sweepScope fails e fuel entity budget st with
    | (some (.ok ()), st) => sweepScopes fuel passes st
    | stopped => stopped

def sweep (fuel : ℕ) (w : World) : Option (Except SweepError Unit) × Sweeping :=
  sweepScopes fails e fuel e.passes { world := w, result := {} }

end Evict

end Trove.Cache
