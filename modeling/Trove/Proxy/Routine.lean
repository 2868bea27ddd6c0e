import Trove.Lib.Program
import Trove.Proxy.Lease

/-!
# Fills, a call at a time

What a fill does between its calls to the metadata store, the upstream and the cache's blob store.
Resolutions and fetches by digest of one name are coalesced: the calls `joinTag` and `joinManifest`
stand for what another flight under way answers, if there is one. Run to its end, a resolution or a
manifest fill does what `Filler` says (`resolve_run`, `manifest_run`).
-/

namespace Trove.Proxy

open Lib Meta
open Registry (Descriptor)

/-- Why a pull fails: the upstream's errors, or a store that cannot be read, with what was read. -/
inductive PullError
  | upstream (err : UpstreamError)
  | store (what err : String)
  | contentUnknown (reason : String)
  | configuration (err : String)
  deriving DecidableEq

inductive Reading
  | resolve
  | fetch
  | store
  deriving DecidableEq

inductive Opened
  | content (size : ℤ)
  | unusable
  | failed (err : String)

/-- The calls of a pull. A call to the upstream comes with the recording of its outcome. -/
inductive PullCall
  | clientFor (entity : String)
  | now (reading : Reading)
  | joinTag (repo tag : String)
  | joinManifest (repo : String) (digest : Digest)
  | upstreamReady (entity upstream : String) (now : Time)
  | resolveTag (upstream tag : String) (conditional : Conditional) (now : Time)
  | fetchManifest (upstream : String) (digest : Digest) (now : Time)
  | fetchBlob (upstream : String) (digest : Digest) (now : Time)
  | publish (e : CacheEvent)
  | getTagLease (repo tag : String)
  | putTagLease (lease : TagLease)
  | deleteTagLease (repo tag : String)
  | getNegativeEntry (repo reference : String)
  | putNegativeEntry (entry : NegativeEntry)
  | deleteNegativeEntry (repo reference : String)
  | getCachedManifest (repo : String) (digest : Digest)
  | putCachedManifest (m : CachedManifest) (refs : List ManifestRef)
  | getCachedBlob (repo : String) (digest : Digest)
  | putCachedBlob (b : CachedBlob)
  | openBlob (digest : Digest)
  /-- The client reads the stream, and the copy is committed at its end. -/
  | fill (digest : Digest)

/-- What a call answers: a read finds a row or none, or fails. -/
abbrev PullCall.Reply : PullCall → Type
  | .clientFor _ => Except String Client
  | .now _ => Time
  | .joinTag _ _ => Option (Except PullError TagResolution)
  | .joinManifest _ _ => Option (Except PullError ManifestResult)
  | .upstreamReady _ _ _ => Except UpstreamError Unit
  | .resolveTag _ _ _ _ => Except UpstreamError Resolution
  | .fetchManifest _ _ _ => Except UpstreamError (List UInt8 × String)
  | .fetchBlob _ _ _ => Except UpstreamError ℤ
  | .publish _ => Unit
  | .getTagLease _ _ => Except String (Option TagLease)
  | .getNegativeEntry _ _ => Except String (Option NegativeEntry)
  | .getCachedManifest _ _ => Except String (Option CachedManifest)
  | .getCachedBlob _ _ => Except String (Option CachedBlob)
  | .putTagLease _ | .deleteTagLease _ _ | .putNegativeEntry _ | .deleteNegativeEntry _ _
  | .putCachedManifest _ _ | .putCachedBlob _ => Except String Unit
  | .openBlob _ => Opened
  -- the size committed, when there was a session and the stream ended
  | .fill _ => Option ℤ

/-- A handler's program of calls. -/
abbrev Routine (α : Type) : Type := Program PullCall.Reply α

namespace Routine

/-- Make the call. -/
def ask (c : PullCall) : Routine c.Reply := Program.perform c

def when (condition : Bool) (p : Routine Unit) : Routine Unit := if condition then p else pure ()

/-! ## The metadata store -/

/-- A failure is logged. -/
def writeLease (lease : TagLease) : Routine Unit := do
  let _ ← ask (.putTagLease lease)

def dropLease (t : Target) (tag : String) : Routine Unit := do
  let _ ← ask (.deleteTagLease t.repository tag)

def recordNegative (t : Target) (tag : String) (now : Time) : Routine Unit :=
  when (0 < t.negativeTTL) do
    let _ ← ask (.putNegativeEntry ⟨t.repository, tag, now, t.negativeTTL⟩)

def dropNegative (t : Target) (tag : String) : Routine Unit := do
  let _ ← ask (.deleteNegativeEntry t.repository tag)

/-! ## Manifests -/

variable (f : Filler) (t : Target)

def storeManifest (digest : Digest) (payload : List UInt8) (mediaType : String) :
    Routine (Except PullError ManifestResult) :=
  match f.parse mediaType payload with
  | .error reason => return .error (.upstream (.unusable t.upstream digest reason))
  | .ok parsed => do
    let at_ ← ask (.now .store)
    match ← ask (.putCachedManifest (t.row digest payload parsed at_) (cachedRefs parsed)) with
    | .error _ => return .ok ⟨digest, parsed.mediaType, payload, false, false⟩
    | .ok () => do
      ask (.publish (.filled t.repository t.remote digest payload.length))
      return .ok ⟨digest, parsed.mediaType, payload, false, true⟩

def fillManifest (digest : Digest) : Routine (Except PullError ManifestResult) := do
  match ← ask (.getCachedManifest t.repository digest) with
  | .error err => return .error (.store "read the cached manifest" err)
  | .ok (some cached) => return .ok ⟨digest, cached.mediaType, cached.payload, true, true⟩
  | .ok none => do
    let now ← ask (.now .fetch)
    match ← ask (.upstreamReady t.entity t.upstream now) with
    | .error err => return .error (.upstream err)
    | .ok () => do
      match ← ask (.fetchManifest t.upstream digest now) with
      | .error err => do
        when (err.is .digestMismatch) (ask (.publish (.corrupt t.repository digest)))
        return .error (.upstream err)
      | .ok (payload, mediaType) => storeManifest f t digest payload mediaType

def manifest (digest : Digest) : Routine (Except PullError ManifestResult) :=
  match t.validate with
  | .error err => return .error (.upstream err)
  | .ok () =>
    match Blob.parseDigest digest with
    | .error reason => return .error (.upstream (f.invalidDigest digest reason))
    | .ok _ => do
      match ← ask (.joinManifest t.repository digest) with
      | some result => return result
      | none => fillManifest f t digest

/-! ## Tags -/

def cacheResolved (resolution : Resolution) : Routine (Except PullError ManifestResult) :=
  if resolution.manifest = [] then manifest f t resolution.digest
  else storeManifest f t resolution.digest resolution.manifest resolution.mediaType

def resolveFailed (tag : String) (now : Time) (held : Option TagLease) (err : UpstreamError) :
    Routine (Except PullError TagResolution) :=
  if err.is .notFound then do
    when held.isSome (dropLease t tag)
    recordNegative t tag now
    return .error (.upstream err)
  else
    match classify err, held, t.offline with
    | some cause, some lease, .serveStale => do
      -- the deadline is not moved, since the mapping was not confirmed
      when (!lease.stale) (writeLease { lease with stale := true })
      ask (.publish (t.staleServed tag lease now cause))
      return .ok ⟨lease.digest, false, false, false, true, t.staleFor lease now⟩
    | _, _, _ => return .error (.upstream err)

def supply (tag : String) (now : Time) (resolution : Resolution) :
    Routine (Except PullError TagResolution) := do
  match ← cacheResolved f t resolution with
  | .error err => return .error err
  | .ok _ => do
    writeLease (t.supplied tag resolution now)
    return .ok ⟨resolution.digest, false, true, true, false, 0⟩

/-- What `resolveTag` does with the upstream's answer. -/
def resolved (tag : String) (now : Time) (held : Option TagLease) (absent : Option NegativeEntry)
    (resolution : Resolution) : Routine (Except PullError TagResolution) := do
  when absent.isSome (dropNegative t tag)
  match held, resolution.changed with
  | some lease, false => do
    writeLease (t.confirmed lease resolution now)
    return .ok ⟨lease.digest, false, true, false, false, 0⟩
  | _, _ => supply f t tag now resolution

def resolveTag (tag : String) : Routine (Except PullError TagResolution) := do
  match ← ask (.getTagLease t.repository tag) with
  | .error err => return .error (.store "read the tag lease" err)
  | .ok held => do
    let now ← ask (.now .resolve)
    match held.filter (Filler.fresh now · t.tagTTL) with
    | some lease => return .ok ⟨lease.digest, true, false, false, false, 0⟩
    | none => do
      match ← ask (.getNegativeEntry t.repository tag) with
      | .error err => return .error (.store "read the negative cache" err)
      | .ok absent =>
        match absent.filter (Filler.negativeFresh now · t.negativeTTL) with
        | some _ => return .error (.upstream (.remembered t.upstream tag))
        | none => do
          match ← ask (.upstreamReady t.entity t.upstream now) with
          | .error err => resolveFailed t tag now held err
          | .ok () => do
            match ← ask (.resolveTag t.upstream tag (Target.conditional held) now) with
            | .error err => resolveFailed t tag now held err
            | .ok resolution => resolved f t tag now held absent resolution

/-- A valid target's tag. -/
def resolve (tag : String) : Routine (Except PullError TagResolution) :=
  match t.validate with
  | .error err => return .error (.upstream err)
  | .ok () =>
    if tag = "" then return .error (.upstream (.reference "tag" tag "must not be empty"))
    else do
      match ← ask (.joinTag t.repository tag) with
      | some result => return result
      | none => resolveTag f t tag

/-! ## Blobs -/

/-- A blob, once its stream is over. -/
structure BlobResult where
  size : ℤ
  hit : Bool

/-- `complete`, of a stream that ended and was committed. -/
def complete (digest : Digest) (size : ℤ) : Routine Unit := do
  let at_ ← ask (.now .store)
  match ← ask (.putCachedBlob ⟨t.repository, digest, size, at_, at_⟩) with
  | .error _ => return ()
  | .ok () => ask (.publish (.filled t.repository t.remote digest size))

def fetchBlob (digest : Digest) : Routine (Except PullError BlobResult) := do
  let now ← ask (.now .fetch)
  match ← ask (.upstreamReady t.entity t.upstream now) with
  | .error err => return .error (.upstream err)
  | .ok () => do
    match ← ask (.fetchBlob t.upstream digest now) with
    | .error err => do
      when (err.is .digestMismatch) (ask (.publish (.corrupt t.repository digest)))
      return .error (.upstream err)
    | .ok size => do
      match ← ask (.fill digest) with
      | none => return .ok ⟨size, false⟩
      | some committed => do
        complete t digest committed
        return .ok ⟨size, false⟩

def blob (digest : Digest) : Routine (Except PullError BlobResult) :=
  match t.validate with
  | .error err => return .error (.upstream err)
  | .ok () =>
    match Blob.parseDigest digest with
    | .error reason => return .error (.upstream (f.invalidDigest digest reason))
    | .ok _ => do
      match ← ask (.getCachedBlob t.repository digest) with
      | .error err => return .error (.store "read the cached blob" err)
      | .ok none => fetchBlob t digest
      | .ok (some _) => do
        match ← ask (.openBlob digest) with
        | .content size => return .ok ⟨size, true⟩
        | .unusable => fetchBlob t digest
        | .failed err => return .error (.store "open the cached blob" err)

/-! ## Run to the end -/

def stored (quote : String → String) (st : FillState) :
    Except Error Cached → Except String Unit × FillState
  | .ok cache => (.ok (), { st with cache := cache })
  | .error err => (.error (err.message quote), st)

/-- Calls answered at once, out of the cache and by the target's client. Other calls are answered as
given. -/
def handle (r : Readings) (other : (c : PullCall) → FillState → c.Reply × FillState) :
    (c : PullCall) → FillState → c.Reply × FillState
  | .now .resolve, st => (r.resolve, st)
  | .now .fetch, st => (r.fetch, st)
  | .now .store, st => (r.store, st)
  | .joinTag _ _, st => (none, st)
  | .joinManifest _ _, st => (none, st)
  | .upstreamReady entity upstream now, st =>
    (upstreamReady f.rfc3339 st.standing entity upstream now, st)
  | .resolveTag upstream tag conditional now, st =>
    let answer := t.client.resolveTag upstream tag conditional
    (answer, f.called t r now (failure answer) { st with lookups := st.lookups ++ [(now, answer)] })
  | .fetchManifest upstream digest now, st =>
    let answer := t.client.fetchManifest upstream digest
    (answer, f.called t r now (failure answer) st)
  | .publish e, st => ((), Filler.publish e st)
  | .getTagLease repo tag, st => (.ok (st.cache.getTagLease repo tag).toOption, st)
  | .putTagLease lease, st => stored f.quote st (st.cache.putTagLease f.quote lease)
  | .deleteTagLease repo tag, st => stored f.quote st (st.cache.deleteTagLease repo tag)
  | .getNegativeEntry repo reference, st =>
    (.ok (st.cache.getNegativeEntry repo reference).toOption, st)
  | .putNegativeEntry entry, st => stored f.quote st (st.cache.putNegativeEntry f.quote entry)
  | .deleteNegativeEntry repo reference, st =>
    stored f.quote st (st.cache.deleteNegativeEntry repo reference)
  | .getCachedManifest repo digest, st =>
    (.ok (st.cache.getCachedManifest repo digest).toOption, st)
  | .putCachedManifest m refs, st => stored f.quote st (st.cache.putCachedManifest f.quote m refs)
  | c, st => other c st

def ofFill {α : Type} (result : Except UpstreamError α × FillState) :
    Except PullError α × FillState := (result.1.mapError .upstream, result.2)

section Run

variable {f t} {r : Readings} {other : (c : PullCall) → FillState → c.Reply × FillState}
  {tag : String} {now : Time} {st : FillState}

theorem when_run (condition : Bool) (p : Routine Unit) :
    (when condition p).run (handle f t r other) st =
      if condition then p.run (handle f t r other) st else ((), st) := by
  unfold when
  split_ifs <;> rfl

theorem writeLease_run (lease : TagLease) :
    (writeLease lease).run (handle f t r other) st = ((), f.writeLease lease st) := by
  show ((), (stored f.quote st (st.cache.putTagLease f.quote lease)).2) = _
  unfold Filler.writeLease stored
  cases st.cache.putTagLease f.quote lease <;> rfl

theorem dropLease_run :
    (dropLease t tag).run (handle f t r other) st = ((), Filler.dropLease t tag st) := by
  show ((), (stored f.quote st (st.cache.deleteTagLease t.repository tag)).2) = _
  unfold Filler.dropLease stored
  cases st.cache.deleteTagLease t.repository tag <;> rfl

theorem dropNegative_run :
    (dropNegative t tag).run (handle f t r other) st = ((), Filler.dropNegative t tag st) := by
  show ((), (stored f.quote st (st.cache.deleteNegativeEntry t.repository tag)).2) = _
  unfold Filler.dropNegative stored
  cases st.cache.deleteNegativeEntry t.repository tag <;> rfl

theorem recordNegative_run :
    (recordNegative t tag now).run (handle f t r other) st =
      ((), f.recordNegative t tag now st) := by
  unfold recordNegative Filler.recordNegative
  rw [when_run]
  by_cases httl : t.negativeTTL ≤ 0
  · rw [if_pos httl, if_neg (by simpa using httl)]
  · rw [if_neg httl, if_pos (by simpa using httl)]
    show ((), (stored f.quote st (st.cache.putNegativeEntry f.quote _)).2) = _
    cases st.cache.putNegativeEntry f.quote ⟨t.repository, tag, now, t.negativeTTL⟩ <;> rfl

theorem storeManifest_run (digest : Digest) (payload : List UInt8) (mediaType : String) :
    (storeManifest f t digest payload mediaType).run (handle f t r other) st =
      ofFill (f.storeManifest t r digest payload mediaType st) := by
  unfold storeManifest Filler.storeManifest
  cases hpr : f.parse mediaType payload with
  | error reason => rfl
  | ok parsed =>
    simp only [ask, Program.perform, Program.call_bind, Program.ret_bind, Program.run_call, handle]
    cases st.cache.putCachedManifest f.quote _ (cachedRefs parsed) with
    | error err => rfl
    | ok cache => rfl

theorem fillManifest_run (digest : Digest) :
    (fillManifest f t digest).run (handle f t r other) st =
      ofFill (f.fillManifest t r digest st) := by
  unfold fillManifest Filler.fillManifest
  simp only [ask, Program.perform, Program.call_bind, Program.ret_bind, Program.run_call, handle]
  cases st.cache.getCachedManifest t.repository digest with
  | ok cached => rfl
  | error err =>
    simp only [Except.toOption, Program.run_call, handle]
    cases upstreamReady f.rfc3339 st.standing t.entity t.upstream r.fetch with
    | error err => rfl
    | ok =>
      simp only [Program.run_call, handle]
      cases t.client.fetchManifest t.upstream digest with
      | error err =>
        simp only [Program.run_bind]
        rw [when_run]
        by_cases hms : err.is .digestMismatch = true
        · rw [if_pos hms, if_pos hms]
          rfl
        · rw [if_neg hms, if_neg hms]
          rfl
      | ok answer => exact storeManifest_run digest answer.1 answer.2

/-- **Fills by digest.** Run to its end, a manifest fill is `Filler.manifest`. -/
theorem manifest_run (digest : Digest) :
    (manifest f t digest).run (handle f t r other) st = ofFill (f.manifest t r digest st) := by
  unfold manifest Filler.manifest
  cases t.validate with
  | error err => rfl
  | ok =>
    cases Blob.parseDigest digest with
    | error reason => rfl
    | ok => exact fillManifest_run digest

theorem cacheResolved_run (resolution : Resolution) :
    (cacheResolved f t resolution).run (handle f t r other) st =
      ofFill (f.cacheResolved t r resolution st) := by
  unfold cacheResolved Filler.cacheResolved
  split_ifs
  · exact manifest_run _
  · exact storeManifest_run _ _ _

theorem resolveFailed_run (held : Option TagLease) (err : UpstreamError) :
    (resolveFailed t tag now held err).run (handle f t r other) st =
      ofFill (f.resolveFailed t tag now held err st) := by
  unfold resolveFailed Filler.resolveFailed
  by_cases hgn : err.is .notFound = true
  · rw [if_pos hgn, if_pos hgn]
    simp only [Program.run_bind, when_run, dropLease_run, recordNegative_run]
    cases held <;> rfl
  · rw [if_neg hgn, if_neg hgn]
    cases classify err with
    | none => rfl
    | some cause =>
      cases held with
      | none => rfl
      | some lease =>
        cases t.offline with
        | strict => rfl
        | serveStale =>
          simp only [Program.run_bind, when_run, writeLease_run]
          cases lease.stale <;> rfl

theorem supply_run (resolution : Resolution) :
    (supply f t tag now resolution).run (handle f t r other) st =
      ofFill (f.supply t tag r now resolution st) := by
  unfold supply Filler.supply
  simp only [Program.run_bind, cacheResolved_run]
  rcases f.cacheResolved t r resolution st with ⟨result, st'⟩
  cases result with
  | error err => rfl
  | ok m =>
    show (do writeLease _; return _ : Routine _).run (handle f t r other) st' = _
    rw [Program.run_bind, writeLease_run]
    rfl

theorem resolved_run (held : Option TagLease) (absent : Option NegativeEntry)
    (resolution : Resolution) :
    (resolved f t tag now held absent resolution).run (handle f t r other) st =
      ofFill (f.resolved t tag r now held absent resolution st) := by
  unfold resolved Filler.resolved
  have hdr : ((when absent.isSome (dropNegative t tag)).run (handle f t r other) st).2 =
      if absent.isSome then Filler.dropNegative t tag st else st := by
    rw [when_run, dropNegative_run]
    split_ifs <;> rfl
  rw [Program.run_bind, hdr]
  cases held with
  | none => exact supply_run resolution
  | some lease =>
    cases resolution.changed with
    | true => exact supply_run resolution
    | false =>
      simp only [Program.run_bind, writeLease_run]
      rfl

theorem resolveTag_run :
    (resolveTag f t tag).run (handle f t r other) st = ofFill (f.resolveTag t tag r st) := by
  have hls : (st.cache.getTagLease t.repository tag).toOption = Filler.lease t tag st := rfl
  have hng : (st.cache.getNegativeEntry t.repository tag).toOption =
      Filler.negative t tag st := rfl
  unfold resolveTag Filler.resolveTag
  simp only [ask, Program.perform, Program.call_bind, Program.ret_bind, Program.run_call, handle,
    hls]
  cases (Filler.lease t tag st).filter (Filler.fresh r.resolve · t.tagTTL) with
  | some lease => rfl
  | none =>
    simp only [Program.run_call, handle, hng]
    cases (Filler.negative t tag st).filter (Filler.negativeFresh r.resolve · t.negativeTTL) with
    | some entry => rfl
    | none =>
      simp only [Program.run_call, handle]
      cases upstreamReady f.rfc3339 st.standing t.entity t.upstream r.resolve with
      | error err => exact resolveFailed_run _ err
      | ok =>
        simp only [Program.run_call, handle]
        generalize t.client.resolveTag t.upstream tag _ = answer
        cases answer with
        | error err => exact resolveFailed_run _ err
        | ok resolution => exact resolved_run _ _ resolution

/-- **Resolutions.** Run to its end, a resolution is `Filler.resolve`. -/
theorem resolve_run :
    (resolve f t tag).run (handle f t r other) st = ofFill (f.resolve t tag r st) := by
  unfold resolve Filler.resolve
  cases t.validate with
  | error err => rfl
  | ok =>
    by_cases htag : tag = ""
    · rw [if_pos htag, if_pos htag]
      rfl
    · rw [if_neg htag, if_neg htag]
      exact resolveTag_run

end Run

/-! ## What a fill writes -/

/-- A row that is written is of the repository. -/
def Within (name : String) : PullCall → Prop
  | .putTagLease l => l.repository = name
  | .putNegativeEntry e => e.repository = name
  | .putCachedManifest m _ => m.repository = name
  | .putCachedBlob b => b.repository = name
  | _ => True

/-- A lease that is found is of the repository it was asked for. -/
def Keyed : (c : PullCall) → c.Reply → Prop
  | .getTagLease repo _, reply => ∀ l, reply = .ok (some l) → l.repository = repo
  | _, _ => True

/-- Every row the program writes is of the repository. -/
abbrev WritesWithin {α : Type} (name : String) (p : Routine α) : Prop := p.Calls (Within name) Keyed

section Writes

variable {f t} {name tag : String} {now : Time}

theorem writesWithin_when {condition : Bool} {p : Routine Unit} (h : WritesWithin name p) :
    WritesWithin name (when condition p) := by
  unfold when
  split_ifs
  · exact h
  · trivial

theorem writeLease_within {lease : TagLease} (h : lease.repository = name) :
    WritesWithin name (writeLease lease) := ⟨h, fun _ _ => trivial⟩

theorem dropLease_within : WritesWithin name (dropLease t tag) := ⟨trivial, fun _ _ => trivial⟩

theorem dropNegative_within : WritesWithin name (dropNegative t tag) :=
  ⟨trivial, fun _ _ => trivial⟩

theorem recordNegative_within : WritesWithin t.repository (recordNegative t tag now) :=
  writesWithin_when ⟨rfl, fun _ _ => trivial⟩

theorem publish_within (e : CacheEvent) : WritesWithin name (ask (.publish e)) :=
  ⟨trivial, fun _ _ => trivial⟩

theorem storeManifest_within (digest : Digest) (payload : List UInt8) (mediaType : String) :
    WritesWithin t.repository (storeManifest f t digest payload mediaType) := by
  unfold storeManifest
  split
  · trivial
  · refine ⟨trivial, fun at_ _ => ⟨rfl, fun stored _ => ?_⟩⟩
    cases stored with
    | error err => trivial
    | ok => exact ⟨trivial, fun _ _ => trivial⟩

theorem fillManifest_within (digest : Digest) :
    WritesWithin t.repository (fillManifest f t digest) := by
  refine ⟨trivial, fun found _ => ?_⟩
  rcases found with err | (_ | cached)
  · trivial
  · refine ⟨trivial, fun now _ => ⟨trivial, fun ready _ => ?_⟩⟩
    cases ready with
    | error err => trivial
    | ok =>
      refine ⟨trivial, fun answer _ => ?_⟩
      cases answer with
      | error err => exact (writesWithin_when (publish_within _)).bind fun _ => trivial
      | ok answer => exact storeManifest_within digest answer.1 answer.2
  · trivial

theorem manifest_within (digest : Digest) : WritesWithin t.repository (manifest f t digest) := by
  unfold manifest
  split
  · trivial
  · split
    · trivial
    · refine ⟨trivial, fun joined _ => ?_⟩
      cases joined with
      | some result => trivial
      | none => exact fillManifest_within digest

theorem cacheResolved_within (resolution : Resolution) :
    WritesWithin t.repository (cacheResolved f t resolution) := by
  unfold cacheResolved
  split_ifs
  · exact manifest_within _
  · exact storeManifest_within _ _ _

theorem resolveFailed_within {held : Option TagLease}
    (hhl : ∀ l ∈ held, l.repository = t.repository) (err : UpstreamError) :
    WritesWithin t.repository (resolveFailed t tag now held err) := by
  unfold resolveFailed
  split_ifs
  · refine (writesWithin_when dropLease_within).bind fun _ => ?_
    exact recordNegative_within.bind fun _ => trivial
  · split
    · rename_i cause lease _ _
      have hst : WritesWithin t.repository (writeLease { lease with stale := true }) :=
        writeLease_within (hhl lease rfl)
      exact (writesWithin_when hst).bind fun _ => (publish_within _).bind fun _ => trivial
    · trivial

theorem supply_within (resolution : Resolution) :
    WritesWithin t.repository (supply f t tag now resolution) := by
  refine (cacheResolved_within resolution).bind fun result => ?_
  cases result with
  | error err => trivial
  | ok m => exact (writeLease_within rfl).bind fun _ => trivial

theorem resolved_within {held : Option TagLease} {absent : Option NegativeEntry}
    (hhl : ∀ l ∈ held, l.repository = t.repository) (resolution : Resolution) :
    WritesWithin t.repository (resolved f t tag now held absent resolution) := by
  refine (writesWithin_when dropNegative_within).bind fun _ => ?_
  split
  · rename_i lease _
    exact (writeLease_within (hhl lease rfl)).bind fun _ => trivial
  · exact supply_within resolution

theorem resolveTag_within : WritesWithin t.repository (resolveTag f t tag) := by
  refine ⟨trivial, fun found hfn => ?_⟩
  cases found with
  | error err => trivial
  | ok held =>
    have hhl : ∀ l ∈ held, l.repository = t.repository := by
      intro l hl
      exact hfn l (congrArg Except.ok hl)
    refine ⟨trivial, fun now _ => ?_⟩
    dsimp only [Program.bind]
    split
    · trivial
    · refine ⟨trivial, fun absent _ => ?_⟩
      cases absent with
      | error err => trivial
      | ok absent =>
        dsimp only [Program.bind]
        split
        · trivial
        · refine ⟨trivial, fun ready _ => ?_⟩
          cases ready with
          | error err => exact resolveFailed_within hhl err
          | ok =>
            refine ⟨trivial, fun answer _ => ?_⟩
            cases answer with
            | error err => exact resolveFailed_within hhl err
            | ok resolution => exact resolved_within hhl resolution

theorem resolve_within : WritesWithin t.repository (resolve f t tag) := by
  unfold resolve
  split
  · trivial
  · split_ifs
    · trivial
    · refine ⟨trivial, fun joined _ => ?_⟩
      cases joined with
      | some result => trivial
      | none => exact resolveTag_within

theorem complete_within (digest : Digest) (size : ℤ) :
    WritesWithin t.repository (complete t digest size) := by
  refine ⟨trivial, fun at_ _ => ⟨rfl, fun stored _ => ?_⟩⟩
  cases stored with
  | error err => trivial
  | ok => exact publish_within _

theorem fetchBlob_within (digest : Digest) : WritesWithin t.repository (fetchBlob t digest) := by
  refine ⟨trivial, fun now _ => ⟨trivial, fun ready _ => ?_⟩⟩
  cases ready with
  | error err => trivial
  | ok =>
    refine ⟨trivial, fun answer _ => ?_⟩
    cases answer with
    | error err => exact (writesWithin_when (publish_within _)).bind fun _ => trivial
    | ok size =>
      refine ⟨trivial, fun filled _ => ?_⟩
      cases filled with
      | none => trivial
      | some committed => exact (complete_within digest committed).bind fun _ => trivial

theorem blob_within (digest : Digest) : WritesWithin t.repository (blob f t digest) := by
  unfold blob
  split
  · trivial
  · split
    · trivial
    · refine ⟨trivial, fun found _ => ?_⟩
      rcases found with err | (_ | cached)
      · trivial
      · exact fetchBlob_within digest
      · refine ⟨trivial, fun opened _ => ?_⟩
        cases opened with
        | content size => trivial
        | unusable => exact fetchBlob_within digest
        | failed err => trivial

end Writes

end Routine

end Trove.Proxy
