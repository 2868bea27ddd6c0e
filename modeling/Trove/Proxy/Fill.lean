import Trove.Meta.Cached
import Trove.Proxy.Backoff
import Trove.Registry.Manifests

/-!
# Filling the cache by digest

A manifest is served from the cache, or else fetched, parsed and stored. A cache that cannot take
the copy does not fail the pull. The upstream is any client that keeps its contract; the calls made
to it are counted, and the answers to tag lookups kept, in the state.
-/

namespace Trove.Proxy

open Lib Meta
open Registry (Parsed Descriptor)

/-! ## The upstream -/

structure Conditional where
  digest : Digest
  etag : String

/-- The answer to a tag resolution. -/
structure Resolution where
  changed : Bool
  digest : Digest
  (mediaType etag : String)
  manifest : List UInt8

/-- `Client`, as far as fills and resolutions use it. A tag that did not change still points to the
digest the caller named. -/
structure Client where
  resolveTag : (repository tag : String) → Conditional → Except UpstreamError Resolution
  fetchManifest : (repository : String) → Digest → Except UpstreamError (List UInt8 × String)
  unchanged : ∀ repository tag cond resolution,
    resolveTag repository tag cond = .ok resolution → resolution.changed = false →
      resolution.digest = cond.digest

inductive OfflineMode
  | serveStale
  | strict
  deriving DecidableEq

structure Target where
  (repository upstream remote : String)
  client : Client
  (tagTTL negativeTTL : ℤ)
  offline : OfflineMode

def Target.validate (t : Target) : Except UpstreamError Unit :=
  if t.repository = "" then .error (.reference "repository" t.repository "required")
  else if t.upstream = "" then
    .error (.reference "repository" t.upstream "upstream repository is required")
  else .ok ()

def Target.entity (t : Target) : String := Reponame.prefixOf t.repository

/-! ## The filler -/

def cachedRefs (parsed : Parsed) : List ManifestRef :=
  (parsed.config.toList.map fun d => ⟨d.digest, .config⟩) ++
    ((parsed.layers.filter (!·.external)).map fun d => ⟨d.digest, .layer⟩) ++
    (parsed.children.map fun d => ⟨d.digest, .childManifest⟩) ++
    parsed.subject.toList.map fun d => ⟨d.digest, .subject⟩

/-- What a `Filler` is configured with: the backoff, `artifact.Parse`, whose descriptors all have a
digest, and how things are written. -/
structure Filler where
  backoff : BackoffOptions
  parse : (mediaType : String) → List UInt8 → Except String Parsed
  parse_refs : ∀ mediaType payload parsed, parse mediaType payload = .ok parsed →
    ∀ r ∈ cachedRefs parsed, r.child ≠ ""
  rfc3339 : Time → String
  quote : String → String

/-- What is published. -/
inductive CacheEvent
  | filled (repository upstream : String) (digest : Digest) (size : ℤ)
  | corrupt (repository : String) (digest : Digest)
  | staleServed (repository upstream reference : String) (digest : Digest) (staleSeconds : ℤ)
      (reason : DegradedCause)

/-- What the calls of a filler share. -/
structure FillState where
  cache : Cached
  standing : Standing
  events : List CacheEvent
  calls : ℕ
  /-- The tag lookups the upstream answered, each with the reading of its call. -/
  lookups : List (Time × Except UpstreamError Resolution)

structure Readings where
  (resolve fetch store : Time)
  jitter : ℕ → ℤ → ℤ

structure ManifestResult where
  digest : Digest
  mediaType : String
  payload : List UInt8
  (hit cached : Bool)

/-- The row a fetched manifest is cached in. -/
def Target.row (t : Target) (digest : Digest) (payload : List UInt8) (parsed : Parsed)
    (now : Time) : CachedManifest where
  repository := t.repository
  digest := digest
  mediaType := parsed.mediaType
  artifactType := parsed.artifactType
  subject := (parsed.subject.map Descriptor.digest).getD ""
  payload := payload
  size := payload.length
  cachedAt := now
  lastAccessAt := now

/-- How a call to the upstream ended, for the standing. -/
def failure {α : Type} : Except UpstreamError α → Option UpstreamError
  | .ok _ => none
  | .error err => some err

namespace Filler

variable (f : Filler) (t : Target) (r : Readings)

/-- What a digest that cannot be read is answered. -/
def invalidDigest (digest : Digest) (reason : Blob.InvalidDigest) : UpstreamError :=
  .reference "digest" digest
    ("invalid digest " ++ f.quote digest ++ ": " ++ reason.text f.quote)

/-- The event is out. -/
def publish (e : CacheEvent) (st : FillState) : FillState := { st with events := st.events ++ [e] }

def called (now : Time) (outcome : Option UpstreamError) (st : FillState) : FillState :=
  { st with
    standing := recordUpstream f.backoff (r.jitter st.calls) st.standing t.entity now outcome
    calls := st.calls + 1 }

/-- What cannot be cached is served all the same. -/
def storeManifest (digest : Digest) (payload : List UInt8) (mediaType : String) (st : FillState) :
    Except UpstreamError ManifestResult × FillState :=
  match f.parse mediaType payload with
  | .error reason => (.error (.unusable t.upstream digest reason), st)
  | .ok parsed =>
    match st.cache.putCachedManifest f.quote (t.row digest payload parsed r.store)
        (cachedRefs parsed) with
    | .error _ => (.ok ⟨digest, parsed.mediaType, payload, false, false⟩, st)
    | .ok cache =>
      (.ok ⟨digest, parsed.mediaType, payload, false, true⟩,
        publish (.filled t.repository t.remote digest payload.length) { st with cache := cache })

def fillManifest (digest : Digest) (st : FillState) :
    Except UpstreamError ManifestResult × FillState :=
  match st.cache.getCachedManifest t.repository digest with
  | .ok cached => (.ok ⟨digest, cached.mediaType, cached.payload, true, true⟩, st)
  | .error _ =>
    match upstreamReady f.rfc3339 st.standing t.entity t.upstream r.fetch with
    | .error err => (.error err, st)
    | .ok () =>
      let answer := t.client.fetchManifest t.upstream digest
      let st := f.called t r r.fetch (failure answer) st
      match answer with
      | .error err =>
        (.error err,
          if err.is .digestMismatch then publish (.corrupt t.repository digest) st else st)
      | .ok (payload, mediaType) => f.storeManifest t r digest payload mediaType st

def manifest (digest : Digest) (st : FillState) :
    Except UpstreamError ManifestResult × FillState :=
  match t.validate with
  | .error err => (.error err, st)
  | .ok () =>
    match Blob.parseDigest digest with
    | .error reason => (.error (f.invalidDigest digest reason), st)
    | .ok _ => f.fillManifest t r digest st

/-! ## What a fill leaves alone -/

structure Frame (st st' : FillState) : Prop where
  repos : st'.cache.repos = st.cache.repos
  leases : st'.cache.leases = st.cache.leases
  negatives : st'.cache.negatives = st.cache.negatives
  lookups : st'.lookups = st.lookups

theorem Frame.refl (st : FillState) : Frame st st := ⟨rfl, rfl, rfl, rfl⟩

theorem Frame.trans {st st₁ st₂ : FillState} (h : Frame st st₁) (h' : Frame st₁ st₂) :
    Frame st st₂ :=
  ⟨h'.repos.trans h.repos, h'.leases.trans h.leases, h'.negatives.trans h.negatives,
    h'.lookups.trans h.lookups⟩

variable {f t r} {st st' : FillState} {digest : Digest}

theorem frame_called (now : Time) (outcome : Option UpstreamError) :
    Frame st (f.called t r now outcome st) := ⟨rfl, rfl, rfl, rfl⟩

def Kept (f : Filler) (t : Target) (digest : Digest) (st : FillState) : Prop :=
  (st.cache.manifests.lookup (t.repository, digest)).isSome ∨ digest = "" ∨
    ∃ err, st.cache.requireProxyEntity f.quote t.repository = .error err

variable {result : Except UpstreamError ManifestResult}

theorem storeManifest_frame {payload : List UInt8} {mediaType : String}
    (h : f.storeManifest t r digest payload mediaType st = (result, st')) :
    Frame st st' ∧ (∀ m, result = .ok m → Kept f t digest st') := by
  unfold storeManifest at h
  split at h
  · cases h
    exact ⟨.refl st, by simp⟩
  · rename_i parsed hpr
    have hrf : ((cachedRefs parsed).any fun r => r.child = "") = false := by
      simpa using f.parse_refs _ _ _ hpr
    split at h
    · rename_i err hput
      cases h
      refine ⟨.refl st, fun _ _ => .inr ?_⟩
      unfold Cached.putCachedManifest at hput
      split at hput
      · rename_i err' hpx
        exact .inr ⟨err', hpx⟩
      · split_ifs at hput with hdg
        · exact .inl hdg
        · rw [hrf] at *
          contradiction
    · rename_i cache hput
      cases h
      unfold Cached.putCachedManifest at hput
      split at hput
      · cases hput
      · split_ifs at hput
        cases hput
        refine ⟨⟨rfl, rfl, rfl, rfl⟩, fun _ _ => .inl ?_⟩
        simp [publish, Table.lookup_insert, Target.row]

theorem fillManifest_frame (h : f.fillManifest t r digest st = (result, st')) :
    Frame st st' ∧ (∀ m, result = .ok m → Kept f t digest st') := by
  unfold fillManifest at h
  split at h
  · rename_i cached hget
    cases h
    refine ⟨.refl st, fun _ _ => .inl ?_⟩
    unfold Cached.getCachedManifest at hget
    split at hget
    · rename_i hlk
      simp [hlk]
    · cases hget
  · split at h
    · cases h
      exact ⟨.refl st, by simp⟩
    · dsimp only at h
      split at h
      · cases h
        refine ⟨?_, by simp⟩
        split_ifs <;> exact ⟨rfl, rfl, rfl, rfl⟩
      · obtain ⟨hfr, hkp⟩ := storeManifest_frame h
        exact ⟨(frame_called _ _).trans hfr, hkp⟩

theorem manifest_frame (h : f.manifest t r digest st = (result, st')) :
    Frame st st' ∧ (∀ m, result = .ok m → Kept f t digest st') := by
  unfold manifest at h
  split at h
  · cases h
    exact ⟨.refl st, by simp⟩
  · split at h
    · cases h
      exact ⟨.refl st, by simp⟩
    · exact fillManifest_frame h

end Filler

end Trove.Proxy
