import Trove.Proxy.Fill

/-!
# Tag leases

A tag is resolved from its lease while that is fresh, from a remembered absence while that is, and
otherwise at the upstream: what is confirmed or supplied there renews the lease, a not-found drops
it and is remembered, and an outage serves what is held, marked stale, unless the mode is strict.

The store answers every call, and the resolutions of the tag run one at a time; concurrent ones are
coalesced into one.
-/

namespace Trove.Proxy

open Lib Meta

structure TagResolution where
  digest : Digest
  (hit revalidated changed stale : Bool)
  staleFor : ℤ
  deriving DecidableEq

namespace Target

variable (t : Target) (tag : String)

/-- What the upstream is asked to compare with: what is held. -/
def conditional (held : Option TagLease) : Conditional :=
  held.elim ⟨"", ""⟩ fun lease => ⟨lease.digest, lease.etag⟩

/-- The lease once the upstream has confirmed it. An answer without an entity tag leaves the one
held. -/
def confirmed (lease : TagLease) (resolution : Resolution) (now : Time) : TagLease :=
  { lease with
    fetchedAt := now
    ttl := t.tagTTL
    stale := false
    etag := if resolution.etag = "" then lease.etag else resolution.etag }

/-- The lease on what the upstream has supplied. -/
def supplied (resolution : Resolution) (now : Time) : TagLease :=
  ⟨t.repository, tag, resolution.digest, resolution.etag, now, t.tagTTL, false⟩

/-- How long the lease has been past its time to live. -/
def staleFor (lease : TagLease) (now : Time) : ℤ := max (now - lease.fetchedAt - t.tagTTL) 0

/-- The event of a lease served through an outage. -/
def staleServed (lease : TagLease) (now : Time) (cause : DegradedCause) : CacheEvent :=
  .staleServed t.repository t.remote tag lease.digest (Int.tdiv (t.staleFor lease now) second) cause

end Target

namespace Filler

variable (f : Filler) (t : Target) (tag : String) (r : Readings) (now : Time)

def lease (st : FillState) : Option TagLease := (st.cache.getTagLease t.repository tag).toOption

def negative (st : FillState) : Option NegativeEntry :=
  (st.cache.getNegativeEntry t.repository tag).toOption

/-- The TTL is the current one, and zero is to ask every time. -/
def fresh (lease : TagLease) (ttl : ℤ) : Bool :=
  if ttl ≤ 0 then false else decide (now - lease.fetchedAt < ttl)

/-- A TTL of zero switches negative caching off. -/
def negativeFresh (entry : NegativeEntry) (ttl : ℤ) : Bool :=
  if ttl ≤ 0 then false else decide (now - entry.observedAt < ttl)

/-- A lease that cannot be written is revalidated next time. -/
def writeLease (lease : TagLease) (st : FillState) : FillState :=
  match st.cache.putTagLease f.quote lease with
  | .ok cache => { st with cache := cache }
  | .error _ => st

def dropLease (st : FillState) : FillState :=
  match st.cache.deleteTagLease t.repository tag with
  | .ok cache => { st with cache := cache }
  | .error _ => st

def recordNegative (st : FillState) : FillState :=
  if t.negativeTTL ≤ 0 then st
  else
    match st.cache.putNegativeEntry f.quote ⟨t.repository, tag, now, t.negativeTTL⟩ with
    | .ok cache => { st with cache := cache }
    | .error _ => st

def dropNegative (st : FillState) : FillState :=
  match st.cache.deleteNegativeEntry t.repository tag with
  | .ok cache => { st with cache := cache }
  | .error _ => st

def cacheResolved (resolution : Resolution) (st : FillState) :
    Except UpstreamError ManifestResult × FillState :=
  if resolution.manifest = [] then f.manifest t r resolution.digest st
  else f.storeManifest t r resolution.digest resolution.manifest resolution.mediaType st

/-- What to do when the upstream could not answer. -/
def resolveFailed (held : Option TagLease) (err : UpstreamError) (st : FillState) :
    Except UpstreamError TagResolution × FillState :=
  if err.is .notFound then
    let st := if held.isSome then dropLease t tag st else st
    (.error err, f.recordNegative t tag now st)
  else
    match classify err, held, t.offline with
    | some cause, some lease, .serveStale =>
      -- the deadline is not moved, since the mapping was not confirmed
      let st := if lease.stale then st else f.writeLease { lease with stale := true } st
      (.ok ⟨lease.digest, false, false, false, true, t.staleFor lease now⟩,
        publish (t.staleServed tag lease now cause) st)
    | _, _, _ => (.error err, st)

/-- The last part of `resolveTag`: the tag moved, or there was nothing to compare with. -/
def supply (resolution : Resolution) (st : FillState) :
    Except UpstreamError TagResolution × FillState :=
  match f.cacheResolved t r resolution st with
  | (.error err, st) => (.error err, st)
  | (.ok _, st) =>
    (.ok ⟨resolution.digest, false, true, true, false, 0⟩,
      f.writeLease (t.supplied tag resolution now) st)

/-- What `resolveTag` does with the upstream's answer. -/
def resolved (held : Option TagLease) (absent : Option NegativeEntry) (resolution : Resolution)
    (st : FillState) : Except UpstreamError TagResolution × FillState :=
  let st := if absent.isSome then dropNegative t tag st else st
  match held, resolution.changed with
  | some lease, false =>
    (.ok ⟨lease.digest, false, true, false, false, 0⟩,
      f.writeLease (t.confirmed lease resolution now) st)
  | _, _ => f.supply t tag r now resolution st

def resolveTag (st : FillState) : Except UpstreamError TagResolution × FillState :=
  let now := r.resolve
  let held := lease t tag st
  let absent := negative t tag st
  match held.filter (fresh now · t.tagTTL), absent.filter (negativeFresh now · t.negativeTTL) with
  | some lease, _ => (.ok ⟨lease.digest, true, false, false, false, 0⟩, st)
  | none, some _ => (.error (.remembered t.upstream tag), st)
  | none, none =>
    match upstreamReady f.rfc3339 st.standing t.entity t.upstream now with
    | .error err => f.resolveFailed t tag now held err st
    | .ok () =>
      let answer := t.client.resolveTag t.upstream tag (Target.conditional held)
      let st := f.called t r now (failure answer)
        { st with lookups := st.lookups ++ [(now, answer)] }
      match answer with
      | .error err => f.resolveFailed t tag now held err st
      | .ok resolution => f.resolved t tag r now held absent resolution st

end Filler

def Filler.resolve (f : Filler) (t : Target) (tag : String) (r : Readings) (st : FillState) :
    Except UpstreamError TagResolution × FillState :=
  match t.validate with
  | .error err => (.error err, st)
  | .ok () =>
    if tag = "" then (.error (.reference "tag" tag "must not be empty"), st)
    else f.resolveTag t tag r st

/-! ## The courses of a resolution -/

namespace Filler

theorem lease_eq (t : Target) (tag : String) (st : FillState) :
    lease t tag st = st.cache.leases.lookup (t.repository, tag) := by
  unfold lease Cached.getTagLease
  cases st.cache.leases.lookup (t.repository, tag) <;> rfl

theorem negative_eq (t : Target) (tag : String) (st : FillState) :
    negative t tag st = st.cache.negatives.lookup (t.repository, tag) := by
  unfold negative Cached.getNegativeEntry
  cases st.cache.negatives.lookup (t.repository, tag) <;> rfl

variable {st st' : FillState} {ttl : ℤ} {now : Time}

theorem lease_congr (t : Target) (tag : String) (h : st'.cache.leases = st.cache.leases) :
    lease t tag st' = lease t tag st := by
  rw [lease_eq, lease_eq, h]

theorem negative_congr (t : Target) (tag : String) (h : st'.cache.negatives = st.cache.negatives) :
    negative t tag st' = negative t tag st := by
  rw [negative_eq, negative_eq, h]

variable {l : TagLease} {resolution : Resolution} {err : UpstreamError}

theorem fresh_iff : fresh now l ttl = true ↔ 0 < ttl ∧ now - l.fetchedAt < ttl := by
  unfold fresh
  split_ifs with hle
  · simp [hle]
  · simp [not_le.mp hle]

theorem negativeFresh_iff {e : NegativeEntry} :
    negativeFresh now e ttl = true ↔ 0 < ttl ∧ now - e.observedAt < ttl := by
  unfold negativeFresh
  split_ifs with hle
  · simp [hle]
  · simp [not_le.mp hle]

/-- The upstream resolved the tag. The lease is as before, and so is an absence, unless forgotten.
-/
structure Answered (t : Target) (tag : String) (now : Time) (resolution : Resolution)
    (st st₁ : FillState) : Prop where
  lease : lease t tag st₁ = lease t tag st
  negative : negative t tag st₁ = none ∨ negative t tag st₁ = negative t tag st
  lookups : st₁.lookups = st.lookups ++ [(now, .ok resolution)]

/-- The upstream is left alone, or it was asked and answered with an error. -/
def Failed (f : Filler) (t : Target) (now : Time) (err : UpstreamError) (st st₁ : FillState) :
    Prop :=
  (upstreamReady f.rfc3339 st.standing t.entity t.upstream now = .error err ∧
    st₁.lookups = st.lookups) ∨
  st₁.lookups = st.lookups ++ [(now, .error err)]

/-- What a call of `ResolveTag` can do. -/
inductive Course (f : Filler) (t : Target) (tag : String) (now : Time) (st : FillState) :
    Except UpstreamError TagResolution → FillState → Prop
  | refused (err : UpstreamError) (herr : err.is .notFound = false) :
      Course f t tag now st (.error err) st
  | hit (l : TagLease) (hl : lease t tag st = some l) (hfresh : fresh now l t.tagTTL = true) :
      Course f t tag now st (.ok ⟨l.digest, true, false, false, false, 0⟩) st
  | remembered (e : NegativeEntry) (he : negative t tag st = some e)
      (hfresh : negativeFresh now e t.negativeTTL = true) :
      Course f t tag now st (.error (.remembered t.upstream tag)) st
  | failed (err : UpstreamError) (st₁ st' : FillState)
      (result : Except UpstreamError TagResolution) (hcache : st₁.cache = st.cache)
      (hfailed : Failed f t now err st st₁)
      (heq : f.resolveFailed t tag now (lease t tag st) err st₁ = (result, st')) :
      Course f t tag now st result st'
  | confirmed (l l' : TagLease) (resolution : Resolution) (st₁ : FillState)
      (hl : lease t tag st = some l) (hst : Answered t tag now resolution st st₁)
      (hres : resolution.digest = l.digest) (hdigest : l'.digest = l.digest)
      (hkey : (l'.repository, l'.tag) = (l.repository, l.tag)) (hfetchedAt : l'.fetchedAt = now) :
      Course f t tag now st (.ok ⟨l.digest, false, true, false, false, 0⟩) (f.writeLease l' st₁)
  | supplied (resolution : Resolution) (r : Readings) (st₁ st' : FillState)
      (result : Except UpstreamError TagResolution) (hst : Answered t tag now resolution st st₁)
      (heq : f.supply t tag r now resolution st₁ = (result, st')) :
      Course f t tag now st result st'

variable {f : Filler} {t : Target} {tag : String} {r : Readings} {now : Time}
  {st st₁ st' : FillState} {result : Except UpstreamError TagResolution}

theorem answered_of_cache (t : Target) (tag : String) (absent : Option NegativeEntry)
    (hcc : st₁.cache = st.cache) (hlk : st₁.lookups = st.lookups ++ [(now, .ok resolution)]) :
    Answered t tag now resolution st (if absent.isSome then dropNegative t tag st₁ else st₁) := by
  have hls := lease_congr t tag (congrArg Cached.leases hcc)
  have hneg := negative_congr t tag (congrArg Cached.negatives hcc)
  split_ifs
  · unfold dropNegative Cached.deleteNegativeEntry
    cases hfn : st₁.cache.negatives.lookup (t.repository, tag) with
    | none => exact ⟨hls, .inr hneg, hlk⟩
    | some e =>
      refine ⟨hls, .inl ?_, hlk⟩
      rw [negative_eq]
      exact (Table.lookup_erase _ _).trans (if_pos rfl)
  · exact ⟨hls, .inr hneg, hlk⟩

theorem resolveTag_course (h : f.resolveTag t tag r st = (result, st')) :
    Course f t tag r.resolve st result st' := by
  unfold resolveTag at h
  dsimp only at h
  split at h
  · rename_i l hfl
    obtain ⟨hl, hfr⟩ := Option.filter_eq_some_iff.mp hfl
    cases h
    exact .hit l hl hfr
  · rename_i e _ hfl
    obtain ⟨he, hfr⟩ := Option.filter_eq_some_iff.mp hfl
    cases h
    exact .remembered e he hfr
  · split at h
    · rename_i err hrd
      exact .failed err st st' result rfl (.inl ⟨hrd, rfl⟩) h
    · generalize han : t.client.resolveTag t.upstream tag _ = answer at h
      obtain ⟨st₁, hst₁⟩ : ∃ st₁, st₁ = f.called t r r.resolve (failure answer)
        { st with lookups := st.lookups ++ [(r.resolve, answer)] } := ⟨_, rfl⟩
      have hcc : st₁.cache = st.cache := by rw [hst₁, called]
      have hlk : st₁.lookups = st.lookups ++ [(r.resolve, answer)] := by rw [hst₁, called]
      rw [← hst₁] at h
      cases answer with
      | error err => exact .failed err st₁ st' result hcc (.inr hlk) h
      | ok resolution =>
        have hst := answered_of_cache t tag (negative t tag st) hcc hlk
        dsimp only [resolved] at h
        split at h
        · rename_i l hl hch
          cases h
          have hdg := t.client.unchanged _ _ _ _ han hch
          rw [hl] at hdg
          exact .confirmed l _ resolution _ hl hst hdg rfl rfl rfl
        · exact .supplied resolution r _ st' result hst h

theorem resolve_course (h : f.resolve t tag r st = (result, st')) :
    Course f t tag r.resolve st result st' := by
  unfold resolve at h
  split at h
  · rename_i err hvl
    cases h
    refine .refused err ?_
    unfold Target.validate at hvl
    split_ifs at hvl <;> cases hvl <;> rfl
  · split_ifs at h
    · cases h
      exact .refused _ rfl
    · exact resolveTag_course h

/-! ## What is left alone -/

theorem writeLease_spec (f : Filler) (t : Target) (tag : String)
    (hkey : (l.repository, l.tag) = (t.repository, tag)) (st : FillState) :
    (∀ l', lease t tag (f.writeLease l st) = some l' → lease t tag st = some l' ∨
      (l' = l ∧ l.digest ≠ "" ∧ st.cache.requireProxyEntity f.quote t.repository = .ok ())) ∧
    negative t tag (f.writeLease l st) = negative t tag st ∧
    (f.writeLease l st).cache.manifests = st.cache.manifests ∧
    (f.writeLease l st).lookups = st.lookups := by
  have hrp : l.repository = t.repository := congrArg Prod.fst hkey
  unfold writeLease
  split
  · rename_i cache hput
    obtain ⟨hpr, hdg, rfl⟩ := Cached.putTagLease_eq_ok hput
    refine ⟨fun l' hl' => .inr ?_, rfl, rfl, rfl⟩
    have hins : (st.cache.leases.insert l).lookup (t.repository, tag) = some l := by
      rw [Table.lookup_insert, if_pos hkey.symm]
    rw [lease_eq] at hl'
    exact ⟨Option.some.inj (hl'.symm.trans hins), hdg, hrp ▸ hpr⟩
  · exact ⟨fun l' hl' => .inl hl', rfl, rfl, rfl⟩

theorem key_of_lease (h : lease t tag st = some l) :
    (l.repository, l.tag) = (t.repository, tag) := by
  rw [lease_eq] at h
  exact st.cache.leases.keyed _ _ h

theorem dropLease_eq (t : Target) (tag : String) (st : FillState) :
    lease t tag (dropLease t tag st) = none ∧
      negative t tag (dropLease t tag st) = negative t tag st ∧
      (dropLease t tag st).lookups = st.lookups := by
  unfold dropLease Cached.deleteTagLease
  cases hfn : st.cache.leases.lookup (t.repository, tag) with
  | none => exact ⟨(lease_eq t tag st).trans hfn, rfl, rfl⟩
  | some l =>
    refine ⟨?_, rfl, rfl⟩
    rw [lease_eq]
    exact (Table.lookup_erase _ _).trans (if_pos rfl)

theorem recordNegative_cases (f : Filler) (t : Target) (tag : String) (now : Time)
    (st : FillState) :
    f.recordNegative t tag now st = { st with cache := { st.cache with
      negatives := st.cache.negatives.insert ⟨t.repository, tag, now, t.negativeTTL⟩ } } ∨
    f.recordNegative t tag now st = st := by
  unfold recordNegative
  split_ifs
  · exact .inr rfl
  · split
    · rename_i cache hput
      rw [(Cached.putNegativeEntry_eq_ok hput).2]
      exact .inl rfl
    · exact .inr rfl

/-! ## One call -/

/-- What one call of `ResolveTag` may do, in a run that took it from `st` to `st'`. -/
structure LeaseStep (f : Filler) (t : Target) (tag : String) (now : Time) (st : FillState)
    (result : Except UpstreamError TagResolution) (st' : FillState) : Prop where
  /-- The time changes only to that of a call in which the upstream confirmed or supplied the
  mapping. -/
  fetchedAt : ∀ l', lease t tag st' = some l' →
    (∃ l, lease t tag st = some l ∧ l'.fetchedAt = l.fetchedAt) ∨
    (l'.fetchedAt = now ∧ ∃ resolution, st'.lookups = st.lookups ++ [(now, .ok resolution)] ∧
      l'.digest = resolution.digest)
  /-- The digest changes only to what the upstream resolved in the call, once that is cached. -/
  digest : ∀ l', lease t tag st' = some l' →
    (∃ l, lease t tag st = some l ∧ l'.digest = l.digest) ∨
    ∃ resolution, st'.lookups = st.lookups ++ [(now, .ok resolution)] ∧
      l'.digest = resolution.digest ∧
      (st'.cache.manifests.lookup (t.repository, l'.digest)).isSome
  /-- A hit is the lease within the current time to live. -/
  hit : ∀ res, result = .ok res → res.hit = true →
    ∃ l, lease t tag st = some l ∧ res.digest = l.digest ∧
      0 < t.tagTTL ∧ now - l.fetchedAt < t.tagTTL
  /-- A stale answer is the lease held through an outage. -/
  stale : ∀ res, result = .ok res → res.stale = true →
    t.offline ≠ .strict ∧ (∃ l, lease t tag st = some l ∧ res.digest = l.digest) ∧
    ∃ err, Failed f t now err st st' ∧
      (err.is .rateLimited = true ∨ err.is .upstreamUnavailable = true)
  /-- A not-found leaves no lease. -/
  notFound : ∀ err, st'.lookups = st.lookups ++ [(now, .error err)] → err.is .notFound = true →
    lease t tag st' = none
  /-- A not-found without a lookup is one that was recorded within the current time to live. -/
  remembered : ∀ err, result = .error err → err.is .notFound = true → st'.lookups = st.lookups →
    ∃ e err', negative t tag st = some e ∧ (e.observedAt, .error err') ∈ st.lookups ∧
      err'.is .notFound = true ∧ 0 < t.negativeTTL ∧ now - e.observedAt < t.negativeTTL

/-- Every absence on record was answered by the upstream, at the time recorded. -/
def Recorded (t : Target) (tag : String) (st : FillState) : Prop :=
  ∀ e, negative t tag st = some e →
    ∃ err, (e.observedAt, .error err) ∈ st.lookups ∧ err.is .notFound = true

theorem LeaseStep.of_same (hhit : ∀ res, result = .ok res → res.stale = false ∧
      ∃ l, lease t tag st = some l ∧ res.digest = l.digest ∧ fresh now l t.tagTTL = true)
    (hrem : ∀ err, result = .error err → err.is .notFound = true →
      ∃ e, negative t tag st = some e ∧ negativeFresh now e t.negativeTTL = true)
    (hrec : Recorded t tag st) : LeaseStep f t tag now st result st where
  fetchedAt l' hl' := .inl ⟨l', hl', rfl⟩
  digest l' hl' := .inl ⟨l', hl', rfl⟩
  hit res hres _ := by
    obtain ⟨_, l, hl, hdg, hfr⟩ := hhit res hres
    exact ⟨l, hl, hdg, fresh_iff.mp hfr⟩
  stale res hres hst := by
    rw [(hhit res hres).1] at hst
    cases hst
  notFound err h := by simp at h
  remembered err herr hnot _ := by
    obtain ⟨e, he, hfr⟩ := hrem err herr hnot
    obtain ⟨err', hmem, hnot'⟩ := hrec e he
    exact ⟨e, err', he, hmem, hnot', negativeFresh_iff.mp hfr⟩

theorem Failed.is_notFound (h : Failed f t now err st st₁) (hnot : err.is .notFound = true) :
    st₁.lookups = st.lookups ++ [(now, .error err)] := by
  rcases h with ⟨hrd, _⟩ | h
  · rw [(is_of_upstreamReady_eq_error hrd).2] at hnot
    cases hnot
  · exact h

theorem resolveFailed_notFound (hnot : err.is .notFound = true)
    (h : f.resolveFailed t tag now (lease t tag st) err st = (result, st')) :
    result = .error err ∧ lease t tag st' = none ∧ st'.lookups = st.lookups ∧
      (negative t tag st' = some ⟨t.repository, tag, now, t.negativeTTL⟩ ∨
        negative t tag st' = negative t tag st) := by
  unfold resolveFailed at h
  rw [if_pos hnot] at h
  obtain ⟨rfl, rfl⟩ := Prod.mk.inj h
  obtain ⟨st₁, hst₁⟩ : ∃ st₁, st₁ = if (lease t tag st).isSome then dropLease t tag st else st :=
    ⟨_, rfl⟩
  obtain ⟨hls, hneg, hlk⟩ : lease t tag st₁ = none ∧
      negative t tag st₁ = negative t tag st ∧ st₁.lookups = st.lookups := by
    rw [hst₁]
    split_ifs with hhl
    · exact dropLease_eq t tag st
    · exact ⟨Option.not_isSome_iff_eq_none.mp hhl, rfl, rfl⟩
  refine ⟨rfl, ?_⟩
  rw [← hst₁]
  rcases recordNegative_cases f t tag now st₁ with heq | heq
  · rw [heq]
    refine ⟨hls, hlk, .inl ?_⟩
    rw [negative_eq]
    exact (Table.lookup_insert _ _).trans (if_pos rfl)
  · rw [heq]
    exact ⟨hls, hlk, .inr hneg⟩

theorem resolveFailed_outage (hnot : err.is .notFound = false)
    (h : f.resolveFailed t tag now (lease t tag st) err st = (result, st')) :
    (∀ l', lease t tag st' = some l' → ∃ l, lease t tag st = some l ∧
      l'.fetchedAt = l.fetchedAt ∧ l'.digest = l.digest) ∧
    negative t tag st' = negative t tag st ∧ st'.lookups = st.lookups ∧
    (result = .error err ∨ ∃ l staleFor, lease t tag st = some l ∧
      result = .ok ⟨l.digest, false, false, false, true, staleFor⟩ ∧ t.offline ≠ .strict ∧
      (err.is .rateLimited = true ∨ err.is .upstreamUnavailable = true)) := by
  unfold resolveFailed at h
  rw [if_neg (by simp [hnot])] at h
  split at h
  · rename_i cause l hcl hl hmd
    obtain ⟨hrs, rfl⟩ := Prod.mk.inj h
    have hout : (classify err).isSome := by simp [hcl]
    have han : result = .error err ∨ ∃ l staleFor, lease t tag st = some l ∧
        result = .ok ⟨l.digest, false, false, false, true, staleFor⟩ ∧ t.offline ≠ .strict ∧
        (err.is .rateLimited = true ∨ err.is .upstreamUnavailable = true) :=
      .inr ⟨l, _, hl, hrs.symm, by simp [hmd], (isSome_classify err).mp hout⟩
    have hkey := key_of_lease hl
    obtain ⟨hls, hneg, -, hlk⟩ :=
      writeLease_spec f t tag (l := { l with stale := true }) hkey st
    split_ifs
    · exact ⟨fun l' hl' => ⟨l', hl', rfl, rfl⟩, rfl, rfl, han⟩
    · refine ⟨fun l' hl' => ?_, hneg, hlk, han⟩
      rcases hls l' hl' with hsm | ⟨rfl, -, -⟩
      · exact ⟨l', hsm, rfl, rfl⟩
      · exact ⟨l, hl, rfl, rfl⟩
  · obtain ⟨rfl, rfl⟩ := Prod.mk.inj h
    exact ⟨fun l' hl' => ⟨l', hl', rfl, rfl⟩, rfl, rfl, .inl rfl⟩

theorem LeaseStep.of_failed (hcc : st₁.cache = st.cache) (hfl : Failed f t now err st st₁)
    (h : f.resolveFailed t tag now (lease t tag st) err st₁ = (result, st')) :
    LeaseStep f t tag now st result st' := by
  have hls := lease_congr t tag (congrArg Cached.leases hcc)
  rw [← hls] at h
  cases hnot : err.is .notFound with
  | true =>
    obtain ⟨rfl, hnn, hlk, -⟩ := resolveFailed_notFound hnot h
    rw [hfl.is_notFound hnot] at hlk
    exact {
      fetchedAt := fun l' hl' => by simp [hnn] at hl'
      digest := fun l' hl' => by simp [hnn] at hl'
      hit := fun res hres => by cases hres
      stale := fun res hres => by cases hres
      notFound := fun _ _ _ => hnn
      remembered := fun _ _ _ hsm => by simp [hlk] at hsm }
  | false =>
    obtain ⟨hkp, -, hlk, hrs⟩ := resolveFailed_outage hnot h
    rw [hls] at hkp hrs
    have hfl' : Failed f t now err st st' := by rwa [Failed, hlk]
    exact {
      fetchedAt := fun l' hl' => by
        obtain ⟨l, hl, hft, -⟩ := hkp l' hl'
        exact .inl ⟨l, hl, hft⟩
      digest := fun l' hl' => by
        obtain ⟨l, hl, -, hdg⟩ := hkp l' hl'
        exact .inl ⟨l, hl, hdg⟩
      hit := fun res hres hhit => by
        rcases hrs with rfl | ⟨l, staleFor, -, rfl, -⟩
        · cases hres
        · cases hres
          cases hhit
      stale := fun res hres _ => by
        rcases hrs with rfl | ⟨l, staleFor, hl, rfl, hmd, hout⟩
        · cases hres
        · cases hres
          exact ⟨hmd, ⟨l, hl, rfl⟩, err, hfl', hout⟩
      notFound := fun err' hlo hnot' => by
        rcases hfl' with ⟨-, hsm⟩ | hlo'
        · simp [hsm] at hlo
        · have hsm : err = err' := by simpa using hlo'.symm.trans hlo
          rw [← hsm, hnot] at hnot'
          cases hnot'
      remembered := fun err' herr hnot' _ => by
        rcases hrs with rfl | ⟨l, staleFor, -, rfl, -⟩
        · cases herr
          simp [hnot] at hnot'
        · cases herr }

theorem LeaseStep.of_answered (hlk : st'.lookups = st.lookups ++ [(now, .ok resolution)])
    (hrs : ∀ res, result = .ok res → res.hit = false ∧ res.stale = false)
    (hls : ∀ l', lease t tag st' = some l' → lease t tag st = some l' ∨
      (l'.fetchedAt = now ∧ l'.digest = resolution.digest ∧
        ((∃ l, lease t tag st = some l ∧ l'.digest = l.digest) ∨
          (st'.cache.manifests.lookup (t.repository, l'.digest)).isSome))) :
    LeaseStep f t tag now st result st' where
  fetchedAt l' hl' := by
    rcases hls l' hl' with hsm | ⟨hnow, hdg, -⟩
    · exact .inl ⟨l', hsm, rfl⟩
    · exact .inr ⟨hnow, resolution, hlk, hdg⟩
  digest l' hl' := by
    rcases hls l' hl' with hsm | ⟨-, hdg, hhl | hcc⟩
    · exact .inl ⟨l', hsm, rfl⟩
    · exact .inl hhl
    · exact .inr ⟨resolution, hlk, hdg, hcc⟩
  hit res hres hhit := by
    rw [(hrs res hres).1] at hhit
    cases hhit
  stale res hres hst := by
    rw [(hrs res hres).2] at hst
    cases hst
  notFound err hlo := by
    rw [hlk] at hlo
    simp at hlo
  remembered err _ _ hsm := by simp [hlk] at hsm

theorem cacheResolved_frame {m : Except UpstreamError ManifestResult}
    (h : f.cacheResolved t r resolution st = (m, st')) :
    Frame st st' ∧ ∀ m', m = .ok m' → Kept f t resolution.digest st' := by
  unfold cacheResolved at h
  split_ifs at h
  · exact manifest_frame h
  · exact storeManifest_frame h

theorem supply_spec (h : f.supply t tag r now resolution st = (result, st')) :
    (∀ l', lease t tag st' = some l' → lease t tag st = some l' ∨
      (l'.fetchedAt = now ∧ l'.digest = resolution.digest ∧
        (st'.cache.manifests.lookup (t.repository, l'.digest)).isSome)) ∧
    negative t tag st' = negative t tag st ∧ st'.lookups = st.lookups ∧
    ∀ res, result = .ok res → res.hit = false ∧ res.stale = false := by
  unfold supply at h
  split at h
  · rename_i err st₁ hcc
    obtain ⟨hfr, -⟩ := cacheResolved_frame hcc
    cases h
    refine ⟨fun l' hl' => .inl ?_, negative_congr t tag hfr.negatives, hfr.lookups, by simp⟩
    rwa [← lease_congr t tag hfr.leases]
  · rename_i m st₁ hcc
    obtain ⟨hfr, hkp⟩ := cacheResolved_frame hcc
    cases h
    obtain ⟨hls, hneg, hmn, hlk⟩ := writeLease_spec f t tag
      (l := t.supplied tag resolution now) rfl st₁
    refine ⟨fun l' hl' => ?_, hneg.trans (negative_congr t tag hfr.negatives),
      hlk.trans hfr.lookups, by simp⟩
    rcases hls l' hl' with hsm | ⟨rfl, hdg, hpr⟩
    · exact .inl ((lease_congr t tag hfr.leases).symm.trans hsm)
    · refine .inr ⟨rfl, rfl, ?_⟩
      rw [hmn]
      -- a lease the store takes is one whose manifest it took
      rcases hkp m rfl with hch | hem | ⟨err, herr⟩
      · exact hch
      · exact absurd hem hdg
      · rw [herr] at hpr
        cases hpr

theorem leaseStep_of_course (h : Course f t tag now st result st') (hrec : Recorded t tag st) :
    LeaseStep f t tag now st result st' := by
  cases h with
  | refused err herr =>
    refine .of_same (by simp) (fun err' heq hnot => ?_) hrec
    cases heq
    simp [herr] at hnot
  | hit l hl hfr =>
    refine .of_same (fun res hres => ?_) (by simp) hrec
    cases hres
    exact ⟨rfl, l, hl, rfl, hfr⟩
  | remembered e he hfr => exact .of_same (by simp) (fun _ _ _ => ⟨e, he, hfr⟩) hrec
  | failed err st₁ _ _ hcc hfl heq => exact .of_failed hcc hfl heq
  | confirmed l l' resolution st₁ hl hst hres hdg hkey hft =>
    obtain ⟨hls, -, -, hlk⟩ := writeLease_spec f t tag (hkey.trans (key_of_lease hl)) st₁
    refine .of_answered (hlk.trans hst.lookups) (by simp) fun m hm => ?_
    rcases hls m hm with hsm | ⟨rfl, -, -⟩
    · exact .inl (hst.lease ▸ hsm)
    · exact .inr ⟨hft, hdg.trans hres.symm, .inl ⟨l, hl, hdg⟩⟩
  | supplied resolution r st₁ _ _ hst heq =>
    obtain ⟨hls, -, hlk, hrs⟩ := supply_spec heq
    refine .of_answered (hlk.trans hst.lookups) hrs fun l' hl' => ?_
    rcases hls l' hl' with hsm | ⟨hnow, hdg, hch⟩
    · exact .inl (hst.lease ▸ hsm)
    · exact .inr ⟨hnow, hdg, .inr hch⟩

/-! ## A run -/

theorem Recorded.of_negative (hrec : Recorded t tag st) (hsub : st.lookups ⊆ st'.lookups)
    (hneg : negative t tag st' = none ∨ negative t tag st' = negative t tag st) :
    Recorded t tag st' := by
  intro e he
  rcases hneg with hnn | hsm
  · simp [hnn] at he
  · obtain ⟨err, hmem, hnot⟩ := hrec e (hsm ▸ he)
    exact ⟨err, hsub hmem, hnot⟩

theorem Failed.subset (h : Failed f t now err st st₁) : st.lookups ⊆ st₁.lookups := by
  rcases h with ⟨-, hsm⟩ | hlk
  · rw [hsm]
    exact List.Subset.refl _
  · rw [hlk]
    exact List.subset_append_left _ _

theorem Recorded.of_failed (hrec : Recorded t tag st) (hcc : st₁.cache = st.cache)
    (hfl : Failed f t now err st st₁)
    (h : f.resolveFailed t tag now (lease t tag st) err st₁ = (result, st')) :
    Recorded t tag st' := by
  have hneg₁ := negative_congr t tag (congrArg Cached.negatives hcc)
  rw [← lease_congr t tag (congrArg Cached.leases hcc)] at h
  cases hnot : err.is .notFound with
  | true =>
    obtain ⟨-, -, hlk, hnew | hsm⟩ := resolveFailed_notFound hnot h
    · intro e he
      rw [hnew] at he
      cases he
      refine ⟨err, ?_, hnot⟩
      simp [hlk, hfl.is_notFound hnot]
    · exact hrec.of_negative (hlk ▸ hfl.subset) (.inr (hsm.trans hneg₁))
  | false =>
    obtain ⟨-, hneg, hlk, -⟩ := resolveFailed_outage hnot h
    exact hrec.of_negative (hlk ▸ hfl.subset) (.inr (hneg.trans hneg₁))

theorem recorded_of_course (h : Course f t tag now st result st') (hrec : Recorded t tag st) :
    Recorded t tag st' := by
  cases h with
  | refused _ _ | hit _ _ _ | remembered _ _ _ => exact hrec
  | failed err st₁ _ _ hcc hfl heq => exact hrec.of_failed hcc hfl heq
  | confirmed l l' resolution st₁ hl hst _ _ hkey _ =>
    obtain ⟨-, hneg, -, hlk⟩ := writeLease_spec f t tag (hkey.trans (key_of_lease hl)) st₁
    exact hrec.of_negative (by simp [hlk, hst.lookups]) (hneg ▸ hst.negative)
  | supplied resolution r st₁ _ _ hst heq =>
    obtain ⟨-, hneg, hlk, -⟩ := supply_spec heq
    exact hrec.of_negative (by simp [hlk, hst.lookups]) (hneg ▸ hst.negative)

end Filler

/-- One call of `ResolveTag` on the tag: the upstream, the times to live and the mode as they are
configured then, and the clock. -/
structure ResolveCall where
  (upstream remote : String)
  client : Client
  (tagTTL negativeTTL : ℤ)
  offline : OfflineMode
  readings : Readings

namespace ResolveCall

def target (repository : String) (c : ResolveCall) : Target :=
  ⟨repository, c.upstream, c.remote, c.client, c.tagTTL, c.negativeTTL, c.offline⟩

def resolve (f : Filler) (repository tag : String) (st : FillState) (c : ResolveCall) :
    Except UpstreamError TagResolution × FillState :=
  f.resolve (c.target repository) tag c.readings st

def run (f : Filler) (repository tag : String) (st : FillState) (calls : List ResolveCall) :
    FillState :=
  calls.foldl (fun st c => (c.resolve f repository tag st).2) st

end ResolveCall

open Filler ResolveCall

/-- Whether an absence is recorded does not depend on how the call is configured. -/
theorem recorded_run {f : Filler} {repository tag : String} {st : FillState}
    (calls : List ResolveCall) (h : ∀ c : ResolveCall, Recorded (c.target repository) tag st) :
    ∀ c : ResolveCall, Recorded (c.target repository) tag (run f repository tag st calls) := by
  induction calls generalizing st with
  | nil => exact h
  | cons c calls ih =>
    refine ih fun c' => ?_
    exact recorded_of_course (t := c.target repository) (resolve_course rfl) (h c)

/-- **Lease machine.** From a state in which no absence of the tag is on record, and after any
calls on it, one at a time, the next call moves the lease and answers as `LeaseStep` has it. -/
theorem leaseStep_of_run (f : Filler) (repository tag : String) (st₀ : FillState)
    (hstart : st₀.cache.negatives.lookup (repository, tag) = none)
    (calls : List ResolveCall) (c : ResolveCall) :
    let st := run f repository tag st₀ calls
    LeaseStep f (c.target repository) tag c.readings.resolve st
      (c.resolve f repository tag st).1 (c.resolve f repository tag st).2 := by
  intro st
  have hrec : ∀ c : ResolveCall, Recorded (c.target repository) tag st := by
    refine recorded_run calls fun c e he => ?_
    rw [negative_eq] at he
    exact absurd (hstart.symm.trans he) (by simp)
  exact leaseStep_of_course (resolve_course rfl) (hrec c)

def mirrorFiller : Filler where
  backoff := newBackoff 0 0
  parse _ _ := .ok ⟨"", "", none, none, [], []⟩
  parse_refs := by simp [cachedRefs]
  rfc3339 _ := ""
  quote := id

def mirrorState : FillState where
  cache := ⟨Table.empty.insert ⟨"mirror", .proxy, [], 1, 0, 0⟩, .empty, ∅, .empty, .empty⟩
  standing := ∅
  events := []
  calls := 0
  lookups := []

def mirrorCall (answer : Except UpstreamError Resolution)
    (h : ∀ res, answer = .ok res → res.changed = true) (now : Time) : ResolveCall where
  upstream := "library/nginx"
  remote := "dockerhub"
  client := {
    resolveTag := fun _ _ _ => answer
    fetchManifest := fun _ _ => .error .digestMismatch
    unchanged := fun _ _ _ res hres hsame => by simp [h res hres] at hsame }
  tagTTL := 10
  negativeTTL := 5
  offline := .serveStale
  readings := ⟨now, now, now, fun _ d => d⟩

/-- A mapping supplied at 0 is served stale when the upstream throttles at 60. -/
theorem leaseStep_of_run_stale :
    let st := run mirrorFiller "mirror/nginx" "latest" mirrorState
      [mirrorCall (.ok ⟨true, "sha256:0", "", "", [0]⟩) (by simp) 0]
    let c := mirrorCall (.error (.rateLimited 0 false "")) (by simp) 60
    ∃ res, (c.resolve mirrorFiller "mirror/nginx" "latest" st).1 = .ok res ∧ res.stale = true ∧
      ∃ l, lease (c.target "mirror/nginx") "latest" st = some l ∧ res.digest = l.digest := by
  intro st c
  have hres : (c.resolve mirrorFiller "mirror/nginx" "latest" st).1 =
      .ok ⟨"sha256:0", false, false, false, true, 50⟩ := by
    decide +kernel
  obtain ⟨-, hhl, -⟩ := (leaseStep_of_run mirrorFiller "mirror/nginx" "latest" mirrorState rfl
    [mirrorCall (.ok ⟨true, "sha256:0", "", "", [0]⟩) (by simp) 0] c).stale _ hres rfl
  exact ⟨_, hres, rfl, hhl⟩

end Trove.Proxy
