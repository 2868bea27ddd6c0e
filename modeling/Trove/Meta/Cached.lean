import Trove.Meta.Store

/-!
# The in-memory metadata store: cached content

What a proxy keeps of its upstream: manifests by digest, the leases of tags, and the names the
upstream did not have. Rows are written only under an entity that is a proxy.
-/

namespace Trove.Meta

open Lib

/-- A manifest the cache holds for a proxy. -/
structure CachedManifest where
  repository : String
  digest : Digest
  (mediaType artifactType : String)
  subject : Digest
  payload : List UInt8
  size : ℤ
  (cachedAt lastAccessAt : Time)

/-- A blob the cache holds for a proxy. -/
structure CachedBlob where
  repository : String
  digest : Digest
  size : ℤ
  (cachedAt lastAccessAt : Time)
  deriving DecidableEq

/-- What a tag resolved to, and when that was confirmed. -/
structure TagLease where
  (repository tag : String)
  digest : Digest
  etag : String
  fetchedAt : Time
  ttl : ℤ
  stale : Bool

/-- A name the upstream did not have. -/
structure NegativeEntry where
  (repository reference : String)
  observedAt : Time
  ttl : ℤ

/-- The proxies' side of the store. -/
structure Cached where
  repos : Table Repository.name
  manifests : Table fun m : CachedManifest => (m.repository, m.digest)
  refs : GoMap (String × Digest) (List ManifestRef)
  leases : Table fun l : TagLease => (l.repository, l.tag)
  negatives : Table fun e : NegativeEntry => (e.repository, e.reference)

def RepositoryType.text : RepositoryType → String
  | .hosted => "hosted"
  | .proxy => "proxy"
  | .group => "group"

namespace Cached

variable (quote : String → String) (s : Cached)

/-- The content name's entity is a proxy. -/
def requireProxyEntity (name : String) : Except Error Unit :=
  match s.repos.lookup (entityOf name) with
  | none => .error (.notFound "repository" (entityOf name))
  | some repo =>
    if repo.type = .proxy then .ok ()
    else .error (.invalid "repository"
      ("repository " ++ quote (entityOf name) ++ " is a " ++ repo.type.text ++ ", not a proxy"))

/-! ## Manifests -/

/-- A manifest and its edges. -/
def putCachedManifest (m : CachedManifest) (refs : List ManifestRef) : Except Error Cached :=
  match s.requireProxyEntity quote m.repository with
  | .error err => .error err
  | .ok () =>
    if m.digest = "" then .error (.invalid "digest" "must not be empty")
    else if refs.any fun r => r.child = "" then
      .error (.invalid "refs" "reference digest must not be empty")
    else
      .ok { s with
        manifests := s.manifests.insert m
        refs := s.refs.insert (m.repository, m.digest) refs }

variable {s' : Cached} {repo : String}

variable {quote s} in
theorem putCachedManifest_eq_ok {m : CachedManifest} {refs : List ManifestRef}
    (h : s.putCachedManifest quote m refs = .ok s') :
    s.requireProxyEntity quote m.repository = .ok () ∧
      s' = { s with
        manifests := s.manifests.insert m
        refs := s.refs.insert (m.repository, m.digest) refs } := by
  unfold putCachedManifest at h
  split at h
  · cases h
  · rename_i hpr
    split_ifs at h
    cases h
    exact ⟨hpr, rfl⟩

/-- The cached row, or not found. -/
def getCachedManifest (repo : String) (digest : Digest) : Except Error CachedManifest :=
  match s.manifests.lookup (repo, digest) with
  | some m => .ok m
  | none => .error (.notFound "cached manifest" digest)

/-! ## Leases -/

/-- In place of the one for the tag. -/
def putTagLease (lease : TagLease) : Except Error Cached :=
  match s.requireProxyEntity quote lease.repository with
  | .error err => .error err
  | .ok () =>
    if lease.tag = "" then .error (.invalid "tag" "must not be empty")
    else if lease.digest = "" then .error (.invalid "digest" "must not be empty")
    else .ok { s with leases := s.leases.insert lease }

variable {quote s} in
theorem putTagLease_eq_ok {lease : TagLease} (h : s.putTagLease quote lease = .ok s') :
    s.requireProxyEntity quote lease.repository = .ok () ∧ lease.digest ≠ "" ∧
      s' = { s with leases := s.leases.insert lease } := by
  unfold putTagLease at h
  split at h
  · cases h
  · rename_i hpr
    split_ifs at h with htag hdg
    cases h
    exact ⟨hpr, hdg, rfl⟩

def getTagLease (repo tag : String) : Except Error TagLease :=
  match s.leases.lookup (repo, tag) with
  | some lease => .ok lease
  | none => .error (.notFound "tag lease" tag)

/-- An absent one is an error. -/
def deleteTagLease (repo tag : String) : Except Error Cached :=
  match s.leases.lookup (repo, tag) with
  | none => .error (.notFound "tag lease" tag)
  | some _ => .ok { s with leases := s.leases.erase (repo, tag) }

variable {s} in
theorem deleteTagLease_eq_ok {tag : String} (h : s.deleteTagLease repo tag = .ok s') :
    s' = { s with leases := s.leases.erase (repo, tag) } := by
  unfold deleteTagLease at h
  split at h
  · cases h
  · cases h
    rfl

/-! ## Absences -/

/-- In place of the one for the name. -/
def putNegativeEntry (entry : NegativeEntry) : Except Error Cached :=
  match s.requireProxyEntity quote entry.repository with
  | .error err => .error err
  | .ok () =>
    if entry.reference = "" then .error (.invalid "reference" "must not be empty")
    else .ok { s with negatives := s.negatives.insert entry }

variable {quote s} in
theorem putNegativeEntry_eq_ok {entry : NegativeEntry}
    (h : s.putNegativeEntry quote entry = .ok s') :
    s.requireProxyEntity quote entry.repository = .ok () ∧
      s' = { s with negatives := s.negatives.insert entry } := by
  unfold putNegativeEntry at h
  split at h
  · cases h
  · rename_i hpr
    split_ifs at h
    cases h
    exact ⟨hpr, rfl⟩

def getNegativeEntry (repo reference : String) : Except Error NegativeEntry :=
  match s.negatives.lookup (repo, reference) with
  | some entry => .ok entry
  | none => .error (.notFound "negative cache entry" reference)

/-- An absent one is an error. -/
def deleteNegativeEntry (repo reference : String) : Except Error Cached :=
  match s.negatives.lookup (repo, reference) with
  | none => .error (.notFound "negative cache entry" reference)
  | some _ => .ok { s with negatives := s.negatives.erase (repo, reference) }

variable {s} in
theorem deleteNegativeEntry_eq_ok {reference : String}
    (h : s.deleteNegativeEntry repo reference = .ok s') :
    s' = { s with negatives := s.negatives.erase (repo, reference) } := by
  unfold deleteNegativeEntry at h
  split at h
  · cases h
  · cases h
    rfl

end Cached

end Trove.Meta
