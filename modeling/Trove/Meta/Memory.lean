import Trove.Lib.Except
import Trove.Meta.Cached
import Trove.Meta.Repositories

/-!
# The in-memory metadata store: repositories with their content

The hosted and the cached half over one table of repositories, with the members of a group, the
history of a configuration and a proxy's credential. Deleting a repository takes everything stored
under its name.
-/

namespace Trove.Meta

open Lib

/-- A member of a group, with its position. -/
structure GroupMember where
  repository : String
  position : ℤ
  (required writeTarget : Bool)

/-- A proxy's sealed upstream credential. -/
structure ProxyCredential where
  (repository sealedValue : String)
  rotatedAt : Time

inductive CachedKind
  | manifest
  | blob
  | unknown (text : String)
  deriving DecidableEq

/-- A cached row was read. -/
structure CacheAccess where
  repository : String
  digest : Digest
  kind : CachedKind
  at_ : Time

def CacheAccess.refused (quote : String → String) (access : CacheAccess) : Option Error :=
  match access.kind with
  | .unknown text => some (.invalid "kind" ("unknown cached kind " ++ quote text))
  | _ => if access.digest = "" then some (.invalid "digest" "must not be empty") else none

/-- The store. The members of a name that has none and of one that has an empty list answer
alike. -/
structure Memory where
  hosted : Store
  members : String → List GroupMember
  configHistory : GoMap String (List ConfigRevision)
  proxyCredentials : Table ProxyCredential.repository
  cachedManifests : Table fun m : CachedManifest => (m.repository, m.digest)
  cachedRefs : GoMap (String × Digest) (List ManifestRef)
  cachedBlobs : Table fun b : CachedBlob => (b.repository, b.digest)
  tagLeases : Table fun l : TagLease => (l.repository, l.tag)
  negativeCache : Table fun e : NegativeEntry => (e.repository, e.reference)

/-- The content name is the entity itself, or one beneath it. -/
def belongsTo (name entity : String) : Bool :=
  name == entity || Strings.hasPrefix name (entity ++ "/")

/-! ## Hosted calls -/

namespace Store

variable (s : Store)

def deleteTag (repo name : String) : Except Error Store :=
  if (s.tags.lookup (repo, name)).isNone then .error (.notFound "tag" name)
  else .ok { s with tags := s.tags.erase (repo, name) }

def deleteBlob (digest : Digest) : Except Error Store :=
  if (s.blobs.lookup digest).isNone then .error (.notFound "blob" digest)
  else .ok { s with blobs := s.blobs.erase digest }

def updateUpload (id : String) (bytes : ℤ) (now : Time) : Except Error Store :=
  match s.uploads.lookup id with
  | none => .error (.notFound "upload" id)
  | some session =>
    if bytes < 0 then .error (.invalid "bytes" "must not be negative")
    else .ok { s with
      uploads := s.uploads.insert { session with bytes := bytes, lastChunkAt := now } }

end Store

namespace Memory

def empty : Memory where
  hosted := .empty
  members := fun _ => []
  configHistory := ∅
  proxyCredentials := ∅
  cachedManifests := ∅
  cachedRefs := ∅
  cachedBlobs := ∅
  tagLeases := ∅
  negativeCache := ∅

variable (quote : String → String) (s : Memory)

def cached : Cached :=
  ⟨s.hosted.repos, s.cachedManifests, s.cachedRefs, s.tagLeases, s.negativeCache⟩

def withCached (c : Cached) : Memory :=
  { s with
    cachedManifests := c.manifests
    cachedRefs := c.refs
    tagLeases := c.leases
    negativeCache := c.negatives }

def repositories : Repositories := ⟨s.hosted.repos, s.configHistory⟩

def withRepositories (r : Repositories) : Memory :=
  { s with hosted := { s.hosted with repos := r.repos }, configHistory := r.configHistory }

/-! ## Repositories -/

/-- What is left without the entity, what is its own, the content under its name, and its place in
every group. -/
def without (name : String) : Memory where
  hosted := { s.hosted with
    repos := s.hosted.repos.erase name
    manifests := s.hosted.manifests.restrict fun m => !belongsTo m.repository name
    refs := s.hosted.refs.restrict fun key _ => !belongsTo key.1 name
    tags := s.hosted.tags.restrict fun t => !belongsTo t.repository name
    uploads := s.hosted.uploads.restrict fun u => !belongsTo u.repository name }
  members := fun group =>
    if group = name then [] else (s.members group).filter (·.repository ≠ name)
  configHistory := s.configHistory.erase name
  proxyCredentials := s.proxyCredentials.erase name
  cachedManifests := s.cachedManifests.restrict fun m => !belongsTo m.repository name
  cachedRefs := s.cachedRefs.restrict fun key _ => !belongsTo key.1 name
  cachedBlobs := s.cachedBlobs.restrict fun b => !belongsTo b.repository name
  tagLeases := s.tagLeases.restrict fun l => !belongsTo l.repository name
  negativeCache := s.negativeCache.restrict fun e => !belongsTo e.repository name

def deleteRepository (name : String) : Except Error Memory :=
  if (s.hosted.repos.lookup name).isNone then .error (.notFound "repository" name)
  else .ok (s.without name)

/-- The loop of `SetGroupMembers`, given the positions seen; it counts the write targets. -/
def checkMembers (group : String) (seen : List ℤ) : List GroupMember → Except Error ℕ
  | [] => .ok 0
  | m :: members =>
    match s.hosted.repos.lookup m.repository with
    | none => .error (.notFound "repository" m.repository)
    | some repo =>
      if m.repository = group then .error (.invalid "members" "a group cannot contain itself")
      else if repo.type = .group then
        .error (.invalid "members"
          ("member " ++ quote m.repository ++ " is a group; groups do not nest (ADR 0005)"))
      else if m.position ∈ seen then
        .error (.invalid "members" ("duplicate position " ++ toString m.position ++
          ": member order must be unambiguous"))
      else
        match checkMembers group (m.position :: seen) members with
        | .error err => .error err
        | .ok targets => .ok (if m.writeTarget then targets + 1 else targets)

def setGroupMembers (group : String) (members : List GroupMember) : Except Error Memory :=
  match s.hosted.repos.lookup group with
  | none => .error (.notFound "repository" group)
  | some repo =>
    if repo.type ≠ .group then
      .error (.invalid "group"
        ("repository " ++ quote group ++ " is a " ++ repo.type.text ++ ", not a group"))
    else
      match s.checkMembers quote group [] members with
      | .error err => .error err
      | .ok targets =>
        if targets > 1 then
          .error (.invalid "members" "at most one member may be the write target (ADR 0005)")
        else .ok { s with
          members := Function.update s.members group (sortBy GroupMember.position members) }

/-- In resolution order. -/
def listGroupMembers (group : String) : Except Error (List GroupMember) :=
  if (s.hosted.repos.lookup group).isNone then .error (.notFound "repository" group)
  else .ok (s.members group)

/-- Only a proxy has one. -/
def putProxyCredential (cred : ProxyCredential) : Except Error Memory :=
  if cred.sealedValue = "" then .error (.invalid "sealed" "must not be empty")
  else
    match s.hosted.repos.lookup cred.repository with
    | none => .error (.notFound "repository" cred.repository)
    | some owner =>
      if owner.type ≠ .proxy then
        .error (.invalid "repository" ("repository " ++ quote cred.repository ++ " is a " ++
          owner.type.text ++ ", not a proxy: only a proxy authenticates to an upstream"))
      else .ok { s with proxyCredentials := s.proxyCredentials.insert cred }

def deleteProxyCredential (repository : String) : Except Error Memory :=
  if (s.proxyCredentials.lookup repository).isNone then
    .error (.notFound "proxy credential" repository)
  else .ok { s with proxyCredentials := s.proxyCredentials.erase repository }

/-! ## Cached blobs and eviction -/

/-- One proxy's claim on the blob. -/
def putCachedBlob (b : CachedBlob) : Except Error Memory :=
  match s.cached.requireProxyEntity quote b.repository with
  | .error err => .error err
  | .ok () =>
    if b.digest = "" then .error (.invalid "digest" "must not be empty")
    else .ok { s with cachedBlobs := s.cachedBlobs.insert b }

variable {quote s} in
theorem putCachedBlob_eq_ok {b : CachedBlob} {s' : Memory} (h : s.putCachedBlob quote b = .ok s') :
    s.cached.requireProxyEntity quote b.repository = .ok () ∧
      s' = { s with cachedBlobs := s.cachedBlobs.insert b } := by
  unfold putCachedBlob at h
  split at h
  · cases h
  · rename_i hpr
    split_ifs at h
    cases h
    exact ⟨hpr, rfl⟩

def getCachedBlob (repo : String) (digest : Digest) : Except Error CachedBlob :=
  match s.cachedBlobs.lookup (repo, digest) with
  | some b => .ok b
  | none => .error (.notFound "cached blob" digest)

def deleteCachedManifest (repo : String) (digest : Digest) : Except Error Memory :=
  if (s.cachedManifests.lookup (repo, digest)).isNone then
    .error (.notFound "cached manifest" digest)
  else .ok { s with
    cachedManifests := s.cachedManifests.erase (repo, digest)
    cachedRefs := s.cachedRefs.erase (repo, digest) }

/-- How many proxies hold the blob. -/
def blobClaims (digest : Digest) : ℕ :=
  (s.cachedBlobs.values.filter (·.digest = digest)).length

/-- And the claims that remain. -/
def deleteCachedBlob (repo : String) (digest : Digest) : Except Error (ℕ × Memory) :=
  if (s.cachedBlobs.lookup (repo, digest)).isNone then .error (.notFound "cached blob" digest)
  else
    let s := { s with cachedBlobs := s.cachedBlobs.erase (repo, digest) }
    .ok (s.blobClaims digest, s)

def touch (access : CacheAccess) : Memory :=
  match access.kind with
  | .manifest =>
    match s.cachedManifests.lookup (access.repository, access.digest) with
    | none => s
    | some m =>
      if m.lastAccessAt < access.at_ then
        { s with cachedManifests := s.cachedManifests.insert { m with lastAccessAt := access.at_ } }
      else s
  | .blob =>
    match s.cachedBlobs.lookup (access.repository, access.digest) with
    | none => s
    | some b =>
      if b.lastAccessAt < access.at_ then
        { s with cachedBlobs := s.cachedBlobs.insert { b with lastAccessAt := access.at_ } }
      else s
  | .unknown _ => s

def touchCached (accesses : List CacheAccess) : Except Error Memory :=
  match accesses.findSome? (CacheAccess.refused quote) with
  | some err => .error err
  | none => .ok (accesses.foldl touch s)

/-! ## Sequences of operations -/

/-- The operations that change the store. -/
inductive Op
  | createRepository (repo : Repository)
  | updateRepositoryConfig (name : String) (config : List UInt8) (expectedVersion : ℤ)
      (actor : String) (now : Time)
  | deleteRepository (name : String)
  | setGroupMembers (group : String) (members : List GroupMember)
  | putProxyCredential (cred : ProxyCredential)
  | deleteProxyCredential (repository : String)
  | putManifest (m : Manifest) (refs : List ManifestRef)
  | deleteManifest (repo : String) (digest : Digest)
  | putTag (tag : Tag)
  | deleteTag (repo name : String)
  | putBlob (blob : Blob)
  | deleteBlob (digest : Digest)
  | createUpload (session : UploadSession)
  | updateUpload (id : String) (bytes : ℤ) (now : Time)
  | deleteUpload (id : String)
  | putCachedManifest (m : CachedManifest) (refs : List ManifestRef)
  | deleteCachedManifest (repo : String) (digest : Digest)
  | putCachedBlob (b : CachedBlob)
  | deleteCachedBlob (repo : String) (digest : Digest)
  | putTagLease (lease : TagLease)
  | deleteTagLease (repo tag : String)
  | putNegativeEntry (entry : NegativeEntry)
  | deleteNegativeEntry (repo reference : String)
  | touchCached (accesses : List CacheAccess)

/-- A call of the hosted half. -/
def onHosted (result : Except Error Store) : Except UpdateError Memory :=
  match result with
  | .error err => .error (.store err)
  | .ok hosted => .ok { s with hosted := hosted }

/-- A call of the cached half. -/
def onCached (result : Except Error Cached) : Except UpdateError Memory :=
  match result with
  | .error err => .error (.store err)
  | .ok c => .ok (s.withCached c)

def apply : Op → Except UpdateError Memory
  | .createRepository repo =>
    ((s.repositories.createRepository repo).map s.withRepositories).mapError .store
  | .updateRepositoryConfig name config expectedVersion actor now =>
    (s.repositories.updateRepositoryConfig name config expectedVersion actor now).map
      s.withRepositories
  | .deleteRepository name => (s.deleteRepository name).mapError .store
  | .setGroupMembers group members => (s.setGroupMembers quote group members).mapError .store
  | .putProxyCredential cred => (s.putProxyCredential quote cred).mapError .store
  | .deleteProxyCredential repository => (s.deleteProxyCredential repository).mapError .store
  | .putManifest m refs => s.onHosted (s.hosted.putManifest m refs)
  | .deleteManifest repo digest => s.onHosted (s.hosted.deleteManifest repo digest)
  | .putTag tag => s.onHosted (s.hosted.putTag tag)
  | .deleteTag repo name => s.onHosted (s.hosted.deleteTag repo name)
  | .putBlob blob => s.onHosted (s.hosted.putBlob blob)
  | .deleteBlob digest => s.onHosted (s.hosted.deleteBlob digest)
  | .createUpload session => s.onHosted (s.hosted.createUpload session)
  | .updateUpload id bytes now => s.onHosted (s.hosted.updateUpload id bytes now)
  | .deleteUpload id => s.onHosted (s.hosted.deleteUpload id)
  | .putCachedManifest m refs => s.onCached (s.cached.putCachedManifest quote m refs)
  | .deleteCachedManifest repo digest => (s.deleteCachedManifest repo digest).mapError .store
  | .putCachedBlob b => (s.putCachedBlob quote b).mapError .store
  | .deleteCachedBlob repo digest =>
    ((s.deleteCachedBlob repo digest).map Prod.snd).mapError .store
  | .putTagLease lease => s.onCached (s.cached.putTagLease quote lease)
  | .deleteTagLease repo tag => s.onCached (s.cached.deleteTagLease repo tag)
  | .putNegativeEntry entry => s.onCached (s.cached.putNegativeEntry quote entry)
  | .deleteNegativeEntry repo reference => s.onCached (s.cached.deleteNegativeEntry repo reference)
  | .touchCached accesses => (s.touchCached quote accesses).mapError .store

def after (op : Op) : Memory :=
  match s.apply quote op with
  | .ok s' => s'
  | .error _ => s

/-- The store after the operations. -/
def run (ops : List Op) : Memory := ops.foldl (fun s op => s.after quote op) s

theorem run_concat (ops : List Op) (op : Op) :
    s.run quote (ops ++ [op]) = (s.run quote ops).after quote op := by
  rw [run, run, List.foldl_concat]

variable {quote} in
theorem run_invariant {P : Memory → Prop} (hem : P empty)
    (hap : ∀ s op s', P s → s.apply quote op = .ok s' → P s') (ops : List Op) :
    P (empty.run quote ops) := by
  induction ops using List.reverseRecOn with
  | nil => exact hem
  | append_singleton ops op ih =>
    rw [run_concat, after]
    split
    · rename_i s' hok
      exact hap _ op s' ih hok
    · exact ih

end Memory

end Trove.Meta
