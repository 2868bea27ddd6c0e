import Trove.Lib.Sort
import Trove.Meta.Types
import Trove.Reponame

/-!
# The in-memory metadata store: hosted content

The reference store's hosted half. Content maps are keyed by repository and digest together; a
missing inner map of the source and an empty one answer alike. Records stand under the identifier
they carry. Every call is one atomic step: the source holds one lock over it.
-/

namespace Trove.Meta

open Lib List

/-- The hosted side of the store. -/
structure Store where
  repos : Table Repository.name
  manifests : Table fun m : Manifest => (m.repository, m.digest)
  refs : GoMap (String × Digest) (List ManifestRef)
  tags : Table fun t : Tag => (t.repository, t.name)
  blobs : Table Blob.digest
  uploads : Table UploadSession.id
  gcRuns : Table GCRun.id

/-- A store with nothing in it. -/
def Store.empty : Store := ⟨∅, ∅, ∅, ∅, ∅, ∅, ∅⟩

/-- The first path segment. -/
def entityOf (name : String) : String := Reponame.prefixOf name

namespace Store

variable (s : Store)

def repoExists (entity : String) : Bool := (s.repos.lookup entity).isSome

def getRepository (name : String) : Except Error Repository :=
  match s.repos.lookup name with
  | some repo => .ok repo
  | none => .error (.notFound "repository" name)

/-! ## Manifests and tags -/

/-- A manifest and its reference edges together. -/
def putManifest (m : Manifest) (refs : List ManifestRef) : Except Error Store :=
  if s.repoExists (entityOf m.repository) = false then
    .error (.notFound "repository" (entityOf m.repository))
  else if m.digest = "" then .error (.invalid "digest" "must not be empty")
  else if refs.any fun r => r.child = "" then
    .error (.invalid "refs" "reference digest must not be empty")
  else
    .ok { s with
      manifests := s.manifests.insert m
      refs := s.refs.insert (m.repository, m.digest) refs }

def getManifest (repo : String) (digest : Digest) : Except Error Manifest :=
  match s.manifests.lookup (repo, digest) with
  | some m => .ok m
  | none => .error (.notFound "manifest" digest)

/-- The edges list the digest as a child. -/
def listsChild (edges : List ManifestRef) (digest : Digest) : Bool :=
  edges.any fun e => e.child = digest && e.kind = .childManifest

def liveParents (repo : String) (digest : Digest) : List Digest :=
  sortBy id ((s.refs.entries.filter fun e =>
    e.1.1 = repo && e.1.2 ≠ digest && listsChild e.2 digest).map fun e => e.1.2)

def deleteManifest (repo : String) (digest : Digest) : Except Error Store :=
  if (s.manifests.lookup (repo, digest)).isNone then .error (.notFound "manifest" digest)
  else if s.liveParents repo digest ≠ [] then
    .error (.referenced "manifest" digest (s.liveParents repo digest))
  else
    .ok { s with
      manifests := s.manifests.erase (repo, digest)
      refs := s.refs.erase (repo, digest)
      tags := s.tags.restrict fun tag => !(tag.repository = repo && tag.digest = digest) }

def listIndexParents (repo : String) (child : Digest) : List Digest :=
  sortBy id ((s.refs.entries.filter fun e =>
    e.1.1 = repo && listsChild e.2 child).map fun e => e.1.2)

def listReferrers (repo : String) (subject : Digest) (artifactType : String) : List Manifest :=
  sortBy Manifest.digest (s.manifests.values.filter fun m =>
    m.repository = repo && m.subject = subject &&
      (artifactType = "" || m.artifactType = artifactType))

/-- A repointed tag keeps its creation time. -/
def putTag (tag : Tag) : Except Error Store :=
  if tag.name = "" then .error (.invalid "name" "must not be empty")
  else if s.repoExists (entityOf tag.repository) = false then
    .error (.notFound "repository" (entityOf tag.repository))
  else if (s.manifests.lookup (tag.repository, tag.digest)).isNone then
    .error (.notFound "manifest" tag.digest)
  else
    let createdAt := match s.tags.lookup (tag.repository, tag.name) with
      | some existing => existing.createdAt
      | none => tag.createdAt
    .ok { s with
      tags := s.tags.insert { tag with createdAt := createdAt } }

/-! ## Blobs and uploads -/

/-- A digest that has a row keeps it. -/
def putBlob (blob : Blob) : Except Error Store :=
  if blob.digest = "" then .error (.invalid "digest" "must not be empty")
  else if blob.size < 0 then .error (.invalid "size" "must not be negative")
  else if (s.blobs.lookup blob.digest).isSome then .ok s
  else .ok { s with blobs := s.blobs.insert blob }

def getBlob (digest : Digest) : Except Error Blob :=
  match s.blobs.lookup digest with
  | some blob => .ok blob
  | none => .error (.notFound "blob" digest)

/-- A session of an existing repository. -/
def createUpload (session : UploadSession) : Except Error Store :=
  if session.id = "" then .error (.invalid "id" "must not be empty")
  else if s.repoExists (entityOf session.repository) = false then
    .error (.notFound "repository" (entityOf session.repository))
  else if (s.uploads.lookup session.id).isSome then .error (.conflict "upload" session.id)
  else .ok { s with uploads := s.uploads.insert session }

def getUpload (id : String) : Except Error UploadSession :=
  match s.uploads.lookup id with
  | some session => .ok session
  | none => .error (.notFound "upload" id)

def deleteUpload (id : String) : Except Error Store :=
  if (s.uploads.lookup id).isNone then .error (.notFound "upload" id)
  else .ok { s with uploads := s.uploads.erase id }

variable {s} {s' : Store}

/-! ## Edges -/

/-- The parent's edges list it as a child. -/
def ListsChild (s : Store) (repo : String) (parent child : Digest) : Prop :=
  ∃ edges, s.refs.lookup (repo, parent) = some edges ∧ listsChild edges child = true

variable {repo : String}

variable {parent child digest : Digest} {m : Manifest}

theorem mem_listIndexParents :
    parent ∈ s.listIndexParents repo child ↔ s.ListsChild repo parent child := by
  rw [listIndexParents, mem_sortBy, mem_map]
  constructor
  · rintro ⟨⟨⟨repo', parent'⟩, edges⟩, he, rfl⟩
    obtain ⟨hmem, hts⟩ := mem_filter.mp he
    rw [Bool.and_eq_true, decide_eq_true_eq] at hts
    obtain ⟨rfl, hls⟩ := hts
    exact ⟨edges, AList.mem_lookup_iff.mpr hmem, hls⟩
  · rintro ⟨edges, hed, hls⟩
    refine ⟨⟨(repo, parent), edges⟩, mem_filter.mpr ⟨AList.mem_lookup_iff.mp hed, ?_⟩, rfl⟩
    rw [Bool.and_eq_true, decide_eq_true_eq]
    exact ⟨rfl, hls⟩

theorem mem_liveParents :
    parent ∈ s.liveParents repo child ↔ parent ≠ child ∧ s.ListsChild repo parent child := by
  rw [← mem_listIndexParents, liveParents, listIndexParents, mem_sortBy, mem_sortBy, mem_map,
    mem_map]
  constructor
  · rintro ⟨e, he, rfl⟩
    simp only [mem_filter, Bool.and_eq_true, decide_eq_true_eq] at he
    exact ⟨he.2.1.2, e, by simp [he.1, he.2.1.1, he.2.2], rfl⟩
  · rintro ⟨hne, e, he, rfl⟩
    simp only [mem_filter, Bool.and_eq_true, decide_eq_true_eq] at he
    exact ⟨e, by simp [he.1, he.2.1, he.2.2, hne], rfl⟩

theorem mem_listReferrers {subject : Digest} :
    m ∈ s.listReferrers repo subject "" ↔
      s.manifests.lookup (repo, m.digest) = some m ∧ m.subject = subject := by
  rw [listReferrers, mem_sortBy, mem_filter, Table.mem_values]
  simp only [decide_true, Bool.true_or, Bool.and_true, Bool.and_eq_true, decide_eq_true_eq]
  constructor
  · rintro ⟨hm, rfl, hsb⟩
    exact ⟨hm, hsb⟩
  · rintro ⟨hm, hsb⟩
    have hkey := Table.key_of_lookup hm
    exact ⟨hkey ▸ hm, congrArg Prod.fst hkey, hsb⟩

/-! ## What a call leaves alone -/

theorem putManifest_ok {refs : List ManifestRef} (h : s.putManifest m refs = .ok s') :
    s' = { s with
      manifests := s.manifests.insert m
      refs := s.refs.insert (m.repository, m.digest) refs } := by
  unfold putManifest at h
  split_ifs at h
  exact (Except.ok.inj h).symm

theorem deleteManifest_ok (h : s.deleteManifest repo digest = .ok s') :
    s.liveParents repo digest = [] ∧ s' = { s with
      manifests := s.manifests.erase (repo, digest)
      refs := s.refs.erase (repo, digest)
      tags := s.tags.restrict fun tag => !(tag.repository = repo && tag.digest = digest) } := by
  unfold deleteManifest at h
  split_ifs at h with _ hp
  exact ⟨not_not.mp hp, (Except.ok.inj h).symm⟩

theorem deleteManifest_eq_ok (hst : (s.manifests.lookup (repo, digest)).isSome)
    (hpr : s.liveParents repo digest = []) :
    s.deleteManifest repo digest = .ok { s with
      manifests := s.manifests.erase (repo, digest)
      refs := s.refs.erase (repo, digest)
      tags := s.tags.restrict fun tag => !(tag.repository = repo && tag.digest = digest) } := by
  unfold deleteManifest
  rw [if_neg (by simpa [Option.isSome_iff_ne_none] using hst), if_neg (by simpa using hpr)]

theorem putTag_ok {tag : Tag} (h : s.putTag tag = .ok s') :
    ∃ tags, s' = { s with tags := tags } := by
  unfold putTag at h
  split_ifs at h
  exact ⟨_, (Except.ok.inj h).symm⟩

theorem putBlob_ok {blob : Blob} (h : s.putBlob blob = .ok s') :
    ((s.blobs.lookup blob.digest).isSome ∧ s' = s) ∨
      (s.blobs.lookup blob.digest = none ∧
        s' = { s with blobs := s.blobs.insert blob }) := by
  unfold putBlob at h
  split_ifs at h with _ _ hrow
  · exact .inl ⟨hrow, (Except.ok.inj h).symm⟩
  · exact .inr ⟨by simpa using hrow, (Except.ok.inj h).symm⟩

theorem createUpload_ok {session : UploadSession} (h : s.createUpload session = .ok s') :
    s' = { s with uploads := s.uploads.insert session } := by
  unfold createUpload at h
  split_ifs at h
  exact (Except.ok.inj h).symm

theorem deleteUpload_ok {id : String} (h : s.deleteUpload id = .ok s') :
    s' = { s with uploads := s.uploads.erase id } := by
  unfold deleteUpload at h
  split_ifs at h
  exact (Except.ok.inj h).symm

end Store

end Trove.Meta
