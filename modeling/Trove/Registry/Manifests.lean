import Trove.Lib.Run
import Trove.Registry.Shared

/-!
# Manifest PUT

`verifyReferences` looks up every blob and every child the manifest names, one store call each, and
only then does `PutManifest` store the manifest with its edges; a tag reference is pointed last.
-/

namespace Trove.Registry

open Meta List

structure Descriptor where
  mediaType : String
  digest : Digest
  size : ℤ
  /-- A foreign layer: not validated, not recorded as an edge. -/
  external : Bool
  deriving DecidableEq

structure Parsed where
  (mediaType artifactType : String)
  (subject config : Option Descriptor)
  (layers children : List Descriptor)

/-- A manifest PUT whose payload parsed and hashes to `digest`. -/
structure PutRequest where
  name : String
  /-- The tag to point, when the reference was one. -/
  tag : Option String
  digest : Digest
  payload : List UInt8
  parsed : Parsed

/-- Where a PUT stands: the descriptors still to look up and the edges already verified. -/
inductive PutPhase
  | route
  | blobs (todo : List (RefKind × Descriptor)) (refs : List ManifestRef)
  | children (todo : List Descriptor) (refs : List ManifestRef)
  | store (refs : List ManifestRef)
  | tag (name : String)
  | done (response : Response)
  deriving DecidableEq

structure Put where
  request : PutRequest
  phase : PutPhase

/-- The blob descriptors `verifyReferences` looks up, in its order. -/
def Parsed.blobs (parsed : Parsed) : List (RefKind × Descriptor) :=
  (parsed.config.toList.map fun d => (.config, d)) ++ parsed.layers.map fun d => (.layer, d)

/-- The edge to the subject, which need not exist. -/
def Parsed.subjectRef (parsed : Parsed) : List ManifestRef :=
  parsed.subject.toList.map fun d => ⟨d.digest, .subject⟩

def PutRequest.record (r : PutRequest) (now : Time) : Manifest where
  repository := r.name
  digest := r.digest
  mediaType := r.parsed.mediaType
  artifactType := r.parsed.artifactType
  subject := (r.parsed.subject.map Descriptor.digest).getD ""
  payload := r.payload
  size := r.payload.length
  createdAt := now

/-- What a descriptor names must be there, of the stated size. -/
def checkDescriptor (by_ what : String) (found : Except Error ℤ) (desc : Descriptor) :
    Except Response Unit :=
  match found with
  | .error _ => .error (.refused 404 "MANIFEST_BLOB_UNKNOWN"
      (by_ ++ " references " ++ what ++ " " ++ desc.digest ++ " which is unknown to the registry"))
  | .ok size =>
    if size ≠ desc.size then .error (.refused 400 "MANIFEST_INVALID"
      ("descriptor for " ++ desc.digest ++ " states size " ++ toString desc.size ++
        " but the " ++ what ++ " is " ++ toString size ++ " bytes"))
    else .ok ()

/-- `blobDescriptor`. -/
def checkBlob (s : Store) (desc : Descriptor) : Except Response Unit :=
  checkDescriptor "manifest" "blob" ((s.getBlob desc.digest).map Blob.size) desc

def checkChild (s : Store) (name : String) (desc : Descriptor) : Except Response Unit :=
  checkDescriptor "index" "manifest" ((s.getManifest name desc.digest).map Manifest.size) desc

def Put.step (sh : Shared) (p : Put) : Option (Shared × Put) :=
  let goto (phase : PutPhase) : Put := { p with phase := phase }
  match p.phase with
  | .route =>
    match hostedRepo sh.store p.request.name with
    | .error r => some (sh, goto (.done r))
    | .ok () => some (sh, goto (.blobs p.request.parsed.blobs []))
  | .blobs [] refs => some (sh, goto (.children p.request.parsed.children refs))
  | .blobs ((kind, desc) :: todo) refs =>
    if desc.external then some (sh, goto (.blobs todo refs))
    else match checkBlob sh.store desc with
      | .error r => some (sh, goto (.done r))
      | .ok () => some (sh, goto (.blobs todo (refs ++ [⟨desc.digest, kind⟩])))
  | .children [] refs => some (sh, goto (.store (refs ++ p.request.parsed.subjectRef)))
  | .children (desc :: todo) refs =>
    match checkChild sh.store p.request.name desc with
    | .error r => some (sh, goto (.done r))
    | .ok () => some (sh, goto (.children todo (refs ++ [⟨desc.digest, .childManifest⟩])))
  | .store refs =>
    match sh.store.putManifest (p.request.record sh.clock) refs with
    | .error (.notFound _ _) => some (sh, goto (.done nameUnknown))
    | .error _ => some (sh, goto (.done internalError))
    | .ok s' =>
      match p.request.tag with
      | some tag => some ({ sh with store := s' }, goto (.tag tag))
      | none => some ({ sh with store := s' }, goto (.done .created))
  | .tag name =>
    match sh.store.putTag ⟨p.request.name, name, p.request.digest, sh.clock, sh.clock⟩ with
    | .error _ => some (sh, goto (.done internalError))
    | .ok s' => some ({ sh with store := s' }, goto (.done .created))
  | .done _ => none

def Put.refs (p : Put) : List ManifestRef :=
  match p.phase with
  | .blobs _ refs | .children _ refs | .store refs => refs
  | .route | .tag _ | .done _ => []

variable {desc : Descriptor} {sh sh' : Shared} {p p' : Put} {r : ManifestRef}

theorem hasRow_of_checkBlob (h : checkBlob sh.store desc = .ok ()) : sh.HasRow desc.digest := by
  unfold checkBlob Store.getBlob at h
  cases hrow : sh.store.blobs.lookup desc.digest with
  | none =>
    rw [hrow] at h
    cases h
  | some blob => simp [Shared.HasRow, hrow]

theorem stored_of_checkChild {s : Store} {name : String} (h : checkChild s name desc = .ok ()) :
    (s.manifests.lookup (name, desc.digest)).isSome := by
  unfold checkChild Store.getManifest at h
  cases hrow : s.manifests.lookup (name, desc.digest) with
  | none =>
    rw [hrow] at h
    cases h
  | some m => rfl

/-- How the step that adds an edge knows of it: the blob next in line has its row, the child is
stored under the name, or it is the subject, which need not exist. -/
inductive Put.Verifies (sh : Shared) (p : Put) (r : ManifestRef) : Prop
  | blob {desc : Descriptor} {todo : List (RefKind × Descriptor)} {refs : List ManifestRef}
      (phase : p.phase = .blobs ((r.kind, desc) :: todo) refs) (row : sh.HasRow r.child)
  | child (kind : r.kind = .childManifest)
      (stored : (sh.store.manifests.lookup (p.request.name, r.child)).isSome)
  | subject (kind : r.kind = .subject)

theorem Put.Verifies.hasRow (h : p.Verifies sh r) (hkn : r.kind.isBlob = true) :
    sh.HasRow r.child := by
  cases h with
  | blob phase row => exact row
  | child kind stored | subject kind => simp [kind, RefKind.isBlob] at hkn

/-- A step of a PUT looks something up, and verifies any edge it adds; or it stores the manifest
with the verified edges; or it points the tag. -/
theorem Put.step_cases (h : p.step sh = some (sh', p')) :
    (sh' = sh ∧ ∀ r ∈ p'.refs, r ∈ p.refs ∨ p.Verifies sh r) ∨
    (p'.refs = [] ∧ ∃ s', sh.store.putManifest (p.request.record sh.clock) p.refs = .ok s' ∧
      sh' = { sh with store := s' }) ∨
    (p'.refs = [] ∧ ∃ tags, sh' = { sh with store := { sh.store with tags := tags } }) := by
  obtain ⟨request, phase⟩ := p
  cases phase with
  | route =>
    refine .inl ?_
    simp only [step] at h
    split at h <;> cases h <;> exact ⟨rfl, by simp [Put.refs]⟩
  | blobs todo refs =>
    refine .inl ?_
    cases todo with
    | nil =>
      cases h
      exact ⟨rfl, fun r hr => .inl hr⟩
    | cons head todo =>
      simp only [step] at h
      split_ifs at h with hext
      · cases h
        exact ⟨rfl, fun r hr => .inl hr⟩
      · split at h <;> cases h
        · exact ⟨rfl, by simp [Put.refs]⟩
        · rename_i hch
          exact ⟨rfl, Lib.forall_mem_concat (fun _ => .inl)
            (.inr (.blob rfl (hasRow_of_checkBlob hch)))⟩
  | children todo refs =>
    refine .inl ?_
    cases todo with
    | nil =>
      cases h
      refine ⟨rfl, fun r hr => ?_⟩
      rcases mem_append.mp hr with hr | hr
      · exact .inl hr
      · obtain ⟨d, -, rfl⟩ := mem_map.mp hr
        exact .inr (.subject rfl)
    | cons desc todo =>
      simp only [step] at h
      split at h <;> cases h
      · exact ⟨rfl, by simp [Put.refs]⟩
      · rename_i hch
        exact ⟨rfl, Lib.forall_mem_concat (fun _ => .inl)
          (.inr (.child rfl (stored_of_checkChild hch)))⟩
  | store refs =>
    simp only [step] at h
    split at h
    · cases h
      exact .inl ⟨rfl, by simp [Put.refs]⟩
    · cases h
      exact .inl ⟨rfl, by simp [Put.refs]⟩
    · rename_i s' hput
      split at h <;> cases h <;> exact .inr (.inl ⟨rfl, s', hput, rfl⟩)
  | tag name =>
    simp only [step] at h
    split at h <;> cases h
    · exact .inl ⟨rfl, by simp [Put.refs]⟩
    · rename_i s' hput
      obtain ⟨tags, rfl⟩ := Store.putTag_ok hput
      exact .inr (.inr ⟨rfl, tags, rfl⟩)
  | done r => cases h

def Put.AsksBlobs (p : Put) : Prop :=
  match p.phase with
  | .blobs todo _ => ∀ x ∈ todo, x.1.isBlob = true
  | _ => True

theorem asksBlobs_parsed (parsed : Parsed) : ∀ x ∈ parsed.blobs, x.1.isBlob = true := by
  intro x hx
  rcases mem_append.mp hx with hx | hx
  · obtain ⟨d, -, rfl⟩ := mem_map.mp hx
    rfl
  · obtain ⟨d, -, rfl⟩ := mem_map.mp hx
    rfl

theorem Put.step_keeps (hp : p.AsksBlobs) (h : p.step sh = some (sh', p')) :
    p'.request = p.request ∧ p'.AsksBlobs := by
  obtain ⟨request, phase⟩ := p
  cases phase with
  | route =>
    simp only [step] at h
    split at h <;> cases h
    · exact ⟨rfl, trivial⟩
    · exact ⟨rfl, asksBlobs_parsed request.parsed⟩
  | blobs todo refs =>
    cases todo with
    | nil =>
      cases h
      exact ⟨rfl, trivial⟩
    | cons head todo =>
      have hrs : ∀ x ∈ todo, x.1.isBlob = true := fun x hx => hp x (mem_cons_of_mem _ hx)
      simp only [step] at h
      split_ifs at h
      · cases h
        exact ⟨rfl, hrs⟩
      · split at h <;> cases h
        · exact ⟨rfl, trivial⟩
        · exact ⟨rfl, hrs⟩
  | children todo refs =>
    cases todo with
    | nil =>
      cases h
      exact ⟨rfl, trivial⟩
    | cons desc todo =>
      simp only [step] at h
      split at h <;> cases h <;> exact ⟨rfl, trivial⟩
  | store refs =>
    simp only [step] at h
    split at h
    · cases h
      exact ⟨rfl, trivial⟩
    · cases h
      exact ⟨rfl, trivial⟩
    · split at h <;> cases h <;> exact ⟨rfl, trivial⟩
  | tag name =>
    simp only [step] at h
    split at h <;> cases h <;> exact ⟨rfl, trivial⟩
  | done r => cases h

theorem Put.Verifies.stored (h : p.Verifies sh r) (hp : p.AsksBlobs)
    (hkn : r.kind = .childManifest) :
    (sh.store.manifests.lookup (p.request.name, r.child)).isSome := by
  cases h with
  | blob phase row =>
    rw [Put.AsksBlobs, phase] at hp
    have := hp _ mem_cons_self
    simp [hkn, RefKind.isBlob] at this
  | child kind stored => exact stored
  | subject kind => simp [kind] at hkn

end Trove.Registry
