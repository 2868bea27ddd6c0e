import Trove.Lib.Run
import Trove.Lib.Search
import Trove.Registry.Shared

/-!
# Manifest DELETE

`delete` is the handler as one function of the store: it collects the referrer tree level by level,
refuses when an index outside the tree lists a member, and deletes the members deepest level first.
`Delete` is the same handler as a thread, for the runs in which other requests come in between.
-/

namespace Trove.Registry

open Meta Lib List

def referrers (s : Store) (name : String) (digest : Digest) : List Digest :=
  (s.listReferrers name digest "").map Manifest.digest

/-- The manifests to delete, by depth. Every level takes a stored manifest not seen before, so their
number bounds the loop. -/
def collectReferrerTree (s : Store) (name : String) (subject : Digest) : List (List Digest) :=
  levels (referrers s name) (s.manifests.values.length + 1) subject

def refuseMember (s : Store) (name : String) (inTree : List Digest) (member : Digest) :
    Option Response :=
  let outside := (s.listIndexParents name member).filter (· ∉ inTree)
  if outside = [] then none
  else some (.refused 403 "DENIED" ("manifest " ++ member ++ " is referenced by index " ++
    String.intercalate ", " outside ++ "; delete the index first"))

def refuseIfIndexed (s : Store) (name : String) (levels : List (List Digest)) : Option Response :=
  levels.flatten.findSome? (refuseMember s name levels.flatten)

def manifestUnknown : Response :=
  .refused 404 "MANIFEST_UNKNOWN" "manifest unknown to registry"

variable (quote : String → String)

/-- What a failed `DeleteManifest` of one member answers; a member already gone is passed over. -/
def deleteRefusal : Error → Option Response
  | .notFound _ _ => none
  | .referenced kind id by_ =>
    some (.refused 403 "DENIED"
      ((Error.referenced kind id by_).message quote ++ "; delete the index first"))
  | .conflict _ _ | .invalid _ _ => some internalError

/-- The deleting loop. -/
def deleteMembers (name : String) : Store → List Digest → Response × Store
  | s, [] => (.accepted, s)
  | s, member :: members =>
    match s.deleteManifest name member with
    | .ok s' => deleteMembers name s' members
    | .error err =>
      match deleteRefusal quote err with
      | none => deleteMembers name s members
      | some refusal => (refusal, s)

/-- `DELETE /v2/<name>/manifests/<digest>`, with no other request in between. -/
def delete (s : Store) (name reference : String) : Response × Store :=
  match hostedRepo s name with
  | .error refusal => (refusal, s)
  | .ok () =>
    match Blob.parseDigest reference with
    | .error reason => (.digestInvalid (.invalidDigest reference reason), s)
    | .ok digest =>
      match s.getManifest name digest with
      | .error _ => (manifestUnknown, s)
      | .ok _ =>
        let levels := collectReferrerTree s name digest
        match refuseIfIndexed s name levels with
        | some refusal => (refusal, s)
        | none => deleteMembers quote name s levels.reverse.flatten

/-! ## The handler as a thread -/

/-- Where a DELETE stands. -/
inductive DeletePhase
  | route
  | lookup (digest : Digest)
  /-- The levels so far, what is left to ask of the last of them, and the level being found. -/
  | collect (levels : List (List Digest)) (todo next : List Digest)
  | check (levels : List (List Digest)) (todo : List Digest)
  | delete (todo : List Digest)
  | done (response : Response)
  deriving DecidableEq

/-- A DELETE in flight. -/
structure Delete where
  (name reference : String)
  phase : DeletePhase

def Delete.step (sh : Shared) (d : Delete) : Option (Shared × Delete) :=
  let goto (phase : DeletePhase) : Delete := { d with phase := phase }
  match d.phase with
  | .route =>
    match hostedRepo sh.store d.name with
    | .error refusal => some (sh, goto (.done refusal))
    | .ok () =>
      match Blob.parseDigest d.reference with
      | .error reason =>
        some (sh, goto (.done (.digestInvalid (.invalidDigest d.reference reason))))
      | .ok digest => some (sh, goto (.lookup digest))
  | .lookup digest =>
    match sh.store.getManifest d.name digest with
    | .error _ => some (sh, goto (.done manifestUnknown))
    | .ok _ => some (sh, goto (.collect [[digest]] [digest] []))
  | .collect levels [] next =>
    if next = [] then some (sh, goto (.check levels levels.flatten))
    else some (sh, goto (.collect (levels ++ [next]) next []))
  | .collect levels (digest :: todo) next =>
    some (sh, goto (.collect levels todo
      (next ++ fresh (levels.flatten ++ next) (referrers sh.store d.name digest))))
  | .check levels [] => some (sh, goto (.delete levels.reverse.flatten))
  | .check levels (member :: todo) =>
    match refuseMember sh.store d.name levels.flatten member with
    | some refusal => some (sh, goto (.done refusal))
    | none => some (sh, goto (.check levels todo))
  | .delete [] => some (sh, goto (.done .accepted))
  | .delete (member :: todo) =>
    match sh.store.deleteManifest d.name member with
    | .ok s' => some ({ sh with store := s' }, goto (.delete todo))
    | .error err =>
      match deleteRefusal quote err with
      | none => some (sh, goto (.delete todo))
      | some refusal => some (sh, goto (.done refusal))
  | .done _ => none

def Delete.deletes (sh : Shared) (d : Delete) : Option Digest :=
  match d.phase with
  | .delete (member :: _) => if (sh.store.deleteManifest d.name member).isOk then some member
    else none
  | _ => none

/-- A step of a DELETE reads, or deletes one manifest nothing else lists. -/
theorem Delete.step_cases {quote : String → String} {sh sh' : Shared} {d d' : Delete}
    (h : d.step quote sh = some (sh', d')) :
    sh' = sh ∨ ∃ member s', d.deletes sh = some member ∧
      sh.store.deleteManifest d.name member = .ok s' ∧ sh' = { sh with store := s' } := by
  obtain ⟨name, reference, phase⟩ := d
  cases phase with
  | route =>
    refine .inl ?_
    simp only [step] at h
    split at h
    · cases h
      rfl
    · split at h <;> cases h <;> rfl
  | lookup digest =>
    refine .inl ?_
    simp only [step] at h
    split at h <;> cases h <;> rfl
  | collect levels todo next =>
    refine .inl ?_
    cases todo with
    | nil =>
      simp only [step] at h
      split_ifs at h <;> cases h <;> rfl
    | cons digest todo =>
      cases h
      rfl
  | check levels todo =>
    refine .inl ?_
    cases todo with
    | nil =>
      cases h
      rfl
    | cons member todo =>
      simp only [step] at h
      split at h <;> cases h <;> rfl
  | delete todo =>
    cases todo with
    | nil =>
      cases h
      exact .inl rfl
    | cons member todo =>
      simp only [step] at h
      split at h
      · rename_i s' hdel
        cases h
        exact .inr ⟨member, s', by simp [deletes, hdel, Except.isOk, Except.toBool], hdel, rfl⟩
      · split at h <;> cases h <;> exact .inl rfl
  | done r => cases h

/-! ## The stored digests -/

def storedDigests (s : Store) (name : String) : List Digest :=
  (s.manifests.values.filter fun m => m.repository = name).map Manifest.digest

variable {name : String} {s : Store} {digest subject : Digest}

theorem mem_storedDigests :
    digest ∈ storedDigests s name ↔ (s.manifests.lookup (name, digest)).isSome := by
  rw [storedDigests, mem_map, Option.isSome_iff_exists]
  constructor
  · rintro ⟨m, hm, rfl⟩
    obtain ⟨hmem, hnm⟩ := mem_filter.mp hm
    obtain rfl := of_decide_eq_true hnm
    exact ⟨m, Table.mem_values.mp hmem⟩
  · rintro ⟨m, hm⟩
    have hkey := Table.key_of_lookup hm
    refine ⟨m, mem_filter.mpr ⟨Table.mem_values.mpr (hkey ▸ hm), ?_⟩, congrArg Prod.snd hkey⟩
    exact decide_eq_true (congrArg Prod.fst hkey)

theorem nodup_storedDigests (s : Store) (name : String) : (storedDigests s name).Nodup := by
  refine List.Nodup.map_on (fun m hm m' hm' heq => ?_)
    ((List.Nodup.of_map _ s.manifests.nodup_map_key_values).filter _)
  simp only [mem_filter, decide_eq_true_eq] at hm hm'
  exact inj_on_of_nodup_map s.manifests.nodup_map_key_values hm.1 hm'.1
    (Prod.ext (hm.2.trans hm'.2.symm) heq)

theorem length_storedDigests_le (s : Store) (name : String) :
    (storedDigests s name).length ≤ s.manifests.values.length := by
  rw [storedDigests, length_map]
  exact length_filter_le _ _

theorem mem_referrers :
    digest ∈ referrers s name subject ↔
      ∃ m, s.manifests.lookup (name, digest) = some m ∧ m.subject = subject := by
  rw [referrers, mem_map]
  constructor
  · rintro ⟨m, hm, rfl⟩
    exact ⟨m, Store.mem_listReferrers.mp hm⟩
  · rintro ⟨m, hm, hsb⟩
    have hdg : m.digest = digest := congrArg Prod.snd (Table.key_of_lookup hm)
    exact ⟨m, Store.mem_listReferrers.mpr ⟨hdg ▸ hm, hsb⟩, hdg⟩

theorem storedDigests_of_mem_referrers (h : digest ∈ referrers s name subject) :
    digest ∈ storedDigests s name := by
  obtain ⟨m, hm, -⟩ := mem_referrers.mp h
  exact mem_storedDigests.mpr (by simp [hm])

end Trove.Registry
