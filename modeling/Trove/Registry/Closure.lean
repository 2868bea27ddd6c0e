import Trove.Registry.Delete
import Trove.Registry.Manifests

/-!
# The children of an index

An index must not list a manifest that is gone. `DeleteManifest` refuses while a stored index lists
the manifest, and a PUT looks every child up before it stores its edges; but the look-up and the
store are two calls, and a DELETE in between finds no index to refuse for.
-/

namespace Trove.Registry

open Meta Lib List

/-- Any number of PUTs and DELETEs in flight. -/
structure Traffic where
  shared : Shared
  puts : List Put
  deletes : List Delete

/-- One store call, or an arrival. -/
inductive Traffic.Action
  | tick (by_ : ℕ)
  | put (request : PutRequest)
  | delete (name reference : String)
  | stepPut (i : ℕ)
  | stepDelete (i : ℕ)

variable (quote : String → String)

def Traffic.step (w : Traffic) : Traffic.Action → Option Traffic
  | .tick n => some { w with shared := { w.shared with clock := w.shared.clock + n } }
  | .put r => some { w with puts := w.puts ++ [⟨r, .route⟩] }
  | .delete name reference => some { w with deletes := w.deletes ++ [⟨name, reference, .route⟩] }
  | .stepPut i =>
    (advance Put.step w.shared w.puts i).map fun r => { w with shared := r.1, puts := r.2 }
  | .stepDelete i =>
    (advance (Delete.step quote) w.shared w.deletes i).map fun r =>
      { w with shared := r.1, deletes := r.2 }

/-- Every child edge of every stored index names a manifest stored in the same repository. -/
def ChildrenStored (s : Store) : Prop :=
  ∀ k m refs, s.manifests.lookup k = some m → s.refs.lookup k = some refs →
    ∀ r ∈ refs, r.kind = .childManifest → (s.manifests.lookup (k.1, r.child)).isSome

instance (s : Store) : Decidable (ChildrenStored s) :=
  decidable_of_iff (∀ e ∈ s.refs.entries, (s.manifests.lookup e.1).isSome →
      ∀ r ∈ e.2, r.kind = .childManifest → (s.manifests.lookup (e.1.1, r.child)).isSome) <| by
    constructor
    · intro h k m refs hm hrefs
      exact h ⟨k, refs⟩ (AList.mem_lookup_iff.mp hrefs) (by simp [hm])
    · rintro h ⟨k, refs⟩ he hm
      obtain ⟨m, hm⟩ := Option.isSome_iff_exists.mp hm
      exact h k m refs hm (AList.mem_lookup_iff.mpr he)

/-- The step deletes no child that a PUT in flight has looked up and not yet stored an edge to. -/
def KeepsChildren (w : Traffic) : Traffic.Action → Prop
  | .stepDelete i => ∀ d ∈ w.deletes[i]?, ∀ member ∈ d.deletes w.shared,
      ∀ p ∈ w.puts, p.request.name = d.name → ∀ r ∈ p.refs, r.kind = .childManifest →
        r.child ≠ member
  | _ => True

instance (w : Traffic) (a : Traffic.Action) : Decidable (KeepsChildren w a) := by
  cases a <;> dsimp only [KeepsChildren] <;> infer_instance

/-! ## One store call -/

variable {s s' : Store} {refs : List ManifestRef} {m : Manifest}

theorem isSome_putManifest (hput : s.putManifest m refs = .ok s') {k : String × Digest}
    (h : (s.manifests.lookup k).isSome) : (s'.manifests.lookup k).isSome := by
  obtain rfl := Store.putManifest_ok hput
  rw [Table.lookup_insert]
  split_ifs
  · rfl
  · exact h

theorem childrenStored_putManifest (h : ChildrenStored s)
    (hrf : ∀ r ∈ refs, r.kind = .childManifest →
      (s.manifests.lookup (m.repository, r.child)).isSome) (hput : s.putManifest m refs = .ok s') :
    ChildrenStored s' := by
  have hkp : ∀ k, (s.manifests.lookup k).isSome → (s'.manifests.lookup k).isSome :=
    fun k => isSome_putManifest hput
  intro k m' refs' hk hr r hmem hkn
  obtain rfl := Store.putManifest_ok hput
  rcases AList.lookup_insert_eq_some.mp hr with ⟨rfl, rfl⟩ | ⟨hne, hr⟩
  · exact hkp _ (hrf r hmem hkn)
  · rw [Table.lookup_insert, if_neg hne] at hk
    exact hkp _ (h k m' refs' hk hr r hmem hkn)

theorem childrenStored_deleteManifest {repo : String} {d : Digest} (h : ChildrenStored s)
    (hdel : s.deleteManifest repo d = .ok s') : ChildrenStored s' := by
  obtain ⟨hpr, rfl⟩ := Store.deleteManifest_ok hdel
  intro k m refs hk hr r hmem hkn
  obtain ⟨hne, hr⟩ := AList.lookup_erase_eq_some.mp hr
  rw [Table.lookup_erase, if_neg hne] at hk
  -- a stored index that lists the manifest would have made the store refuse
  have hot : (k.1, r.child) ≠ (repo, d) := by
    intro heq
    obtain ⟨hrp, hch⟩ := Prod.mk.injEq .. ▸ heq
    have hpn : k.2 ∈ s.liveParents repo d := by
      refine Store.mem_liveParents.mpr ⟨fun hsm => hne (Prod.ext hrp hsm), refs, ?_, ?_⟩
      · rw [← hrp]
        exact hr
      · exact any_eq_true.mpr ⟨r, hmem, by simp [hch, hkn]⟩
    rw [hpr] at hpn
    cases hpn
  rw [Table.lookup_erase, if_neg hot]
  exact h k m refs hk hr r hmem hkn

/-! ## One step -/

structure Closed (w : Traffic) : Prop where
  stored : ChildrenStored w.shared.store
  asks : ∀ p ∈ w.puts, p.AsksBlobs
  verified : ∀ p ∈ w.puts, ∀ r ∈ p.refs, r.kind = .childManifest →
    (w.shared.store.manifests.lookup (p.request.name, r.child)).isSome

theorem Closed.step {quote : String → String} {w w' : Traffic} {a : Traffic.Action}
    (h : Closed w) (hsf : KeepsChildren w a) (hst : w.step quote a = some w') : Closed w' := by
  cases a with
  | tick n =>
    cases hst
    exact ⟨h.stored, h.asks, h.verified⟩
  | put r =>
    cases hst
    refine ⟨h.stored, forall_mem_concat h.asks trivial, forall_mem_concat h.verified ?_⟩
    intro r hmem
    cases hmem
  | delete name reference =>
    cases hst
    exact ⟨h.stored, h.asks, h.verified⟩
  | stepPut i =>
    obtain ⟨⟨sh, pool⟩, hadv, rfl⟩ := Option.map_eq_some_iff.mp hst
    obtain ⟨p, p', hp, hput, rfl⟩ := advance_eq_some hadv
    have hak := h.asks p (mem_of_getElem? hp)
    have hvr := h.verified p (mem_of_getElem? hp)
    obtain ⟨hrq, hak'⟩ := Put.step_keeps hak hput
    rcases Put.step_cases hput with ⟨rfl, hrf⟩ | ⟨hnil, s', hsr, rfl⟩ | ⟨hnil, tags, rfl⟩
    · refine ⟨h.stored, forall_mem_set h.asks hak', forall_mem_set h.verified ?_⟩
      intro r hmem hkn
      rw [hrq]
      rcases hrf r hmem with hmem | hlk
      · exact hvr r hmem hkn
      · exact hlk.stored hak hkn
    · refine ⟨childrenStored_putManifest h.stored hvr hsr,
        forall_mem_set h.asks hak', forall_mem_set (fun t ht r hmem hkn => ?_) (by simp [hnil])⟩
      exact isSome_putManifest hsr (h.verified t ht r hmem hkn)
    · exact ⟨h.stored, forall_mem_set h.asks hak',
        forall_mem_set h.verified (by simp [hnil])⟩
  | stepDelete i =>
    obtain ⟨⟨sh, pool⟩, hadv, rfl⟩ := Option.map_eq_some_iff.mp hst
    obtain ⟨d, d', hd, hdl, rfl⟩ := advance_eq_some hadv
    rcases Delete.step_cases hdl with rfl | ⟨member, s', hdt, hdel, rfl⟩
    · exact ⟨h.stored, h.asks, h.verified⟩
    · refine ⟨childrenStored_deleteManifest h.stored hdel, h.asks, fun p hp r hmem hkn => ?_⟩
      have hot : (p.request.name, r.child) ≠ (d.name, member) := by
        intro heq
        obtain ⟨hnm, hch⟩ := Prod.mk.injEq .. ▸ heq
        exact hsf d hd member hdt p hp hnm r hmem hkn hch
      obtain ⟨-, rfl⟩ := Store.deleteManifest_ok hdel
      rw [Table.lookup_erase, if_neg hot]
      exact h.verified p hp r hmem hkn

/-! ## Whole runs -/

/-- **Index-child closure.** From a store whose indexes have their children, every run of PUTs and
DELETEs in which no DELETE takes a child between a PUT's look-up of it and the store of its edge
ends in such a store. -/
theorem childrenStored_of_run (quote : String → String) (sh : Shared) (w' : Traffic)
    (as : List Traffic.Action) (hstart : ChildrenStored sh.store)
    (hsafe : Along (Traffic.step quote) KeepsChildren ⟨sh, [], []⟩ as)
    (hrun : exec (Traffic.step quote) ⟨sh, [], []⟩ as = some w') :
    ChildrenStored w'.shared.store := by
  have hin : Closed ⟨sh, [], []⟩ := ⟨hstart, by simp, by simp⟩
  exact (exec_invariant (fun _ _ _ h hok hs => h.step hok hs) hin hsafe hrun).stored

/-! ## The window -/

def oneImage : Shared where
  store := { Store.empty with
    repos := Table.insert ⟨"team", .hosted, [], 1, 1, 1⟩ ∅
    manifests := Table.insert ⟨"team/api", Blob.repeated 'a', "", "", "", [0], 1, 1⟩ ∅
    refs := AList.insert ("team/api", Blob.repeated 'a') [] ∅ }
  bytes := Blob.Store.empty
  clock := 1
  log := []

def putOfIndex : PutRequest where
  name := "team/api"
  tag := none
  digest := Blob.repeated 'b'
  payload := [0]
  parsed := ⟨"application/vnd.oci.image.index.v1+json", "", none, none, [],
    [⟨"application/vnd.oci.image.manifest.v1+json", Blob.repeated 'a', 1, false⟩]⟩

/-- The PUT looks the image up, a DELETE of the image runs from start to end, and the PUT stores its
edge. -/
def lookedUpThenDeleted : List Traffic.Action :=
  [.put putOfIndex, .stepPut 0, .stepPut 0, .stepPut 0,
    .delete "team/api" (Blob.repeated 'a')] ++ List.replicate 8 (.stepDelete 0) ++
    [.stepPut 0, .stepPut 0]

/-- The DELETE answers 202, the PUT 201, and the index lists a manifest that is gone. -/
theorem child_gone :
    ChildrenStored oneImage.store ∧
      ∃ w' ∈ exec (Traffic.step id) ⟨oneImage, [], []⟩ lookedUpThenDeleted,
        w'.deletes.map Delete.phase = [.done .accepted] ∧
          w'.puts.map Put.phase = [.done .created] ∧ ¬ ChildrenStored w'.shared.store := by
  decide

def storedThenDeleted : List Traffic.Action :=
  .put putOfIndex :: List.replicate 5 (.stepPut 0) ++
    .delete "team/api" (Blob.repeated 'a') :: List.replicate 5 (.stepDelete 0)

theorem childrenStored_of_run_stored_first :
    ∃ w' ∈ exec (Traffic.step id) ⟨oneImage, [], []⟩ storedThenDeleted,
      (w'.shared.store.manifests.lookup ("team/api", Blob.repeated 'b')).isSome ∧
        ChildrenStored w'.shared.store := by
  have hgo : ∃ w' ∈ exec (Traffic.step id) ⟨oneImage, [], []⟩ storedThenDeleted,
      (w'.shared.store.manifests.lookup ("team/api", Blob.repeated 'b')).isSome := by decide
  obtain ⟨w', hrun, hin⟩ := hgo
  exact ⟨w', hrun, hin, childrenStored_of_run id oneImage w' storedThenDeleted (by decide)
    (by decide) hrun⟩

end Trove.Registry
