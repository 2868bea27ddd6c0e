import Trove.Gc.Sweep
import Trove.Registry.World

/-!
# Referential safety

A stored manifest must not name a blob whose row is gone. The sweep's re-check and its delete are
one store call, and a PUT looks every blob up before it stores its edges; but the look-up and the
store are two calls, and nothing holds the row in between.
-/

namespace Trove.Gc

open Meta Lib Registry

/-- Every config and layer edge of every stored manifest names an existing blob row. -/
def EdgesHaveRows (s : Store) : Prop :=
  ∀ k m refs, s.manifests.lookup k = some m → s.refs.lookup k = some refs →
    ∀ r ∈ refs, r.kind.isBlob = true → (s.blobs.lookup r.child).isSome

instance (s : Store) : Decidable (EdgesHaveRows s) :=
  decidable_of_iff (∀ e ∈ s.refs.entries, (s.manifests.lookup e.1).isSome →
      ∀ r ∈ e.2, r.kind.isBlob = true → (s.blobs.lookup r.child).isSome) <| by
    constructor
    · intro h k m refs hm hrefs
      exact h ⟨k, refs⟩ (AList.mem_lookup_iff.mp hrefs) (by simp [hm])
    · rintro h ⟨k, refs⟩ he hm
      obtain ⟨m, hm⟩ := Option.isSome_iff_exists.mp hm
      exact h k m refs hm (AList.mem_lookup_iff.mpr he)

/-- The step deletes no row that a PUT in flight has looked up and not yet stored an edge to. -/
def KeepsVerified (w : World) : Action → Prop
  | .stepSweep i => ∀ sw ∈ w.sweeps[i]?, ∀ d ∈ sw.deletes w.shared,
      ∀ p ∈ w.puts, ∀ r ∈ p.refs, r.kind.isBlob = true → r.child ≠ d
  | _ => True

instance (w : World) (a : Action) : Decidable (KeepsVerified w a) := by
  cases a <;> dsimp only [KeepsVerified] <;> infer_instance

/-! ## One step -/

structure Referenced (w : World) : Prop where
  stored : EdgesHaveRows w.shared.store
  verified : ∀ p ∈ w.puts, ∀ r ∈ p.refs, r.kind.isBlob = true → w.shared.HasRow r.child

variable {s s' : Store} {w w' : World}

theorem EdgesHaveRows.of_rows (h : EdgesHaveRows s) (hm : s'.manifests = s.manifests)
    (hr : s'.refs = s.refs) (hrw : ∀ d, (s.blobs.lookup d).isSome → (s'.blobs.lookup d).isSome) :
    EdgesHaveRows s' := by
  intro k m refs hk hrf r hmem hkn
  rw [hm] at hk
  rw [hr] at hrf
  exact hrw _ (h k m refs hk hrf r hmem hkn)

theorem Referenced.of_rows (h : Referenced w) (hpt : w'.puts = w.puts)
    (hm : w'.shared.store.manifests = w.shared.store.manifests)
    (hr : w'.shared.store.refs = w.shared.store.refs)
    (hrw : ∀ d, w.shared.HasRow d → w'.shared.HasRow d) : Referenced w' := by
  refine ⟨h.stored.of_rows hm hr hrw, fun p hp r hmem hkn => hrw _ ?_⟩
  rw [hpt] at hp
  exact h.verified p hp r hmem hkn

theorem Referenced.of_quiet {sh : Shared} {pushes : List Push} {starts : List Start}
    {sweeps : List Sweep} (h : Referenced w) (hq : w.shared.Quiet sh) :
    Referenced ⟨sh, w.puts, pushes, starts, sweeps⟩ := by
  refine h.of_rows rfl hq.manifests hq.refs fun d hd => ?_
  rw [Shared.HasRow, hq.rows]
  exact hd

theorem edgesHaveRows_putManifest {m : Manifest} {refs : List ManifestRef} (h : EdgesHaveRows s)
    (hrf : ∀ r ∈ refs, r.kind.isBlob = true → (s.blobs.lookup r.child).isSome)
    (hput : s.putManifest m refs = .ok s') : EdgesHaveRows s' := by
  obtain rfl := Store.putManifest_ok hput
  intro k m' refs' hk hr
  rcases AList.lookup_insert_eq_some.mp hr with ⟨-, rfl⟩ | ⟨hne, hr⟩
  · exact hrf
  · rw [Table.lookup_insert, if_neg hne] at hk
    exact h k m' refs' hk hr

theorem edgesHaveRows_deleteManifest {repo : String} {d : Digest} (h : EdgesHaveRows s)
    (hdel : s.deleteManifest repo d = .ok s') : EdgesHaveRows s' := by
  obtain ⟨-, rfl⟩ := Store.deleteManifest_ok hdel
  intro k m refs hk hr
  obtain ⟨hne, hr⟩ := AList.lookup_erase_eq_some.mp hr
  rw [Table.lookup_erase, if_neg hne] at hk
  exact h k m refs hk hr

theorem edgesHaveRows_erase {blob : Blob} {before : Time} (h : EdgesHaveRows s)
    (hsw : s.sweepable blob before = true) :
    EdgesHaveRows { s with blobs := s.blobs.erase blob.digest } := by
  intro k m refs hk hr r hmem hkn
  have hne : r.child ≠ blob.digest := by
    intro heq
    have hyes : s.referencedAsBlob blob.digest = true :=
      Store.referencedAsBlob_eq_true.mpr ⟨k, refs, hr, r, hmem, heq, hkn⟩
    simp [(Store.sweepable_eq_true.mp hsw).2.1] at hyes
  rw [Table.lookup_erase, if_neg hne]
  exact h k m refs hk hr r hmem hkn

theorem Referenced.step {digestOf : String → Blob.Content → Digest} {a : Action} (h : Referenced w)
    (hsf : KeepsVerified w a) (hst : w.step digestOf a = some w') : Referenced w' := by
  cases World.step_of_eq_some hst with
  | arrive hsh hpt hps hsp =>
    refine ⟨hsh ▸ h.stored, fun p hp r hmem hkn => ?_⟩
    rw [hsh]
    rcases hpt p hp with hp | hrt
    · exact h.verified p hp r hmem hkn
    · simp [Put.refs, hrt] at hmem
  | call a =>
    rcases Shared.call_cases w.shared a with ⟨repo, d, s', hdel, hcl⟩ | hq
    · rw [hcl]
      refine ⟨edgesHaveRows_deleteManifest h.stored hdel, fun p hp r hmem hkn => ?_⟩
      obtain ⟨-, rfl⟩ := Store.deleteManifest_ok hdel
      exact h.verified p hp r hmem hkn
    · exact h.of_quiet hq
  | @put i p p' sh hp hput =>
    have hvr := h.verified p (List.mem_of_getElem? hp)
    rcases Put.step_cases hput with ⟨rfl, hrf⟩ | ⟨hnil, s', hsr, rfl⟩ | ⟨hnil, tags, rfl⟩
    · refine ⟨h.stored, forall_mem_set h.verified fun r hmem hkn => ?_⟩
      rcases hrf r hmem with hmem | hrow
      · exact hvr r hmem hkn
      · exact hrow.hasRow hkn
    · refine ⟨edgesHaveRows_putManifest h.stored hvr hsr, ?_⟩
      obtain rfl := Store.putManifest_ok hsr
      exact forall_mem_set h.verified (by simp [hnil])
    · exact ⟨h.stored, forall_mem_set h.verified (by simp [hnil])⟩
  | push hp hph =>
    obtain ⟨-, ⟨hq, -⟩ | ⟨-, -, bytes', content, rfl, -⟩ | ⟨-, size, at_, s', -, hrow, rfl⟩ |
      ⟨-, -, rfl⟩⟩ := Push.step_cases hph
    · exact h.of_quiet hq
    · exact h.of_rows rfl rfl rfl fun _ => id
    · rcases Store.putBlob_ok hrow with ⟨-, rfl⟩ | ⟨-, rfl⟩
      · exact h.of_rows rfl rfl rfl fun _ => id
      · refine h.of_rows rfl rfl rfl fun d hd => ?_
        change ((w.shared.store.blobs.insert _).lookup d).isSome
        rw [Table.lookup_insert]
        split_ifs
        · rfl
        · exact hd
    · exact h.of_rows rfl rfl rfl fun _ => id
  | start hp hsa =>
    rcases Start.step_cases hsa with hq | ⟨m, -, rfl⟩
    · exact h.of_quiet hq
    · exact h.of_rows rfl rfl rfl fun _ => id
  | @sweep i sw sw' sh hsw hse =>
    rcases Sweep.step_cases hse with ⟨rfl, -⟩ | ⟨blob, hdel, -, hold, -, rfl⟩ | ⟨d, -, -, rfl⟩
    · exact h.of_rows rfl rfl rfl fun _ => id
    · refine ⟨edgesHaveRows_erase h.stored hold, fun p hp r hmem hkn => ?_⟩
      -- the sweep's own re-check saw the stored edges; the verified ones are the condition
      have hne : r.child ≠ blob.digest := hsf sw hsw blob.digest hdel p hp r hmem hkn
      change ((w.shared.store.blobs.erase blob.digest).lookup r.child).isSome
      rw [Table.lookup_erase, if_neg hne]
      exact h.verified p hp r hmem hkn
    · exact h.of_rows rfl rfl rfl fun _ => id

/-! ## Whole runs -/

/-- **Referential safety.** From a store whose edges have their rows, every run in which no sweep
deletes a row between a PUT's look-up of it and the store of its edge ends in such a store. -/
theorem edgesHaveRows_of_run (digestOf : String → Blob.Content → Digest) (w w' : World)
    (as : List Action) (hstart : EdgesHaveRows w.shared.store) (hputs : w.puts = [])
    (hsafe : Along (World.step digestOf) KeepsVerified w as)
    (hrun : exec (World.step digestOf) w as = some w') : EdgesHaveRows w'.shared.store := by
  have hin : Referenced w := ⟨hstart, by simp [hputs]⟩
  exact (exec_invariant (fun _ _ _ h hok hs => h.step hok hs) hin hsafe hrun).stored

/-! ## The window -/

/-- A hosted entity `team` and one blob that nothing references, two days after its push. -/
def oldBlobWorld : World where
  shared := {
    store := { Store.empty with
      repos := Table.insert ⟨"team", .hosted, [], 1, 1, 1⟩ ∅
      blobs := Table.insert ⟨Blob.repeated 'a', 3, 1⟩ ∅ }
    bytes := { Blob.Store.empty with blobs := AList.insert (Blob.repeated 'a') [1, 2, 3] ∅ }
    clock := 2 * defaultGrace + 1
    log := [] }
  puts := []
  pushes := []
  starts := []
  sweeps := []

def putOfOldBlob : PutRequest where
  name := "team/api"
  tag := some "v1"
  digest := Blob.repeated 'b'
  payload := [0]
  parsed := ⟨"application/vnd.oci.image.manifest.v1+json", "", none,
    some ⟨"application/vnd.oci.image.config.v1+json", Blob.repeated 'a', 3, false⟩, [], []⟩

/-- The PUT looks the blob up, a sweep lists it and deletes its row, and the PUT stores its edge. -/
def verifiedThenSwept : List Action :=
  [.put putOfOldBlob, .stepPut 0, .stepPut 0, .sweep (defaultGrace + 1) "" 256, .stepSweep 0,
    .stepSweep 0, .stepPut 0, .stepPut 0, .stepPut 0]

/-- The manifest is stored and its config has no row. -/
theorem edge_without_row :
    EdgesHaveRows oldBlobWorld.shared.store ∧
      ∃ w' ∈ exec (World.step fun _ _ => Blob.repeated 'a') oldBlobWorld verifiedThenSwept,
        ¬ EdgesHaveRows w'.shared.store := by
  decide

/-- The PUT stores its edge before the sweep lists, and the sweep keeps the row. -/
def storedThenSwept : List Action :=
  [.put putOfOldBlob, .stepPut 0, .stepPut 0, .stepPut 0, .stepPut 0, .stepPut 0,
    .sweep (defaultGrace + 1) "" 256, .stepSweep 0, .stepPut 0]

theorem edgesHaveRows_of_run_stored_first :
    ∃ w' ∈ exec (World.step fun _ _ => Blob.repeated 'a') oldBlobWorld storedThenSwept,
      w'.shared.HasRow (Blob.repeated 'a') ∧ EdgesHaveRows w'.shared.store := by
  have hgo : ∃ w' ∈ exec (World.step fun _ _ => Blob.repeated 'a') oldBlobWorld storedThenSwept,
      w'.shared.HasRow (Blob.repeated 'a') := by decide
  obtain ⟨w', hrun, hrow⟩ := hgo
  exact ⟨w', hrun, hrow, edgesHaveRows_of_run (fun _ _ => Blob.repeated 'a') oldBlobWorld w'
    storedThenSwept (by decide) rfl (by decide) hrun⟩

end Trove.Gc
