import Trove.Gc.References

/-!
# Every blob row has its bytes

A push stores the bytes and then the row; the collector deletes the row and then the bytes. Each
order is right on its own. Together they need more, because storing bytes that are there already
writes nothing: a collection of the same digest that falls into a push's window takes the bytes the
push relies on.
-/

namespace Trove.Gc

open Meta Lib Registry Table

/-- Every hosted blob row has its bytes in the hosted blob store. -/
def RowsHaveBytes (sh : Shared) : Prop := ∀ d, sh.HasRow d → sh.HasBytes d

instance (sh : Shared) : Decidable (RowsHaveBytes sh) :=
  decidable_of_iff (∀ blob ∈ sh.store.blobs.values, sh.HasBytes blob.digest) <| by
    constructor
    · intro h d hd
      obtain ⟨blob, hrow⟩ := Option.isSome_iff_exists.mp hd
      obtain rfl := key_of_lookup hrow
      exact h blob (mem_values.mpr hrow)
    · intro h blob hmem
      exact h _ (Option.isSome_iff_exists.mpr ⟨blob, mem_values.mp hmem⟩)

/-- A digest's row is not deleted between a push's storing of the bytes and its writing of the row,
and no push stores the bytes between the delete of the row and that of the bytes. -/
def KeepsApart (w : World) : Action → Prop
  | .stepSweep i => ∀ sw ∈ w.sweeps[i]?, ∀ d ∈ sw.deletes w.shared,
      ∀ p ∈ w.pushes, p.stored = true → p.request.digest ≠ d
  | .stepPush i => ∀ p ∈ w.pushes[i]?, p.phase = .bytes →
      ∀ sw ∈ w.sweeps, sw.reclaiming ≠ some p.request.digest
  | _ => True

instance (w : World) : (a : Action) → Decidable (KeepsApart w a)
  | .stepSweep i => inferInstanceAs (Decidable (∀ sw ∈ w.sweeps[i]?, ∀ d ∈ sw.deletes w.shared,
      ∀ p ∈ w.pushes, p.stored = true → p.request.digest ≠ d))
  | .stepPush i => inferInstanceAs (Decidable (∀ p ∈ w.pushes[i]?, p.phase = .bytes →
      ∀ sw ∈ w.sweeps, sw.reclaiming ≠ some p.request.digest))
  | .tick _ | .put _ | .push _ | .start _ | .sweep _ _ _ | .stepPut _ | .stepStart _
  | .deleteManifest _ _ | .patch _ _ | .cancel _ | .deleteUpload _ =>
    inferInstanceAs (Decidable True)

/-! ## One step -/

/-- Rows have their bytes, and so have pushes about to write theirs; a digest whose bytes are about
to go has no row and no such push. -/
structure Backed (w : World) : Prop where
  rows : RowsHaveBytes w.shared
  stored : ∀ p ∈ w.pushes, p.stored = true → w.shared.HasBytes p.request.digest
  reclaiming : ∀ sw ∈ w.sweeps, ∀ d, sw.reclaiming = some d →
    ¬ w.shared.HasRow d ∧ ∀ p ∈ w.pushes, p.stored = true → p.request.digest ≠ d

variable {w : World} {i : ℕ} {p p' : Push}

section

variable (h : Backed w)
include h

variable {w' : World} {sh : Shared} {sw' : Sweep} {d : Digest}

theorem Backed.of_same (hrw : w'.shared.store.blobs = w.shared.store.blobs)
    (hby : w'.shared.bytes.blobs = w.shared.bytes.blobs) (hps : ∀ p ∈ w'.pushes, p.stored = true →
      ∃ q ∈ w.pushes, q.stored = true ∧ q.request = p.request)
    (hsp : ∀ sw ∈ w'.sweeps, ∀ d, sw.reclaiming = some d →
      ∃ sw₀ ∈ w.sweeps, sw₀.reclaiming = some d) : Backed w' := by
  have hrow : ∀ d, w'.shared.HasRow d ↔ w.shared.HasRow d := fun d => by
    rw [Shared.HasRow, hrw, ← Shared.HasRow]
  have hbt : ∀ d, w'.shared.HasBytes d ↔ w.shared.HasBytes d := fun d => by
    rw [Shared.HasBytes, hby, ← Shared.HasBytes]
  refine ⟨fun d hd => (hbt d).mpr (h.rows d ((hrow d).mp hd)), fun p hp hst => ?_,
    fun sw hsw d hd => ?_⟩
  · obtain ⟨q, hq, hqst, hreq⟩ := hps p hp hst
    exact (hbt _).mpr (hreq ▸ h.stored q hq hqst)
  · obtain ⟨sw₀, hsw₀, hd₀⟩ := hsp sw hsw d hd
    obtain ⟨hno, hall⟩ := h.reclaiming sw₀ hsw₀ d hd₀
    refine ⟨fun hr => hno ((hrow d).mp hr), fun p hp hst => ?_⟩
    obtain ⟨q, hq, hqst, hreq⟩ := hps p hp hst
    exact hreq ▸ hall q hq hqst

theorem Backed.of_shared {puts : List Put} {starts : List Start}
    (hrw : sh.store.blobs = w.shared.store.blobs) (hby : sh.bytes.blobs = w.shared.bytes.blobs) :
    Backed ⟨sh, puts, w.pushes, starts, w.sweeps⟩ :=
  h.of_same hrw hby (fun p hp hst => ⟨p, hp, hst, rfl⟩) fun sw hsw _ hd => ⟨sw, hsw, hd⟩

theorem Backed.of_push (hp : w.pushes[i]? = some p) (hreq : p'.request = p.request)
    (hst : p'.stored = true → p.stored = true) (hrw : sh.store.blobs = w.shared.store.blobs)
    (hby : sh.bytes.blobs = w.shared.bytes.blobs) :
    Backed { w with shared := sh, pushes := w.pushes.set i p' } := by
  refine h.of_same hrw hby ?_ fun sw hsw _ hd => ⟨sw, hsw, hd⟩
  exact forall_mem_set (fun q hq hqst => ⟨q, hq, hqst, rfl⟩) fun hst' =>
    ⟨p, List.mem_of_getElem? hp, hst hst', hreq.symm⟩

theorem Backed.publish {bytes' : Blob.Store} {content : Blob.Content}
    (hreq : p'.request = p.request)
    (hbl : bytes'.blobs = (w.shared.bytes.publish p.request.digest content).blobs)
    (hsf : ∀ sw ∈ w.sweeps, sw.reclaiming ≠ some p.request.digest) :
    Backed { w with shared := { w.shared with bytes := bytes' }, pushes := w.pushes.set i p' } := by
  have hgr : ∀ d, w.shared.HasBytes d → (bytes'.blobs.lookup d).isSome := fun d hd => by
    rw [hbl]
    exact Blob.Store.lookup_publish_of_isSome hd
  refine ⟨fun d hd => hgr d (h.rows d hd),
    forall_mem_set (fun q hq hst => hgr _ (h.stored q hq hst)) fun _ => ?_, fun sw hsw d hd => ?_⟩
  · change (bytes'.blobs.lookup p'.request.digest).isSome
    rw [hbl, hreq]
    exact Blob.Store.lookup_publish_self _ _
  · obtain ⟨hno, hall⟩ := h.reclaiming sw hsw d hd
    refine ⟨hno, forall_mem_set hall fun _ => ?_⟩
    rintro rfl
    exact hsf sw hsw (hreq ▸ hd)

theorem Backed.record {blob : Blob} (hp : w.pushes[i]? = some p)
    (hst : p.stored = true) (hst' : p'.stored = false) (hbl : blob.digest = p.request.digest) :
    Backed { w with
      shared := { w.shared with
        store := { w.shared.store with blobs := w.shared.store.blobs.insert blob } }
      pushes := w.pushes.set i p' } := by
  have hmem : p ∈ w.pushes := List.mem_of_getElem? hp
  refine ⟨fun d hd => ?_, forall_mem_set h.stored (by simp [hst']), fun sw hsw d hd => ?_⟩
  · rw [Shared.HasRow, lookup_insert] at hd
    split_ifs at hd with heq
    · exact heq ▸ hbl ▸ h.stored p hmem hst
    · exact h.rows d hd
  · obtain ⟨hno, hall⟩ := h.reclaiming sw hsw d hd
    refine ⟨fun hrow => ?_, forall_mem_set hall (by simp [hst'])⟩
    rw [Shared.HasRow, lookup_insert] at hrow
    split_ifs at hrow with heq
    · exact hall p hmem hst (heq ▸ hbl.symm)
    · exact hno hrow

theorem Backed.sweepRow {log : List Event} (hsw' : sw'.reclaiming = some d)
    (hsf : ∀ p ∈ w.pushes, p.stored = true → p.request.digest ≠ d) :
    Backed { w with
      shared := { w.shared with
        store := { w.shared.store with blobs := w.shared.store.blobs.erase d }
        log := log }
      sweeps := w.sweeps.set i sw' } := by
  refine ⟨fun d' hd' => ?_, h.stored, forall_mem_set (fun sw hsw d' hd' => ?_) fun d' hd' => ?_⟩
  · rw [Shared.HasRow, lookup_erase] at hd'
    split_ifs at hd' with heq
    · cases hd'
    · exact h.rows d' hd'
  · obtain ⟨hno, hall⟩ := h.reclaiming sw hsw d' hd'
    refine ⟨fun hrow => hno ?_, hall⟩
    rw [Shared.HasRow, lookup_erase] at hrow
    split_ifs at hrow with heq
    · cases hrow
    · exact hrow
  · obtain rfl : d = d' := Option.some.inj (hsw'.symm.trans hd')
    exact ⟨by simp [Shared.HasRow, lookup_erase], hsf⟩

theorem Backed.reclaim {sw : Sweep} (hsw : w.sweeps[i]? = some sw) (hd : sw.reclaiming = some d)
    (hsw' : sw'.reclaiming = none) :
    Backed { w with
      shared := { w.shared with
        bytes := { w.shared.bytes with blobs := w.shared.bytes.blobs.erase d } }
      sweeps := w.sweeps.set i sw' } := by
  obtain ⟨hno, hall⟩ := h.reclaiming sw (List.mem_of_getElem? hsw) d hd
  have hkp : ∀ d', d' ≠ d → w.shared.HasBytes d' →
      ((w.shared.bytes.blobs.erase d).lookup d').isSome := fun d' hne hb => by
    rw [AList.lookup_erase_ne hne]
    exact hb
  refine ⟨fun d' hd' => hkp d' ?_ (h.rows d' hd'),
    fun p hp hst => hkp _ (hall p hp hst) (h.stored p hp hst),
    forall_mem_set h.reclaiming (by simp [hsw'])⟩
  rintro rfl
  exact hno hd'

theorem Backed.step {digestOf : String → Blob.Content → Digest} {a : Action} (hsf : KeepsApart w a)
    (hsp : w.step digestOf a = some w') : Backed w' := by
  cases World.step_of_eq_some hsp with
  | arrive hsh hpt hps hss =>
    refine h.of_same (by rw [hsh]) (by rw [hsh]) (fun p hp hst => ?_) fun sw hsw d hd => ?_
    · rcases hps p hp with hp | hrt
      · exact ⟨p, hp, hst, rfl⟩
      · simp [Push.stored, hrt] at hst
    · rcases hss sw hsw with hsw | hnn
      · exact ⟨sw, hsw, hd⟩
      · simp [hnn] at hd
  | call a =>
    rcases Shared.call_cases w.shared a with ⟨repo, d, s', hdel, hcl⟩ | hq
    · obtain ⟨-, rfl⟩ := Store.deleteManifest_ok hdel
      rw [hcl]
      exact h.of_shared rfl rfl
    · exact h.of_shared hq.rows hq.bytes
  | put hp hput =>
    rcases Put.step_cases hput with ⟨rfl, -⟩ | ⟨-, s', hsr, rfl⟩ | ⟨-, tags, rfl⟩
    · exact h.of_shared rfl rfl
    · obtain rfl := Store.putManifest_ok hsr
      exact h.of_shared rfl rfl
    · exact h.of_shared rfl rfl
  | @push i p p' sh hp hph =>
    obtain ⟨hreq, ⟨hq, hst⟩ | ⟨hpa, -, bytes', content, rfl, hbl⟩ |
      ⟨hst', size, at_, s', hpa, hrow, rfl⟩ | ⟨-, hst', rfl⟩⟩ := Push.step_cases hph
    · exact h.of_push hp hreq hst hq.rows hq.bytes
    · exact h.publish hreq hbl (hsf p hp hpa)
    · rcases Store.putBlob_ok hrow with ⟨-, rfl⟩ | ⟨-, rfl⟩
      · exact h.of_push hp hreq (by simp [hst']) rfl rfl
      · exact h.record hp (by simp [Push.stored, hpa]) hst' rfl
    · exact h.of_push hp hreq (by simp [hst']) rfl rfl
  | start hp hsa =>
    rcases Start.step_cases hsa with hq | ⟨m, -, rfl⟩
    · exact h.of_shared hq.rows hq.bytes
    · exact h.of_shared rfl rfl
  | @sweep i sw sw' sh hsw hse =>
    rcases Sweep.step_cases hse with ⟨rfl, hnn⟩ | ⟨blob, hdel, -, -, hsw', rfl⟩ |
      ⟨d, hd, hsw', rfl⟩
    · refine h.of_same rfl rfl (fun p hp hst => ⟨p, hp, hst, rfl⟩) ?_
      exact forall_mem_set (fun sw hsw _ hd => ⟨sw, hsw, hd⟩) (by simp [hnn])
    · exact h.sweepRow hsw' (hsf sw hsw blob.digest hdel)
    · exact h.reclaim hsw hd hsw'

end

/-! ## Whole runs -/

/-- **Rows have bytes.** From a state in which every blob row has its bytes, every run that keeps
the collection of a digest and the pushes of it apart ends in such a state. -/
theorem rowsHaveBytes_of_run (digestOf : String → Blob.Content → Digest) (w w' : World)
    (as : List Action) (hstart : RowsHaveBytes w.shared) (hpushes : w.pushes = [])
    (hsweeps : w.sweeps = []) (hsafe : Along (World.step digestOf) KeepsApart w as)
    (hrun : exec (World.step digestOf) w as = some w') : RowsHaveBytes w'.shared := by
  have hin : Backed w := ⟨hstart, by simp [hpushes], by simp [hsweeps]⟩
  exact (exec_invariant (fun _ _ _ h hok hs => h.step hok hs) hin hsafe hrun).rows

/-! ## The overlap -/

def pushOfOldBlob : PushRequest := ⟨"team/api", Blob.repeated 'a', [1, 2, 3], none⟩

/-- The push finds the bytes stored and writes nothing, a sweep deletes the old row and the bytes,
and the push writes its row. -/
def storedThenReclaimed : List Action :=
  [.push pushOfOldBlob, .stepPush 0, .stepPush 0, .sweep (defaultGrace + 1) "" 256, .stepSweep 0,
    .stepSweep 0, .stepSweep 0, .stepPush 0, .stepPush 0, .stepPush 0]

/-- The push is acknowledged and its row has no bytes. -/
theorem row_without_bytes :
    RowsHaveBytes oldBlobWorld.shared ∧
      ∃ w' ∈ exec (World.step fun _ _ => Blob.repeated 'a') oldBlobWorld storedThenReclaimed,
        .acked (Blob.repeated 'a') (2 * defaultGrace + 1) ∈ w'.shared.log ∧
          ¬ RowsHaveBytes w'.shared := by
  decide +kernel

/-- The sweep is through with the digest before the push stores its bytes. -/
def reclaimedThenStored : List Action :=
  [.push pushOfOldBlob, .stepPush 0, .sweep (defaultGrace + 1) "" 256, .stepSweep 0, .stepSweep 0,
    .stepSweep 0, .stepPush 0, .stepPush 0, .stepPush 0, .stepPush 0]

theorem rowsHaveBytes_of_run_reclaimed_first :
    ∃ w' ∈ exec (World.step fun _ _ => Blob.repeated 'a') oldBlobWorld reclaimedThenStored,
      w'.shared.HasRow (Blob.repeated 'a') ∧ RowsHaveBytes w'.shared := by
  have hgo : ∃ w' ∈ exec (World.step fun _ _ => Blob.repeated 'a') oldBlobWorld reclaimedThenStored,
      w'.shared.HasRow (Blob.repeated 'a') := by decide +kernel
  obtain ⟨w', hrun, hrow⟩ := hgo
  exact ⟨w', hrun, hrow, rowsHaveBytes_of_run (fun _ _ => Blob.repeated 'a') oldBlobWorld w'
    reclaimedThenStored (by decide +kernel) rfl rfl (by decide +kernel) hrun⟩

end Trove.Gc
