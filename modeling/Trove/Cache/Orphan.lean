import Trove.Cache.Budget
import Trove.Lib.Run

/-!
# Reclaiming orphaned bytes

Bytes that no proxy has a row for are collected by a walk over the blob store and deleted after it.
Sweeps and orphan passes run in any order, with any of their calls failing; bytes go only when
nothing claims them.
-/

namespace Trove.Cache

open Lib Meta List

structure Descriptor where
  digest : Digest
  size : ℤ

def World.stored (w : World) : List Descriptor :=
  w.blobs.blobs.entries.map fun blob => ⟨blob.1, blob.2.length⟩

/-- The order of a walk. -/
structure WalkOrder where
  arrange : List Descriptor → List Descriptor
  perm : ∀ l, (arrange l).Perm l

/-- What one orphan pass did. -/
structure OrphanResult where
  scanned : ℕ := 0
  reclaimed : ℕ := 0
  bytes : ℤ := 0
  failed : ℕ := 0
  truncated : Bool := false

/-- How an orphan pass fails. -/
inductive OrphanError
  | walk (fault : Fault)
  | countClaims (digest : Digest) (fault : Fault)
  | context

section Pass

variable (fails : ℕ → Option Fault) (e : Evictor)

/-- The walk: it collects what nothing claims, up to the bound. Each step of it may fail, and so may
its end. -/
def collectOrphans : List Descriptor → List Descriptor → OrphanResult → World →
    Option OrphanError × List Descriptor × OrphanResult × World
  | [], orphans, result, w =>
    match fails w.calls with
    | some fault => (some (.walk fault), orphans, result, w.tick)
    | none => (none, orphans, result, w.tick)
  | desc :: rest, orphans, result, w =>
    match fails w.calls with
    | some fault => (some (.walk fault), orphans, result, w.tick)
    | none =>
      let result := { result with scanned := result.scanned + 1 }
      match fails w.tick.calls with
      | some fault => (some (.countClaims desc.digest fault), orphans, result, w.tick.tick)
      | none =>
        if w.store.blobClaims desc.digest > 0 then
          collectOrphans rest orphans result w.tick.tick
        else if ((orphans ++ [desc]).length : ℤ) ≥ e.maxOrph then
          (none, orphans ++ [desc], { result with truncated := true }, w.tick.tick)
        else collectOrphans rest (orphans ++ [desc]) result w.tick.tick

/-- Whether the bytes are gone. -/
def reclaimOrphan (desc : Descriptor) (w : World) : Bool × World :=
  match Blob.parseDigest desc.digest with
  | .error _ => (false, w)
  | .ok _ =>
    match w.deleteBytes fails desc.digest with
    | (.error (.other _), w) => (false, w)
    | (.ok (), w) | (.error .notFound, w) =>
      (true, publishEvicted e ⟨"", desc.digest, desc.size, .orphan⟩ w)

def reclaimOrphans : List Descriptor → OrphanResult → World →
    Option OrphanError × OrphanResult × World
  | [], result, w => (none, result, w)
  | desc :: rest, result, w =>
    match fails w.calls with
    | some _ => (some .context, result, w.tick)
    | none =>
      match reclaimOrphan fails e desc w.tick with
      | (false, w) => reclaimOrphans rest { result with failed := result.failed + 1 } w
      | (true, w) =>
        reclaimOrphans rest { result with
          reclaimed := result.reclaimed + 1
          bytes := result.bytes + desc.size } w

def sweepOrphans (order : WalkOrder) (w : World) : Option OrphanError × OrphanResult × World :=
  match collectOrphans fails e (order.arrange w.stored) [] {} w with
  | (some err, _, result, w) => (some err, result, w)
  | (none, orphans, result, w) => reclaimOrphans fails e orphans result w

end Pass

/-! ## Bytes and claims -/

def World.Holds (w : World) (digest : Digest) : Prop := (w.blobs.blobs.lookup digest).isSome = true

def World.Claimed (w : World) (digest : Digest) : Prop :=
  ∃ b ∈ w.store.cachedBlobs.values, b.digest = digest

def World.Backed (w : World) : Prop := ∀ digest, w.Claimed digest → w.Holds digest

theorem blobClaims_pos_iff {w : World} {digest : Digest} :
    0 < w.store.blobClaims digest ↔ w.Claimed digest := by
  rw [Memory.blobClaims, length_pos_iff_exists_mem]
  simp [World.Claimed]

theorem isSome_lookup_delete {blobs blobs' : Blob.Store} {digest : Digest}
    (h : blobs.delete digest = .ok blobs') (d : Digest) :
    (blobs'.blobs.lookup d).isSome = true ↔
      d ≠ digest ∧ (blobs.blobs.lookup d).isSome = true := by
  obtain rfl := Blob.Store.delete_ok h
  by_cases hd : d = digest
  · subst hd
    simp
  · rw [AList.lookup_erase_ne hd]
    simp [hd]

/-- Rows and bytes only go, and bytes go when nothing claims them. -/
structure Safe (w w' : World) : Prop where
  calls : w.calls ≤ w'.calls
  rows : ∀ b ∈ w'.store.cachedBlobs.values, b ∈ w.store.cachedBlobs.values
  bytes : ∀ digest, w'.Holds digest → w.Holds digest
  lost : ∀ digest, w.Holds digest → ¬ w'.Holds digest → ¬ w'.Claimed digest
  deleted : ∃ added, w'.deletions = w.deletions ++ added ∧ (∀ p ∈ added, p.2 = 0) ∧
    ∀ digest, w.Holds digest → ¬ w'.Holds digest → (digest, 0) ∈ added

namespace Safe

variable {w w₁ w₂ w' : World}

theorem claimed (h : Safe w w') {digest : Digest} (hcl : w'.Claimed digest) :
    w.Claimed digest := by
  obtain ⟨b, hb, rfl⟩ := hcl
  exact ⟨b, h.rows b hb, rfl⟩

theorem trans (h : Safe w w₁) (h' : Safe w₁ w₂) : Safe w w₂ where
  calls := h.calls.trans h'.calls
  rows := fun b hb => h.rows b (h'.rows b hb)
  bytes := fun digest hd => h.bytes digest (h'.bytes digest hd)
  lost := by
    intro digest hbf haf hcl
    by_cases hmid : w₁.Holds digest
    · exact h'.lost digest hmid haf hcl
    · exact h.lost digest hbf hmid (h'.claimed hcl)
  deleted := by
    obtain ⟨added, had, hfr, hls⟩ := h.deleted
    obtain ⟨added', had', hfr', hls'⟩ := h'.deleted
    refine ⟨added ++ added', by rw [had', had, append_assoc], ?_, ?_⟩
    · intro p hp
      exact (mem_append.mp hp).elim (hfr p) (hfr' p)
    · intro digest hbf haf
      by_cases hmid : w₁.Holds digest
      · exact mem_append_right _ (hls' digest hmid haf)
      · exact mem_append_left _ (hls digest hbf hmid)

theorem of_rows (hcl : w.calls ≤ w'.calls)
    (hrw : ∀ b ∈ w'.store.cachedBlobs.values, b ∈ w.store.cachedBlobs.values)
    (hbl : w'.blobs = w.blobs) (hdl : w'.deletions = w.deletions) : Safe w w' where
  calls := hcl
  rows := hrw
  bytes := fun digest hd => by rwa [World.Holds, hbl] at hd
  lost := fun digest hbf haf => by
    rw [World.Holds, hbl] at haf
    exact absurd hbf haf
  deleted := by
    refine ⟨[], by rw [hdl, append_nil], by simp, fun digest hbf haf => ?_⟩
    rw [World.Holds, hbl] at haf
    exact absurd hbf haf

theorem refl (w : World) : Safe w w := of_rows le_rfl (fun _ hb => hb) rfl rfl

theorem tick (w : World) : Safe w w.tick := of_rows (Nat.le_succ _) (fun _ hb => hb) rfl rfl

theorem publish (e : Evictor) (event : Evicted) (h : Safe w w') :
    Safe w (publishEvicted e event w') := by
  unfold publishEvicted
  split_ifs
  · exact h.trans (of_rows le_rfl (fun _ hb => hb) rfl rfl)
  · exact h

theorem backed (h : Safe w w') (hbc : w.Backed) : w'.Backed := by
  intro digest hcl
  by_contra hgn
  exact h.lost digest (hbc digest (h.claimed hcl)) hgn hcl

theorem deleteBytes (fails : ℕ → Option Fault) {digest : Digest} (hfr : ¬ w.Claimed digest) :
    Safe w (w.deleteBytes fails digest).2 := by
  unfold World.deleteBytes
  split
  · exact tick w
  split
  · rename_i blobs hdl
    have hgn : ∀ d, (blobs.blobs.lookup d).isSome = true ↔ d ≠ digest ∧ w.Holds d :=
      isSome_lookup_delete hdl
    refine ⟨Nat.le_succ _, fun b hb => hb, fun d hd => ((hgn d).mp hd).2, ?_, ?_⟩
    · intro d hbf haf
      have heq : d = digest := by
        by_contra hne
        exact haf ((hgn d).mpr ⟨hne, hbf⟩)
      rwa [heq]
    · refine ⟨[(digest, w.store.blobClaims digest)], rfl, ?_, ?_⟩
      · intro p hp
        rw [mem_singleton.mp hp]
        exact Nat.eq_zero_of_not_pos (mt blobClaims_pos_iff.mp hfr)
      · intro d hbf haf
        have heq : d = digest := by
          by_contra hne
          exact haf ((hgn d).mpr ⟨hne, hbf⟩)
        rw [heq, Nat.eq_zero_of_not_pos (mt blobClaims_pos_iff.mp hfr)]
        exact mem_singleton_self _
  · exact tick w
  · exact tick w

end Safe

/-! ## Sweeps -/

section Sweeps

variable (fails : ℕ → Option Fault) (e : Evictor)

theorem answer_eq_ok {α : Type} {fault : Option Fault} {reply : Except Meta.Error α} {a : α}
    (h : answer fault reply = .ok a) : reply = .ok a := by
  unfold answer at h
  split at h
  · cases h
  · split at h
    · cases h
      rfl
    · cases h
    · cases h

theorem evictManifest_safe (item : CachedItem) (st : Sweeping) :
    Safe st.world (evictManifest fails e item st).2.world := by
  unfold evictManifest
  split
  · rename_i store han
    have hdl := answer_eq_ok han
    unfold Memory.deleteCachedManifest at hdl
    split_ifs at hdl
    cases hdl
    exact Safe.publish e _ (.of_rows (Nat.le_succ _) (fun _ hb => hb) rfl rfl)
  · exact Safe.tick _
  · exact Safe.tick _

theorem evictBlob_safe (item : CachedItem) (st : Sweeping) :
    Safe st.world (evictBlob fails e item st).2.world := by
  unfold evictBlob
  split
  · exact Safe.tick _
  · exact Safe.tick _
  · rename_i remaining store han
    have hdl := answer_eq_ok han
    unfold Memory.deleteCachedBlob at hdl
    split_ifs at hdl
    cases hdl
    have hrow : Safe st.world { st.world.tick with
        store := { st.world.store with
          cachedBlobs := st.world.store.cachedBlobs.erase (item.repository, item.digest) } } :=
      .of_rows (Nat.le_succ _) (fun b hb => (Table.mem_values_erase.mp hb).2) rfl rfl
    refine Safe.publish e _ ?_
    split_ifs with hrm
    · exact hrow
    · unfold reclaim
      split
      · exact hrow
      · -- the row was the last claim on the bytes
        exact hrow.trans (Safe.deleteBytes fails (mt blobClaims_pos_iff.mpr hrm))

theorem evictItem_safe (item : CachedItem) (st : Sweeping) :
    Safe st.world (evictItem fails e item st).2.world := by
  unfold evictItem
  split
  · exact evictManifest_safe fails e item st
  · exact evictBlob_safe fails e item st
  · exact Safe.refl _

theorem evictPage_safe (target : ℤ) (items : List CachedItem) (after : ℤ) (st : Sweeping) :
    Safe st.world (evictPage fails e target items after st).2.2.world := by
  induction items generalizing after st with
  | nil => exact Safe.refl _
  | cons item items ih =>
    rw [evictPage]
    split_ifs
    · exact Safe.refl _
    split
    · exact Safe.tick _
    have him := (Safe.tick st.world).trans (evictItem_safe fails e item st.tick)
    split
    · rename_i st' hev
      rw [hev] at him
      exact him.trans (ih _ _)
    · rename_i st' hev
      rw [hev] at him
      exact him.trans (ih _ _)

theorem evictPages_safe (entity : String) (target : ℤ) (fuel : ℕ) (after : ℤ) (st : Sweeping) :
    Safe st.world (evictPages fails e entity target fuel after st).2.2.world := by
  induction fuel generalizing after st with
  | zero => exact Safe.refl _
  | succ fuel ih =>
    rw [evictPages]
    split_ifs
    · exact Safe.refl _
    split
    · exact Safe.tick _
    split
    · exact Safe.tick _
    rename_i item items hls
    have hpg := (Safe.tick st.world).trans
      (evictPage_safe fails e target (item :: items) after st.tick)
    split
    · rename_i err left st' hev
      rw [hev] at hpg
      exact hpg
    · rename_i left st' hev
      rw [hev] at hpg
      split_ifs
      · exact hpg
      · exact hpg.trans (ih _ _)

theorem sweepScope_safe (fuel : ℕ) (entity : String) (budget : ℤ) (st : Sweeping) :
    Safe st.world (sweepScope fails e fuel entity budget st).2.world := by
  unfold sweepScope
  split_ifs
  · exact Safe.refl _
  split
  · exact Safe.tick _
  dsimp only
  split_ifs
  · exact Safe.tick _
  · exact (Safe.tick st.world).trans
      (evictPages_safe fails e entity (e.target budget) fuel _ st.tick)

theorem sweepScopes_safe (fuel : ℕ) (passes : List (String × ℤ)) (st : Sweeping) :
    Safe st.world (sweepScopes fails e fuel passes st).2.world := by
  induction passes generalizing st with
  | nil => exact Safe.refl _
  | cons pass passes ih =>
    obtain ⟨entity, budget⟩ := pass
    rw [sweepScopes]
    have hsc := sweepScope_safe fails e fuel entity budget st
    split
    · rename_i st' hsw
      rw [hsw] at hsc
      exact hsc.trans (ih _)
    · exact hsc

theorem sweep_safe (fuel : ℕ) (w : World) : Safe w (sweep fails e fuel w).2.world :=
  sweepScopes_safe fails e fuel e.passes ⟨w, {}⟩

end Sweeps

/-! ## Orphan passes -/

section Orphans

variable (fails : ℕ → Option Fault) (e : Evictor)

def Quiet (w w' : World) : Prop := ∀ n, w.calls ≤ n → n < w'.calls → fails n = none

/-- The same cache, some calls later. -/
structure Later (w w' : World) : Prop where
  calls : w.calls < w'.calls
  store : w'.store = w.store
  blobs : w'.blobs = w.blobs
  deletions : w'.deletions = w.deletions

theorem Later.tick (w : World) : Later w w.tick := ⟨Nat.lt_succ_self _, rfl, rfl, rfl⟩

variable {w w' : World} {result : OrphanResult} {err : Option OrphanError}

variable {w₁ w₂ : World} {result' : OrphanResult} {orphans : List Descriptor} {digest : Digest}

theorem Later.trans (h : Later w w₁) (h' : Later w₁ w₂) : Later w w₂ :=
  ⟨h.calls.trans h'.calls, h'.store.trans h.store, h'.blobs.trans h.blobs,
    h'.deletions.trans h.deletions⟩

theorem Later.safe (h : Later w w') : Safe w w' :=
  .of_rows h.calls.le (fun b hb => by rwa [h.store] at hb) h.blobs h.deletions

theorem Later.claimed_iff (h : Later w w') (digest : Digest) :
    w'.Claimed digest ↔ w.Claimed digest := by
  rw [World.Claimed, World.Claimed, h.store]

theorem Quiet.of_later {fails : ℕ → Option Fault} (h : Quiet fails w w₂) (hlt : Later w w₁) :
    Quiet fails w₁ w₂ := fun n hn => h n (hlt.calls.le.trans hn)

/-- What a walk collects: only what nothing claims; and when no call of it failed and the bound was
not reached, all of it. -/
theorem collectOrphans_spec {descs orphans' : List Descriptor}
    (h : collectOrphans fails e descs orphans result w = (err, orphans', result', w'))
    (hor : ∀ d ∈ orphans, ¬ w.Claimed d.digest) :
    Later w w' ∧ (∀ d ∈ orphans', ¬ w.Claimed d.digest) ∧ result'.failed = result.failed ∧
      (Quiet fails w w' → result'.truncated = false → err = none ∧ (∀ d ∈ orphans, d ∈ orphans') ∧
        ∀ d ∈ descs, ¬ w.Claimed d.digest → d ∈ orphans') := by
  induction descs generalizing orphans result w with
  | nil =>
    rw [collectOrphans] at h
    split at h
    · rename_i fault hfl
      cases h
      refine ⟨.tick w, hor, rfl, fun hqt => ?_⟩
      rw [hqt w.calls le_rfl (Nat.lt_succ_self _)] at hfl
      cases hfl
    · cases h
      exact ⟨.tick w, hor, rfl, fun _ _ => ⟨rfl, fun d hd => hd, by simp⟩⟩
  | cons desc descs ih =>
    rw [collectOrphans] at h
    split at h
    · rename_i fault hfl
      cases h
      refine ⟨.tick w, hor, rfl, fun hqt => ?_⟩
      rw [hqt w.calls le_rfl (Nat.lt_succ_self _)] at hfl
      cases hfl
    have htw : Later w w.tick.tick := (Later.tick w).trans (.tick w.tick)
    split at h
    · rename_i fault hfl
      cases h
      refine ⟨htw, hor, rfl, fun hqt => ?_⟩
      rw [hqt w.tick.calls (Nat.le_succ _) (Nat.lt_succ_self _)] at hfl
      cases hfl
    split_ifs at h with hcl hbn
    · obtain ⟨hlt, hfr, hfd, hall⟩ := ih h fun d hd =>
        mt (htw.claimed_iff d.digest).mp (hor d hd)
      refine ⟨htw.trans hlt, hfr, hfd, fun hqt hwh => ?_⟩
      obtain ⟨hnn, hkp, hls⟩ := hall (hqt.of_later htw) hwh
      refine ⟨hnn, hkp, fun d hd hd' => ?_⟩
      rcases mem_cons.mp hd with rfl | hd
      · exact absurd (blobClaims_pos_iff.mp hcl) hd'
      · exact hls d hd hd'
    · cases h
      refine ⟨htw, ?_, rfl, fun _ hwh => by cases hwh⟩
      exact forall_mem_concat hor (mt blobClaims_pos_iff.mpr hcl)
    · obtain ⟨hlt, hfr, hfd, hall⟩ := ih h fun d hd => by
        exact forall_mem_concat hor (mt blobClaims_pos_iff.mpr hcl) d hd
      refine ⟨htw.trans hlt, hfr, hfd, fun hqt hwh => ?_⟩
      obtain ⟨hnn, hkp, hls⟩ := hall (hqt.of_later htw) hwh
      refine ⟨hnn, fun d hd => hkp d (mem_append_left _ hd), fun d hd hd' => ?_⟩
      rcases mem_cons.mp hd with rfl | hd
      · exact hkp d (by simp)
      · exact hls d hd hd'

theorem deleteBytes_frame (digest : Digest) (w : World) :
    (w.deleteBytes fails digest).2.store = w.store ∧
      (w.deleteBytes fails digest).2.calls = w.calls + 1 := by
  unfold World.deleteBytes
  repeat' split
  all_goals exact ⟨rfl, rfl⟩

theorem not_holds_deleteBytes {fails : ℕ → Option Fault} (hcl : fails w.calls = none)
    (hdg : (Blob.parseDigest digest).isOk = true) :
    ¬ (w.deleteBytes fails digest).2.Holds digest := by
  unfold World.deleteBytes
  rw [hcl]
  cases hdl : w.blobs.delete digest with
  | ok blobs => exact fun hhl => ((isSome_lookup_delete hdl digest).mp hhl).1 rfl
  | error err =>
    obtain ⟨hex, hpr⟩ := isOk_iff.mp hdg
    rw [Blob.Store.delete, hpr] at hdl
    split_ifs at hdl with hnn
    cases hdl
    intro hhl
    rw [Option.isNone_iff_eq_none] at hnn
    rw [World.Holds, show (w.tick).blobs.blobs.lookup digest = none from hnn] at hhl
    cases hhl

theorem publishEvicted_frame (event : Evicted) (w : World) :
    (publishEvicted e event w).store = w.store ∧ (publishEvicted e event w).blobs = w.blobs ∧
      (publishEvicted e event w).calls = w.calls := by
  unfold publishEvicted
  split_ifs <;> exact ⟨rfl, rfl, rfl⟩

theorem reclaimOrphan_spec {desc : Descriptor} {gone : Bool}
    (h : reclaimOrphan fails e desc w = (gone, w')) (hfr : ¬ w.Claimed desc.digest) :
    Safe w w' ∧ w'.store = w.store ∧
      (Quiet fails w w' → gone = true → ¬ w'.Holds desc.digest) := by
  unfold reclaimOrphan at h
  split at h
  · cases h
    exact ⟨.refl _, rfl, fun _ hgn => by cases hgn⟩
  rename_i hex hpr
  have hsf := Safe.deleteBytes fails hfr
  obtain ⟨hst, hcl⟩ := deleteBytes_frame fails desc.digest w
  have hdl : fails w.calls = none → ¬ (w.deleteBytes fails desc.digest).2.Holds desc.digest :=
    fun hca => not_holds_deleteBytes hca (by rw [hpr]; rfl)
  split at h
  · rename_i text w₁ hdt
    cases h
    rw [hdt] at hsf hst
    exact ⟨hsf, hst, fun _ hgn => by cases hgn⟩
  all_goals
    rename_i w₁ hdt
    cases h
    rw [hdt] at hsf hst hcl hdl
    obtain ⟨hpb, hbl, htc⟩ :=
      publishEvicted_frame e ⟨"", desc.digest, desc.size, .orphan⟩ w₁
    refine ⟨hsf.publish e _, hpb.trans hst, fun hqt _ => ?_⟩
    rw [World.Holds, hbl]
    refine hdl (hqt w.calls le_rfl ?_)
    rw [htc, hcl]
    exact Nat.lt_succ_self _

theorem reclaimOrphans_spec (h : reclaimOrphans fails e orphans result w = (err, result', w'))
    (hfr : ∀ d ∈ orphans, ¬ w.Claimed d.digest) :
    Safe w w' ∧ w'.store = w.store ∧ result'.truncated = result.truncated ∧
      result.failed ≤ result'.failed ∧
      (Quiet fails w w' → result'.failed = result.failed →
        ∀ d ∈ orphans, ¬ w'.Holds d.digest) := by
  induction orphans generalizing result w with
  | nil =>
    simp only [reclaimOrphans, Prod.mk.injEq] at h
    obtain ⟨-, rfl, rfl⟩ := h
    exact ⟨.refl w, rfl, rfl, le_rfl, by simp⟩
  | cons desc orphans ih =>
    rw [reclaimOrphans] at h
    split at h
    · rename_i fault hfl
      cases h
      refine ⟨.tick w, rfl, rfl, le_rfl, fun hqt => ?_⟩
      rw [hqt w.calls le_rfl (Nat.lt_succ_self _)] at hfl
      cases hfl
    cases hrc : reclaimOrphan fails e desc w.tick with
    | mk gone w₁ =>
      obtain ⟨hsf, hst, hgn⟩ := reclaimOrphan_spec fails e hrc
        (mt ((Later.tick w).claimed_iff _).mp (hfr desc mem_cons_self))
      rw [hrc] at h
      have hsp := (Safe.tick w).trans hsf
      have hrs : ∀ d ∈ orphans, ¬ w₁.Claimed d.digest := fun d hd hcl =>
        hfr d (mem_cons_of_mem _ hd) (hsp.claimed hcl)
      cases gone with
      | false =>
        obtain ⟨hsf', hst', htr, hfd, -⟩ := ih h hrs
        refine ⟨hsp.trans hsf', hst'.trans hst, htr, ?_, fun _ hsm => ?_⟩
        · exact (Nat.le_succ _).trans hfd
        · dsimp only at hfd
          omega
      | true =>
        obtain ⟨hsf', hst', htr, hfd, hall⟩ := ih h hrs
        refine ⟨hsp.trans hsf', hst'.trans hst, htr, hfd, ?_⟩
        intro hqt hsm
        have hquiet₁ : Quiet fails w.tick w₁ := fun n hn hlt =>
          hqt n ((Nat.le_succ _).trans hn) (hlt.trans_le hsf'.calls)
        have hquiet₂ : Quiet fails w₁ w' := fun n hn => hqt n (hsp.calls.trans hn)
        refine forall_mem_cons.mpr ⟨fun hhl => ?_, hall hquiet₂ hsm⟩
        exact hgn hquiet₁ rfl (hsf'.bytes _ hhl)

theorem mem_stored_of_holds (h : w.Holds digest) : ∃ d ∈ w.stored, d.digest = digest := by
  obtain ⟨content, hcn⟩ := Option.isSome_iff_exists.mp h
  exact ⟨⟨digest, content.length⟩,
    mem_map.mpr ⟨⟨digest, content⟩, AList.mem_lookup_iff.mp hcn, rfl⟩, rfl⟩

/-- **An orphan pass.** It deletes only what nothing claims; and when no call of it failed, no blob
was refused and the bound was not reached, what is left is claimed. -/
theorem sweepOrphans_spec (order : WalkOrder)
    (h : sweepOrphans fails e order w = (err, result, w')) :
    Safe w w' ∧ w'.store = w.store ∧
      (Quiet fails w w' → result.failed = 0 → result.truncated = false →
        ∀ digest, w'.Holds digest → w'.Claimed digest) := by
  unfold sweepOrphans at h
  cases hcl : collectOrphans fails e (order.arrange w.stored) [] {} w with
  | mk stopped collected =>
    obtain ⟨orphans, counted, w₁⟩ := collected
    obtain ⟨hlr, hfr, hcn, hall⟩ := collectOrphans_spec fails e hcl (by simp)
    rw [hcl] at h
    cases stopped with
    | some err' =>
      cases h
      refine ⟨hlr.safe, hlr.store, fun hqt _ htr => ?_⟩
      cases (hall hqt htr).1
    | none =>
      obtain ⟨hsf, hst, htr, hfl, hgn⟩ := reclaimOrphans_spec fails e h
        fun d hd => mt (hlr.claimed_iff _).mp (hfr d hd)
      refine ⟨hlr.safe.trans hsf, hst.trans hlr.store,
        fun hqt hzr hwh digest hhl => ?_⟩
      have hquiet₁ : Quiet fails w w₁ := fun n hn hlt => hqt n hn (hlt.trans_le hsf.calls)
      have hquiet₂ : Quiet fails w₁ w' := hqt.of_later hlr
      by_contra hun
      have hunclaimed₀ : ¬ w.Claimed digest := fun hcm => hun (by
        rwa [World.Claimed, hst, hlr.store])
      -- the walk came past the blob, collected it, and its bytes were deleted
      have hhd : w.Holds digest := (hlr.safe.trans hsf).bytes digest hhl
      obtain ⟨d, hd, rfl⟩ := mem_stored_of_holds hhd
      have hls := (hall hquiet₁ (htr ▸ hwh)).2.2 d
        ((order.perm _).mem_iff.mpr hd) hunclaimed₀
      refine hgn hquiet₂ ?_ d hls hhl
      rw [hcn]
      exact hzr

/-! ## Sequences of sweeps -/

/-- A sweep or an orphan pass. -/
inductive Task
  | sweep (e : Evictor) (fuel : ℕ)
  | orphans (e : Evictor) (order : WalkOrder)

def World.perform (w : World) : Task → World
  | .sweep e fuel => (Cache.sweep fails e fuel w).2.world
  | .orphans e order => (sweepOrphans fails e order w).2.2

/-- One after another. -/
def World.performAll (w : World) (tasks : List Task) : World :=
  tasks.foldl (fun w task => w.perform fails task) w

theorem perform_safe (task : Task) (w : World) : Safe w (w.perform fails task) := by
  cases task with
  | sweep e fuel => exact sweep_safe fails e fuel w
  | orphans e order => exact (sweepOrphans_spec fails e order rfl).1

theorem performAll_safe (tasks : List Task) (w : World) : Safe w (w.performAll fails tasks) := by
  induction tasks generalizing w with
  | nil => exact .refl w
  | cons task tasks ih => exact (perform_safe fails task w).trans (ih _)

end Orphans

/-- **Byte safety.** From a cache whose every blob row has its bytes, sweeps and orphan passes one
after another, with any calls failing, leave every blob row its bytes. Bytes are deleted only when
no row claims them. An orphan pass in which no call fails, no blob is refused and which is not cut
short leaves exactly the bytes that are claimed. -/
theorem cache_bytes_safe (fails : ℕ → Option Fault) (w : World) (hbacked : w.Backed)
    (tasks : List Task) :
    let w' := w.performAll fails tasks
    w'.Backed ∧
      (∃ added, w'.deletions = w.deletions ++ added ∧ (∀ p ∈ added, p.2 = 0) ∧
        ∀ digest, w.Holds digest → ¬ w'.Holds digest → (digest, 0) ∈ added) ∧
      ∀ e order, let pass := sweepOrphans fails e order w'
        Quiet fails w' pass.2.2 → pass.2.1.failed = 0 → pass.2.1.truncated = false →
          ∀ digest, pass.2.2.Holds digest ↔ pass.2.2.Claimed digest := by
  intro w'
  have hsf : Safe w w' := performAll_safe fails tasks w
  refine ⟨hsf.backed hbacked, hsf.deleted, fun e order => ?_⟩
  intro pass hqt hfl hwh digest
  obtain ⟨hps, -, hec⟩ :=
    sweepOrphans_spec fails e order (rfl : sweepOrphans fails e order w' = _)
  exact ⟨hec hqt hfl hwh digest, hps.backed (hsf.backed hbacked) digest⟩

def leftBehind : World where
  store := Memory.empty.run id [.createRepository ⟨"hub", .proxy, [], 0, 0, 0⟩,
    .putCachedBlob ⟨"hub/app", Blob.repeated 'a', 2, 1, 1⟩]
  blobs := ⟨AList.insert (Blob.repeated 'b') [0] (AList.insert (Blob.repeated 'a') [1, 2] ∅), ∅⟩
  calls := 0
  events := []
  deletions := []

def asStored : WalkOrder := ⟨id, fun l => List.Perm.refl l⟩

/-- After a sweep that finds the cache within its budget, an orphan pass leaves the one layer. -/
theorem cache_bytes_safe_leftBehind :
    leftBehind.Backed ∧
      let w := leftBehind.performAll noFailures [.sweep (fiveBytes 2) 3]
      ∀ digest, (sweepOrphans noFailures (fiveBytes 2) asStored w).2.2.Holds digest ↔
        (sweepOrphans noFailures (fiveBytes 2) asStored w).2.2.Claimed digest := by
  have hbc : leftBehind.Backed := by
    rintro digest ⟨b, hb, rfl⟩
    have hrw : leftBehind.store.cachedBlobs.values =
        [⟨"hub/app", Blob.repeated 'a', 2, 1, 1⟩] := by decide +kernel
    rw [mem_singleton.mp hb]
    show (leftBehind.blobs.blobs.lookup (Blob.repeated 'a')).isSome = true
    decide +kernel
  refine ⟨hbc, ?_⟩
  obtain ⟨-, -, hps⟩ :=
    cache_bytes_safe noFailures leftBehind hbc [.sweep (fiveBytes 2) 3]
  exact hps (fiveBytes 2) asStored (fun _ _ _ => rfl) (by decide +kernel) (by decide +kernel)

end Trove.Cache
