import Trove.Cache.Evict
import Trove.Lib.Drain

/-!
# A sweep of a scope within its budget

With no failures and nothing else writing, a pass drains the scope's rows from the cold end, and
keeps the usage itself: what it takes is what `drain` takes of the list it found. The usage starts
at what the scope occupies and only falls, so its `int64` does not wrap.
-/

namespace Trove.Cache

open Lib Meta List Memory

/-- Every call succeeds. -/
def noFailures : ℕ → Option Fault := fun _ => none

@[simp] theorem noFailures_apply (n : ℕ) : noFailures n = none := rfl

variable {e : Evictor} {entity : String} {target : ℤ}

@[simp] theorem store_publishEvicted (event : Evicted) (w : World) :
    (publishEvicted e event w).store = w.store := by
  unfold publishEvicted
  split_ifs <;> rfl

@[simp] theorem store_reclaim (fails : ℕ → Option Fault) (digest : Digest) (w : World) :
    (reclaim fails digest w).store = w.store := by
  unfold reclaim World.deleteBytes
  repeat' split
  all_goals rfl

/-- Only the first `n` rows of the scope go, and nothing else of the store. -/
structure Took (entity : String) (n : ℕ) (st st' : Sweeping) : Prop where
  rows : st'.world.store.evictable entity = (st.world.store.evictable entity).drop n
  outside : Memory.SameOutside entity st.world.store st'.world.store
  scopes : st'.result.scopes = st.result.scopes

theorem Took.refl (entity : String) (st : Sweeping) : Took entity 0 st st :=
  ⟨rfl, .refl entity _, rfl⟩

variable {n : ℕ} {st : Sweeping} {item : CachedItem}

theorem Took.trans {m : ℕ} {st₁ st₂ st₃ : Sweeping} (h : Took entity m st₁ st₂)
    (h' : Took entity n st₂ st₃) : Took entity (m + n) st₁ st₃ where
  rows := by rw [h'.rows, h.rows, drop_drop]
  outside := h.outside.trans h'.outside
  scopes := h'.scopes.trans h.scopes

theorem Took.tick {st' : Sweeping} (h : Took entity n st.tick st') :
    Took entity n st st' := ⟨h.rows, h.outside, h.scopes⟩

variable {store : Memory} {rest : List CachedItem} {fuel : ℕ}

theorem evictManifest_ok
    (h : st.world.store.deleteCachedManifest item.repository item.digest = .ok store) :
    evictManifest noFailures e item st = (true, {
      world := publishEvicted e ⟨item.repository, item.digest, item.size, .budget⟩
        { st.world.tick with store := store }
      result := { st.result with
        manifests := st.result.manifests + 1
        bytes := st.result.bytes + item.size } }) := by
  rw [evictManifest, noFailures_apply, h]
  rfl

theorem evictBlob_ok {remaining : ℕ}
    (h : st.world.store.deleteCachedBlob item.repository item.digest = .ok (remaining, store)) :
    ∃ st', evictBlob noFailures e item st = (true, st') ∧ st'.world.store = store ∧
      st'.result.scopes = st.result.scopes := by
  rw [evictBlob, noFailures_apply, h]
  refine ⟨_, rfl, ?_, ?_⟩
  · dsimp only
    split_ifs <;> simp
  · dsimp only
    split_ifs <;> rfl

/-- **One row.** The first row of the scope is deleted, and the pass counts it. -/
theorem evictItem_first (e : Evictor) (hrw : st.world.store.evictable entity = item :: rest) :
    ∃ st', evictItem noFailures e item st = (true, st') ∧ Took entity 1 st st' := by
  have hmem : item ∈ st.world.store.evictable entity := by
    rw [hrw]
    exact mem_cons_self
  rcases mem_evictable.mp hmem with ⟨m, hm, hsc, rfl⟩ | ⟨b, hb, hsc, rfl⟩
  · obtain ⟨store, hdl, hot, -, him⟩ := deleteCachedManifest_item hm hsc
    have hrs := evictable_tail hrw him
    exact ⟨_, evictManifest_ok hdl, by simp [hrs, hrw], by simpa using hot, rfl⟩
  · obtain ⟨store, hdl, hot, him⟩ := deleteCachedBlob_item hb hsc
    have hrs := evictable_tail hrw him
    obtain ⟨st', hev, rfl, hsp⟩ : ∃ st', evictBlob noFailures e b.item st = (true, st') ∧
        st'.world.store = store ∧ st'.result.scopes = st.result.scopes := evictBlob_ok hdl
    exact ⟨st', hev, by rw [hrs, hrw]; rfl, hot, hsp⟩

/-- **One page.** The rows of the page are taken from the front, down to the target. -/
theorem evictPage_eq (e : Evictor) (target after : ℤ) {items : List CachedItem}
    (hrw : st.world.store.evictable entity = items ++ rest) :
    ∃ st', evictPage noFailures e target items after st =
        (.ok (), levelAt CachedItem.size after items (takeDown CachedItem.size target after items),
          st') ∧
      Took entity (takeDown CachedItem.size target after items) st st' := by
  induction items generalizing after st with
  | nil => exact ⟨st, by simp [evictPage, takeDown], .refl entity st⟩
  | cons item items ih =>
    rw [evictPage, takeDown]
    by_cases hlv : after ≤ target
    · rw [if_pos hlv, if_pos hlv]
      exact ⟨st, by simp, .refl entity st⟩
    · rw [if_neg hlv, if_neg hlv, noFailures_apply]
      obtain ⟨st₁, him, htk⟩ : ∃ st₁, evictItem noFailures e item st.tick = (true, st₁) ∧
          Took entity 1 st.tick st₁ := evictItem_first e hrw
      have hrs : st₁.world.store.evictable entity = items ++ rest := by
        rw [htk.rows, show st.tick.world.store.evictable entity = _ from hrw]
        rfl
      obtain ⟨st₂, hpg, htk'⟩ := ih (after - item.size) hrs
      refine ⟨st₂, ?_, ?_⟩
      · dsimp only
        rw [him]
        dsimp only
        rw [hpg, levelAt_cons_succ]
      · rw [add_comm]
        exact (htk.trans htk').tick

/-- **All pages.** What the loop takes is what draining the list takes. -/
theorem evictPages_eq (hpg : 1 ≤ e.pageSize) {after : ℤ}
    (hdr : drain CachedItem.size target e.pageSize.toNat fuel after
      (st.world.store.evictable entity) = some n) :
    ∃ st', evictPages noFailures e entity target fuel after st =
        (some (.ok ()), levelAt CachedItem.size after (st.world.store.evictable entity) n, st') ∧
      Took entity n st st' := by
  induction fuel generalizing after st n with
  | zero => cases hdr
  | succ fuel ih =>
    rw [drain] at hdr
    rw [evictPages]
    by_cases hlv : after ≤ target
    · rw [if_pos hlv] at hdr
      cases hdr
      rw [if_pos hlv]
      exact ⟨st, by simp, .refl entity st⟩
    rw [if_neg hlv] at hdr ⊢
    rw [noFailures_apply, listEvictable_eq_take hpg]
    cases hls : (st.world.store.evictable entity).take e.pageSize.toNat with
    | nil =>
      rw [if_pos hls] at hdr
      cases hdr
      exact ⟨st.tick, by simp, (Took.refl entity st.tick).tick⟩
    | cons item items =>
      rw [if_neg (by rw [hls]; simp), hls] at hdr
      dsimp only at hdr ⊢
      obtain ⟨rest, hrs⟩ : ∃ rest, st.tick.world.store.evictable entity = item :: items ++ rest :=
        ⟨_, by rw [← hls]; exact (take_append_drop _ _).symm⟩
      obtain ⟨st₁, hev, htk⟩ := evictPage_eq e target after hrs
      set taken := takeDown CachedItem.size target after (item :: items) with htn
      have hlv' : levelAt CachedItem.size after (item :: items) taken =
          levelAt CachedItem.size after (st.world.store.evictable entity) taken := by
        have hle : taken ≤ (item :: items).length := takeDown_le_length
        rw [← hls, length_take] at hle
        rw [← hls]
        exact levelAt_take (by omega)
      rw [hev, hlv']
      dsimp only
      by_cases hst : levelAt CachedItem.size after (st.world.store.evictable entity) taken = after
      · rw [if_pos hst] at hdr ⊢
        obtain rfl : taken = n := Option.some.inj hdr
        exact ⟨st₁, rfl, htk.tick⟩
      · rw [if_neg hst] at hdr ⊢
        obtain ⟨m, hrs, rfl⟩ := Option.map_eq_some_iff.mp hdr
        have hrw : st₁.world.store.evictable entity =
            (st.world.store.evictable entity).drop taken := htk.rows
        rw [← hrw] at hrs
        obtain ⟨st₂, hps, htk'⟩ := ih hrs
        refine ⟨st₂, ?_, ?_⟩
        · rw [hps, hrw, ← levelAt_add, add_comm]
        · rw [add_comm]
          exact (htk.trans htk').tick

/-! ## A pass -/

/-- What a pass leaves when it took `n` rows. -/
structure Swept (e : Evictor) (entity : String) (budget : ℤ) (n : ℕ) (st st' : Sweeping) :
    Prop where
  rows : st'.world.store.evictable entity = (st.world.store.evictable entity).drop n
  outside : Memory.SameOutside entity st.world.store st'.world.store
  scopes : st'.result.scopes = st.result.scopes ++ [{
    entity := entity
    budget := budget
    target := e.target budget
    before := (st.world.store.cachedUsage entity).bytes
    after := (st'.world.store.cachedUsage entity).bytes }]
  within : (st.world.store.cachedUsage entity).bytes ≤ budget →
    n = 0 ∧ st'.world.store = st.world.store
  drained : budget < (st.world.store.cachedUsage entity).bytes →
    Drained CachedItem.size (e.target budget) e.pageSize.toNat
      (st.world.store.cachedUsage entity).bytes (st.world.store.evictable entity) n

theorem levelAt_usage {s s' : Memory} (hrw : s'.evictable entity = (s.evictable entity).drop n) :
    levelAt CachedItem.size (s.cachedUsage entity).bytes (s.evictable entity) n =
      (s'.cachedUsage entity).bytes := by
  rw [cachedUsage_bytes, cachedUsage_bytes, hrw, levelAt, sub_eq_iff_eq_add',
    ← sum_append, ← map_append, take_append_drop]

/-- **A pass.** It ends within as many pages as the scope has rows and one. -/
theorem sweepScope_eq (hpg : 1 ≤ e.pageSize) {budget : ℤ} (hbd : 0 < budget)
    (hfl : (st.world.store.evictable entity).length < fuel) :
    ∃ st' n, sweepScope noFailures e fuel entity budget st = (some (.ok ()), st') ∧
      Swept e entity budget n st st' := by
  rw [sweepScope, if_neg (not_le.mpr hbd), noFailures_apply]
  by_cases hwt : (st.world.store.cachedUsage entity).bytes ≤ budget
  · rw [if_pos hwt]
    refine ⟨_, 0, rfl, rfl, .refl entity _, rfl, fun _ => ⟨rfl, rfl⟩, fun hov => ?_⟩
    exact absurd hwt (not_le.mpr hov)
  · rw [if_neg hwt]
    obtain ⟨n, hdr, hdn⟩ : ∃ n, drain CachedItem.size (e.target budget) e.pageSize.toNat fuel
        (st.world.store.cachedUsage entity).bytes (st.world.store.evictable entity) = some n ∧
        Drained CachedItem.size (e.target budget) e.pageSize.toNat
          (st.world.store.cachedUsage entity).bytes (st.world.store.evictable entity) n :=
      drain_eq (by omega) hfl
    obtain ⟨st', hps, htk⟩ : ∃ st', evictPages noFailures e entity (e.target budget) fuel
        (st.world.store.cachedUsage entity).bytes st.tick = _ ∧ Took entity n st.tick st' :=
      evictPages_eq hpg hdr
    have hus : levelAt CachedItem.size (st.world.store.cachedUsage entity).bytes
        (st.tick.world.store.evictable entity) n = (st'.world.store.cachedUsage entity).bytes :=
      levelAt_usage htk.rows
    rw [hps, hus]
    refine ⟨_, n, rfl, htk.rows, htk.outside, ?_, fun h => absurd h hwt, fun _ => hdn⟩
    exact congrArg (· ++ _) htk.scopes

/-- **Least recently used, and no more.** A pass over a scope ends. What it removes is the beginning
of the scope's rows in the order of last access, repository, digest and kind; nothing of a scope
within its budget, and nothing once the usage is at most the target. All outside the scope is left
alone, and the usage reported is what is stored. -/
theorem eviction_lru_minimal (e : Evictor) (hpage : 1 ≤ e.pageSize) (entity : String) (budget : ℤ)
    (hbudget : 0 < budget) (st : Sweeping) (fuel : ℕ)
    (hfuel : (st.world.store.evictable entity).length < fuel) :
    ∃ st' n, sweepScope noFailures e fuel entity budget st = (some (.ok ()), st') ∧
      let rows := st.world.store.evictable entity
      let usage := (st.world.store.cachedUsage entity).bytes
      Increasing CachedItem.lru rows ∧ n ≤ rows.length ∧
        st'.world.store.evictable entity = rows.drop n ∧
        (usage ≤ budget → n = 0 ∧ st'.world.store = st.world.store) ∧
        (∀ m < n, e.target budget < usage - ((rows.take m).map CachedItem.size).sum) ∧
        Memory.SameOutside entity st.world.store st'.world.store ∧
        st'.result.scopes = st.result.scopes ++ [⟨entity, budget, e.target budget, usage,
          (st'.world.store.cachedUsage entity).bytes⟩] := by
  obtain ⟨st', n, hsw, hsp⟩ := sweepScope_eq hpage hbudget hfuel
  refine ⟨st', n, hsw, st.world.store.increasing_evictable entity, ?_, hsp.rows,
    hsp.within, fun m hm => ?_, hsp.outside, hsp.scopes⟩
  · rcases le_or_gt (st.world.store.cachedUsage entity).bytes budget with hwt | hov
    · rw [(hsp.within hwt).1]
      exact Nat.zero_le _
    · exact (hsp.drained hov).le_length
  · rcases le_or_gt (st.world.store.cachedUsage entity).bytes budget with hwt | hov
    · rw [(hsp.within hwt).1] at hm
      exact absurd hm (Nat.not_lt_zero m)
    · exact (hsp.drained hov).above m hm

def twoLayers : Sweeping where
  world := {
    store := Memory.empty.run id [.createRepository ⟨"hub", .proxy, [], 0, 0, 0⟩,
      .putCachedBlob ⟨"hub/app", "sha256:empty", 0, 1, 1⟩,
      .putCachedBlob ⟨"hub/app", "sha256:layer", 10, 2, 2⟩]
    blobs := .empty
    calls := 0
    events := []
    deletions := [] }
  result := {}

def fiveBytes (pageSize : ℤ) : Evictor where
  publishes := false
  globalBudget := 5
  perEntity := ∅
  headroom := fun _ => 0
  pageSize := pageSize
  maxOrph := 10

theorem eviction_lru_minimal_twoLayers :
    ∃ st' n, sweepScope noFailures (fiveBytes 2) 3 "hub" 5 twoLayers = (some (.ok ()), st') ∧
      n ≤ (twoLayers.world.store.evictable "hub").length ∧
      st'.world.store.evictable "hub" = (twoLayers.world.store.evictable "hub").drop n := by
  obtain ⟨st', n, hsw, -, hle, hrw, -⟩ :=
    eviction_lru_minimal (fiveBytes 2) (by decide) "hub" 5 (by decide) twoLayers 3
      (by decide +kernel)
  exact ⟨st', n, hsw, hle, hrw⟩

/-- **The goal.** A pass over a scope above its budget ends at the target, or with no row left,
exactly when no whole page of its rows, reached above the target and with rows behind it, adds up to
nothing. -/
theorem eviction_goal_iff (e : Evictor) (hpage : 1 ≤ e.pageSize) (entity : String) (budget : ℤ)
    (hbudget : 0 < budget) (st : Sweeping)
    (hover : budget < (st.world.store.cachedUsage entity).bytes) (fuel : ℕ)
    (hfuel : (st.world.store.evictable entity).length < fuel) :
    ∃ st', sweepScope noFailures e fuel entity budget st = (some (.ok ()), st') ∧
      (((st'.world.store.cachedUsage entity).bytes ≤ e.target budget ∨
          st'.world.store.evictable entity = []) ↔
        ¬ Stalls CachedItem.size (e.target budget) e.pageSize.toNat
          (st.world.store.cachedUsage entity).bytes (st.world.store.evictable entity)) := by
  obtain ⟨st', n, hsw, hsp⟩ := sweepScope_eq hpage hbudget hfuel
  have hdr := hsp.drained hover
  refine ⟨st', hsw, ?_⟩
  rw [← levelAt_usage hsp.rows, hsp.rows, drop_eq_nil_iff]
  constructor
  · rintro hgl hst
    obtain ⟨hsh, hfw⟩ := hdr.short hst
    rcases hgl with hdn | hall
    · exact absurd hdn (not_le.mpr hsh)
    · omega
  · intro hcl
    rcases hdr.ends with hdn | hall | hst
    · exact .inl hdn
    · exact .inr hall.ge
    · exact absurd hst hcl

/-- With pages of one row, the empty layer is a page of its own: the usage does not move, and the
pass gives up with ten bytes stored and a row to evict. -/
theorem eviction_goal_emptyLayer :
    let st := twoLayers
    let swept := sweepScope noFailures (fiveBytes 1) 3 "hub" 5 st
    (fiveBytes 1).target 5 ≤ 5 ∧ 5 < (st.world.store.cachedUsage "hub").bytes ∧
      swept.1 = some (.ok ()) ∧
      (fiveBytes 1).target 5 < (swept.2.world.store.cachedUsage "hub").bytes ∧
      swept.2.world.store.evictable "hub" = [⟨"hub/app", "sha256:layer", .blob, 10, 2⟩] := by
  decide +kernel

/-- Pages of two rows reach the goal. -/
theorem eviction_goal_twoLayers :
    ∃ st', sweepScope noFailures (fiveBytes 2) 3 "hub" 5 twoLayers = (some (.ok ()), st') ∧
      ((st'.world.store.cachedUsage "hub").bytes ≤ (fiveBytes 2).target 5 ∨
        st'.world.store.evictable "hub" = []) := by
  obtain ⟨st', hsw, hgl⟩ := eviction_goal_iff (fiveBytes 2) (by decide) "hub" 5 (by decide)
    twoLayers (by decide +kernel) 3 (by decide +kernel)
  refine ⟨st', hsw, hgl.mpr ?_⟩
  rintro ⟨k, hln, -⟩
  have hrw : (twoLayers.world.store.evictable "hub").length = 2 := by decide +kernel
  have hpg : (fiveBytes 2).pageSize.toNat = 2 := rfl
  rw [hrw, hpg] at hln
  omega

end Trove.Cache
