import Trove.Authn.Window

/-!
# The bound on keys is not noticed

A limiter that never evicts, beside the one that does. A key is known by how far its debt reaches
(`Limiter.reach`). Eviction drops keys that owe nothing first, so while fewer keys than the bound
owe something both limiters have the same reaches (`Same`), and from these their answers.
-/

namespace Trove.Authn

open Meta Lib List Limiter AList

namespace Limiter

variable (l : Limiter) (key : String) (r : Reading)

/-- `bucket` without the bound. -/
def bucketFree : Time × Limiter :=
  match l.buckets.lookup key with
  | some restoredAt => (restoredAt, l)
  | none => (r.now, { l with buckets := l.buckets.insert key r.now })

def peekAt (found : Time × Limiter) : (Bool × ℤ) × Limiter :=
  ((decide (found.2.wait64 found.1 r.now ≤ 0), max (found.2.wait64 found.1 r.now) 0), found.2)

def spendAt (found : Time × Limiter) : (Bool × ℤ) × Limiter :=
  if 0 < found.2.wait64 found.1 r.now then ((false, found.2.wait64 found.1 r.now), found.2)
  else
    ((true, 0), { found.2 with
      buckets := found.2.buckets.insert key (Bucket.spend found.2.cfg.refill found.1 r.now) })

theorem peek64_eq_peekAt : l.peek64 key r = peekAt r (l.bucket key r) := rfl

theorem allow64_eq_spendAt : l.allow64 key r = spendAt key r (l.bucket key r) := rfl

def peekFree : (Bool × ℤ) × Limiter := peekAt r (l.bucketFree key r)

def allowFree : (Bool × ℤ) × Limiter := spendAt key r (l.bucketFree key r)

/-- How many keys carry debt. -/
def owingKeys (now : Time) : ℕ :=
  (l.buckets.restrict fun _ restoredAt => now < restoredAt).keys.length

/-- What has to be waited for. -/
def due (now : Time) : ℤ := max (l.wait (l.reach key now) now) 0

variable {l key r}

variable {now now' : Time}

theorem reach_of_le (h : now ≤ now') : l.reach key now' = max (l.reach key now) now' := by
  unfold reach
  split
  · exact (max_eq_right h).symm
  · exact Bucket.level_of_le _ h

theorem reach_of_lookup {restoredAt : Time} (h : l.buckets.lookup key = some restoredAt)
    (now : Time) : l.reach key now = Bucket.level restoredAt now := by
  unfold reach
  rw [h]

theorem due_anti (h : now ≤ now') : l.due key now' ≤ l.due key now := by
  have htl : 0 ≤ Bucket.tolerance l.cfg.burst l.cfg.refill :=
    mul_nonneg (by have := l.burst_pos; omega) l.refill_pos.le
  unfold due wait Bucket.wait
  rw [reach_of_le h]
  refine max_le ?_ (le_max_right _ _)
  rcases le_total (l.reach key now) now' with hps | hah
  · rw [max_eq_right hps]
    exact le_max_of_le_right (by linarith)
  · rw [max_eq_left hah]
    exact le_max_of_le_left (by linarith)

/-! ## The bucket of a key -/

structure Finds (l : Limiter) (key : String) (r : Reading) (found : Time × Limiter) : Prop where
  cfg : found.2.cfg = l.cfg
  lookup : found.2.buckets.lookup key = some found.1
  level : Bucket.level found.1 r.now = l.reach key r.now
  ahead : found.2.Ahead r.now

theorem finds_bucket (h : l.Ahead r.now) : Finds l key r (l.bucket key r) where
  cfg := cfg_bucket
  lookup := (lookup_bucket_self l key r).1
  level := (lookup_bucket_self l key r).2
  ahead := h.bucket.1

theorem finds_bucketFree (h : l.Ahead r.now) : Finds l key r (l.bucketFree key r) := by
  unfold bucketFree
  cases hkey : l.buckets.lookup key with
  | some t => exact ⟨rfl, hkey, (reach_of_lookup hkey r.now).symm, h⟩
  | none =>
    refine ⟨rfl, lookup_insert _, ?_, fun other t hot => ?_⟩
    · rw [reach, hkey]
      exact max_self _
    · rcases lookup_insert_eq_some.mp hot with ⟨rfl, rfl⟩ | ⟨-, hot⟩
      · exact le_add_of_nonneg_right (mul_nonneg l.burst_pos.le l.refill_pos.le)
      · exact h other t hot

namespace Finds

variable {found : Time × Limiter}

section

variable (h : Finds l key r found)
include h

theorem max_wait64 (hrep : l.cfg.Representable) :
    max (found.2.wait64 found.1 r.now) 0 = l.due key r.now := by
  have hah := h.ahead key found.1 h.lookup
  rw [Limiter.max_wait64 (by rw [h.cfg]; exact hrep) hah, due, ← h.level, wait, wait, h.cfg]
  exact (Bucket.max_wait_level l.burst_pos l.refill_pos found.1 r.now).symm

theorem peekAt_fst (hrep : l.cfg.Representable) :
    (peekAt r found).1 = (decide (l.due key r.now ≤ 0), l.due key r.now) := by
  have hmax := h.max_wait64 hrep
  refine Prod.ext (decide_eq_decide.mpr ?_) hmax
  omega

theorem spendAt_fst (hrep : l.cfg.Representable) :
    (spendAt key r found).1 = if 0 < l.due key r.now then (false, l.due key r.now) else
      (true, 0) := by
  have hmax := h.max_wait64 hrep
  unfold spendAt
  split_ifs with h64 hdue hdue
  · rw [show found.2.wait64 found.1 r.now = l.due key r.now by omega]
  · omega
  · omega
  · rfl

theorem cfg_spendAt : (spendAt key r found).2.cfg = l.cfg := by
  unfold spendAt
  split_ifs <;> exact h.cfg

theorem reach_self {now : Time} (hnow : r.now ≤ now) : found.2.reach key now = l.reach key now := by
  rw [reach_of_le hnow, reach_of_le hnow, reach_of_lookup h.lookup, h.level]

theorem reach_spendAt (hrep : l.cfg.Representable) {now : Time} (hnow : r.now ≤ now) :
    (spendAt key r found).2.reach key now =
      if 0 < l.due key r.now then l.reach key now
      else max (l.reach key r.now + l.cfg.refill) now := by
  have hmax := h.max_wait64 hrep
  unfold spendAt
  split_ifs with h64 hdue hdue
  · exact h.reach_self hnow
  · omega
  · omega
  · have hsp := Bucket.level_spend l.refill_pos found.1 r.now
    rw [reach_of_lookup (lookup_insert _), h.cfg, Bucket.level_of_le _ hnow, hsp, h.level]

theorem lookup_spendAt : ∃ t, (spendAt key r found).2.buckets.lookup key = some t := by
  unfold spendAt
  split_ifs
  · exact ⟨_, h.lookup⟩
  · exact ⟨_, lookup_insert _⟩

end

theorem reach_spendAt_ne {other : String} (hne : other ≠ key) (now : Time) :
    (spendAt key r found).2.reach other now = found.2.reach other now := by
  unfold spendAt
  split_ifs
  · rfl
  · exact reach_congr (lookup_insert_ne hne) now

theorem ahead_spendAt (h : Finds l key r found) (hrep : l.cfg.Representable) :
    (spendAt key r found).2.Ahead r.now := by
  have hmax := Limiter.max_wait64 (by rw [h.cfg]; exact hrep) (h.ahead key found.1 h.lookup)
  unfold spendAt
  split_ifs with h64
  · exact h.ahead
  · intro other t hot
    rcases lookup_insert_eq_some.mp hot with ⟨rfl, rfl⟩ | ⟨-, hot⟩
    · have hwt : found.2.wait found.1 r.now ≤ 0 := by omega
      exact Bucket.spend_le found.2.burst_pos found.2.refill_pos hwt
    · exact h.ahead other t hot

end Finds

/-! ## Eviction -/

variable {buckets : GoMap String Time} {l' : Limiter} {t : Time}

theorem mem_keys_restrict {p : String → Time → Bool} {key : String} :
    key ∈ (buckets.restrict p).keys ↔ ∃ t, buckets.lookup key = some t ∧ p key t = true := by
  rw [← AList.mem_keys, ← AList.lookup_isSome, Option.isSome_iff_exists]
  exact exists_congr fun t => AList.lookup_restrict_eq_some

theorem owingKeys_le (h : ∀ key t, l'.buckets.lookup key = some t →
      now' < t → ∃ t', l.buckets.lookup key = some t' ∧ now < t') :
    l'.owingKeys now' ≤ l.owingKeys now := by
  refine (subperm_of_subset (keys_nodup _) fun key hkey => ?_).length_le
  obtain ⟨t, ht, hlt⟩ := mem_keys_restrict.mp hkey
  obtain ⟨t', ht', hlt'⟩ := h key t ht (of_decide_eq_true hlt)
  exact mem_keys_restrict.mpr ⟨t', ht', decide_eq_true hlt'⟩

theorem owingKeys_mono (h : now ≤ now') : l.owingKeys now' ≤ l.owingKeys now :=
  owingKeys_le fun _ t ht hlt => ⟨t, ht, h.trans_lt hlt⟩

theorem owingKeys_bucket : (l.bucket key r).2.owingKeys r.now ≤ l.owingKeys r.now := by
  refine owingKeys_le fun other t hot hlt => ?_
  unfold bucket at hot
  split at hot
  · exact ⟨t, hot, hlt⟩
  · rcases lookup_insert_eq_some.mp hot with ⟨rfl, rfl⟩ | ⟨-, hot⟩
    · exact absurd hlt (lt_irrefl _)
    · exact ⟨t, lookup_of_evict hot, hlt⟩

theorem reach_evict (h : (l.owingKeys r.now : ℤ) < l.cfg.maxKeys) (other : String) :
    Limiter.reach { l with buckets := l.evict r l.buckets } other r.now = l.reach other r.now := by
  have hdr (passes : ℕ) {buckets : GoMap String Time}
      (hrm : (buckets.keys.length : ℤ) < l.cfg.maxKeys) :
      dropPoorest r l.cfg.maxKeys passes buckets = buckets := by
    cases passes with
    | zero => rfl
    | succ passes => rw [dropPoorest, if_pos hrm]
  unfold evict reach
  split_ifs with hrm
  · rfl
  · rw [hdr _ h]
    cases hkp : (l.buckets.restrict fun _ t => decide (r.now < t)).lookup other with
    | some t =>
      rw [(AList.lookup_restrict_eq_some.mp hkp).1]
    | none =>
      cases hot : l.buckets.lookup other with
      | none => rfl
      | some t =>
        have hle : t ≤ r.now := by
          by_contra hlt
          have hsm : (l.buckets.restrict fun _ t => decide (r.now < t)).lookup other = some t :=
            AList.lookup_restrict_eq_some.mpr ⟨hot, decide_eq_true (not_le.mp hlt)⟩
          cases hkp.symm.trans hsm
        exact (max_eq_right hle).symm

def Spares (l : Limiter) (key : String) (r : Reading) (found : Time × Limiter) : Prop :=
  ∀ other, other ≠ key → found.2.reach other r.now = l.reach other r.now

theorem spares_bucketFree : Spares l key r (l.bucketFree key r) := by
  intro other hne
  unfold bucketFree
  split
  · rfl
  · exact reach_congr (lookup_insert_ne hne) r.now

theorem spares_bucket (h : (l.owingKeys r.now : ℤ) < l.cfg.maxKeys) :
    Spares l key r (l.bucket key r) := by
  intro other hne
  unfold bucket
  split
  · rfl
  · rw [← reach_evict h other]
    exact reach_congr (lookup_insert_ne hne) r.now

theorem spares_bucket_of_lookup (h : l.buckets.lookup key = some t) :
    Spares l key r (l.bucket key r) := by
  intro other _
  rw [bucket_of_lookup h]

/-! ## Two limiters with the same reaches -/

/-- Every key's debt is the same. -/
structure Same (now : Time) (l l' : Limiter) : Prop where
  cfg : l.cfg = l'.cfg
  reach : ∀ key, l.reach key now = l'.reach key now

theorem Same.mono (h : Same now l l') (hle : now ≤ now') : Same now' l l' where
  cfg := h.cfg
  reach key := by rw [reach_of_le hle, reach_of_le hle, h.reach]

section Same

variable {l' : Limiter} {found found' : Time × Limiter}

theorem Same.due (h : Same r.now l l') : l.due key r.now = l'.due key r.now := by
  rw [Limiter.due, Limiter.due, h.reach, wait, wait, h.cfg]

theorem Same.peekAt (h : Same r.now l l') (hrep : l'.cfg.Representable) (hf : Finds l key r found)
    (hf' : Finds l' key r found') (hs : Spares l key r found) (hs' : Spares l' key r found') :
    (peekAt r found).1 = (peekAt r found').1 ∧ Same r.now (peekAt r found).2
      (peekAt r found').2 := by
  refine ⟨?_, hf.cfg.trans (h.cfg.trans hf'.cfg.symm), fun other => ?_⟩
  · rw [hf.peekAt_fst (by rw [h.cfg]; exact hrep), hf'.peekAt_fst hrep, h.due]
  · show found.2.reach other r.now = found'.2.reach other r.now
    by_cases hot : other = key
    · rw [hot, hf.reach_self le_rfl, hf'.reach_self le_rfl, h.reach]
    · rw [hs other hot, hs' other hot, h.reach]

theorem Same.spendAt (h : Same r.now l l') (hrep : l'.cfg.Representable) (hf : Finds l key r found)
    (hf' : Finds l' key r found') (hs : Spares l key r found) (hs' : Spares l' key r found') :
    (spendAt key r found).1 = (spendAt key r found').1 ∧
      Same r.now (spendAt key r found).2 (spendAt key r found').2 := by
  have hrep' : l.cfg.Representable := by rw [h.cfg]; exact hrep
  refine ⟨?_, hf.cfg_spendAt.trans (h.cfg.trans hf'.cfg_spendAt.symm), fun other => ?_⟩
  · rw [hf.spendAt_fst hrep', hf'.spendAt_fst hrep, h.due]
  · by_cases hot : other = key
    · rw [hot, hf.reach_spendAt hrep' le_rfl, hf'.reach_spendAt hrep le_rfl, h.due, h.reach, h.cfg]
    · rw [Finds.reach_spendAt_ne hot, Finds.reach_spendAt_ne hot, hs other hot,
        hs' other hot, h.reach]

theorem reach_refund :
    (l.refund key r).reach key r.now = max (l.reach key r.now - l.cfg.refill) r.now := by
  have hrf := l.refill_pos
  unfold refund
  cases hkey : l.buckets.lookup key with
  | none =>
    unfold reach
    rw [hkey]
    exact (max_eq_right (by linarith)).symm
  | some t =>
    rw [reach_of_lookup (lookup_insert _), reach_of_lookup hkey]
    exact Bucket.level_refund hrf t le_rfl

theorem reach_refund_ne {other : String} (hne : other ≠ key) (now : Time) :
    (l.refund key r).reach other now = l.reach other now := by
  unfold refund
  split
  · rfl
  · exact reach_congr (lookup_insert_ne hne) now

theorem Same.refund (h : Same r.now l l') : Same r.now (l.refund key r) (l'.refund key r) where
  cfg := cfg_refund.trans (h.cfg.trans cfg_refund.symm)
  reach other := by
    by_cases hot : other = key
    · rw [hot, reach_refund, reach_refund, h.reach, h.cfg]
    · rw [reach_refund_ne hot, reach_refund_ne hot, h.reach]

end Same

/-! ## How many keys are held -/

def Bounded (l : Limiter) : Prop := (l.buckets.keys.length : ℤ) ≤ l.cfg.maxKeys

theorem length_insert_of_lookup (h : buckets.lookup key = some t) (t' : Time) :
    (buckets.insert key t').keys.length = buckets.keys.length := by
  have hmem : key ∈ buckets.keys :=
    AList.mem_keys.mp (AList.lookup_isSome.mp (Option.isSome_iff_exists.mpr ⟨t, h⟩))
  have hpos := length_pos_of_mem hmem
  rw [keys_insert, length_cons, length_erase_of_mem hmem]
  omega

theorem Bounded.bucket (h : l.Bounded) : (l.bucket key r).2.Bounded := by
  unfold Limiter.bucket
  split
  · exact h
  · have hrm := length_evict_lt l r l.buckets
    have hle := length_erase_le (l := (l.evict r l.buckets).keys) (a := key)
    show (((l.evict r l.buckets).insert key r.now).keys.length : ℤ) ≤ l.cfg.maxKeys
    rw [keys_insert, length_cons]
    omega

theorem Bounded.allow64 (h : l.Bounded) : (l.allow64 key r).2.Bounded := by
  rw [allow64_eq_spendAt, Limiter.spendAt]
  split_ifs
  · exact h.bucket
  · show (((l.bucket key r).2.buckets.insert key _).keys.length : ℤ) ≤
      (l.bucket key r).2.cfg.maxKeys
    rw [length_insert_of_lookup (lookup_bucket_self l key r).1]
    exact h.bucket

theorem Bounded.refund (h : l.Bounded) : (l.refund key r).Bounded := by
  unfold Limiter.refund
  split
  · exact h
  · rename_i t hkey
    show ((l.buckets.insert key _).keys.length : ℤ) ≤ l.cfg.maxKeys
    rw [length_insert_of_lookup hkey]
    exact h

end Limiter

/-! ## Attempts -/

namespace AttemptLimiter

variable (env : ℕ → Reading)

/-- `Allow`, with the calls it makes of the limiters. -/
def attempt (peek allow : Limiter → String → Reading → (Bool × ℤ) × Limiter) (a : Attempt)
    (l : AttemptLimiter) : (Bool × ℤ) × AttemptLimiter :=
  let (wait, l) := each env peek a l
  if 0 < wait then ((false, wait), l) else ((true, 0), (each env allow a l).2)

def allow64 (a : Attempt) (l : AttemptLimiter) : (Bool × ℤ) × AttemptLimiter :=
  attempt env Limiter.peek64 Limiter.allow64 a l

def allowFree (a : Attempt) (l : AttemptLimiter) : (Bool × ℤ) × AttemptLimiter :=
  attempt env Limiter.peekFree Limiter.allowFree a l

/-! ### Calls made of two limiters alike -/

/-- The limiters have been read as often, and are related in each dimension when the clock is read
next. -/
structure Paired (rel : Dimension → Time → Limiter → Limiter → Prop) (u l : AttemptLimiter) :
    Prop where
  reads : u.reads = l.reads
  rel : ∀ d, rel d (env l.reads).now (u.limiter d) (l.limiter d)

section Paired

variable {env} {rel : Dimension → Time → Limiter → Limiter → Prop} {u l : AttemptLimiter}

theorem Paired.call {α : Type} (hcl : Monotone fun n => (env n).now)
    (hmn : ∀ d now now' x y, now ≤ now' → rel d now x y → rel d now' x y) (h : Paired env rel u l)
    {f g : Limiter → Reading → α × Limiter} {d : Dimension}
    (hst : ∀ r x y, rel d r.now x y → (f x r).1 = (g y r).1 ∧ rel d r.now (f x r).2 (g y r).2) :
    (AttemptLimiter.call env f d u).1 = (AttemptLimiter.call env g d l).1 ∧
      Paired env rel (AttemptLimiter.call env f d u).2 (AttemptLimiter.call env g d l).2 := by
  have hnx : (env l.reads).now ≤ (env (l.reads + 1)).now := hcl (Nat.le_succ _)
  obtain ⟨han, hrel⟩ := hst (env l.reads) _ _ (h.rel d)
  unfold AttemptLimiter.call
  rw [h.reads]
  refine ⟨han, rfl, fun d' => ?_⟩
  refine hmn d' _ _ _ _ hnx ?_
  by_cases hd : d' = d
  · subst hd
    simpa using hrel
  · simpa [Function.update_of_ne hd] using h.rel d'

theorem Paired.each (hcl : Monotone fun n => (env n).now)
    (hmn : ∀ d now now' x y, now ≤ now' → rel d now x y → rel d now' x y) (h : Paired env rel u l)
    {f g : Limiter → String → Reading → (Bool × ℤ) × Limiter} {a : Attempt}
    (hst : ∀ d r x y, a.key d ≠ "" → rel d r.now x y →
      (f x (a.key d) r).1 = (g y (a.key d) r).1 ∧
        rel d r.now (f x (a.key d) r).2 (g y (a.key d) r).2) :
    (AttemptLimiter.each env f a u).1 = (AttemptLimiter.each env g a l).1 ∧
      Paired env rel (AttemptLimiter.each env f a u).2 (AttemptLimiter.each env g a l).2 := by
  unfold AttemptLimiter.each
  generalize [Dimension.account, Dimension.address] = dims
  generalize (0 : ℤ) = wait
  induction dims generalizing wait u l with
  | nil => exact ⟨rfl, h⟩
  | cons d dims ih =>
    rw [foldl_cons, foldl_cons]
    by_cases hd : a.key d = ""
    · rw [if_pos hd, if_pos hd]
      exact ih h wait
    · obtain ⟨han, hpr⟩ := h.call hcl hmn (fun r x y => hst d r x y hd)
      rw [if_neg hd, if_neg hd]
      dsimp only
      rw [han]
      exact ih hpr _

end Paired

/-! ### The same answers -/

/-- The limiters have the same reaches, none too far ahead. -/
structure Alike (now : Time) (x y : Limiter) : Prop where
  same : Limiter.Same now x y
  aheadFree : x.Ahead now
  ahead : y.Ahead now
  representable : y.cfg.Representable

variable {now now' : Time} {y : Limiter} {d : Dimension}

theorem Alike.mono {x : Limiter} (h : Alike now x y) (hle : now ≤ now') : Alike now' x y where
  same := h.same.mono hle
  aheadFree := h.aheadFree.mono hle
  ahead := h.ahead.mono hle
  representable := h.representable

def Room (now : Time) (y : Limiter) : Prop := (y.owingKeys now : ℤ) < y.cfg.maxKeys

theorem Room.mono (h : Room now y) (hle : now ≤ now') :
    Room now' y := lt_of_le_of_lt (Int.ofNat_le.mpr (owingKeys_mono hle)) h

section Steps

variable {x y : Limiter} {key : String} {r : Reading}

theorem Alike.peek (h : Alike r.now x y) (hrm : Room r.now y) :
    (x.peekFree key r).1 = (y.peek64 key r).1 ∧ Alike r.now (x.peekFree key r).2
      (y.peek64 key r).2 ∧
      Room r.now (y.peek64 key r).2 := by
  have hfr : Limiter.Finds x key r (x.bucketFree key r) := finds_bucketFree h.aheadFree
  have hfn : Limiter.Finds y key r (y.bucket key r) := finds_bucket h.ahead
  obtain ⟨han, hsm⟩ := h.same.peekAt h.representable hfr hfn spares_bucketFree
    (spares_bucket hrm)
  have hcfg : (y.peek64 key r).2.cfg = y.cfg := hfn.cfg
  refine ⟨han, ⟨hsm, hfr.ahead, hfn.ahead, by rw [hcfg]; exact h.representable⟩, ?_⟩
  rw [Room, hcfg]
  exact lt_of_le_of_lt (Int.ofNat_le.mpr owingKeys_bucket) hrm

theorem Alike.spend (h : Alike r.now x y) {t : Time} (hkey : y.buckets.lookup key = some t) :
    (x.allowFree key r).1 = (y.allow64 key r).1 ∧
      Alike r.now (x.allowFree key r).2 (y.allow64 key r).2 := by
  have hfr : Limiter.Finds x key r (x.bucketFree key r) := finds_bucketFree h.aheadFree
  have hfn : Limiter.Finds y key r (y.bucket key r) := finds_bucket h.ahead
  have hrep : x.cfg.Representable := by
    rw [h.same.cfg]
    exact h.representable
  obtain ⟨han, hsm⟩ := h.same.spendAt h.representable hfr hfn spares_bucketFree
    (spares_bucket_of_lookup hkey)
  refine ⟨han, hsm, hfr.ahead_spendAt hrep, hfn.ahead_spendAt h.representable, ?_⟩
  rw [Limiter.allow64_eq_spendAt, hfn.cfg_spendAt]
  exact h.representable

theorem Alike.refund (h : Alike r.now x y) : Alike r.now (x.refund key r) (y.refund key r) where
  same := h.same.refund
  aheadFree := h.aheadFree.refund
  ahead := h.ahead.refund
  representable := by
    rw [cfg_refund]
    exact h.representable

end Steps

theorem each_key (f : Limiter → String → Reading → (Bool × ℤ) × Limiter) (a : Attempt)
    (l : AttemptLimiter) (hd : a.key d ≠ "") :
    ∃ n, l.reads ≤ n ∧ n < (each env f a l).2.reads ∧
      (each env f a l).2.limiter d = (f (l.limiter d) (a.key d) (env n)).2 ∧
      ((f (l.limiter d) (a.key d) (env n)).1.1 = false →
        (f (l.limiter d) (a.key d) (env n)).1.2 ≤ (each env f a l).1) := by
  unfold each call
  by_cases hacc : a.key .account = "" <;> by_cases had : a.key .address = ""
  · cases d <;> contradiction
  · simp only [foldl_cons, foldl_nil, hacc, had, if_true, if_false]
    cases d
    · contradiction
    · exact ⟨l.reads, le_rfl, by omega, by simp, fun h => by simp [h]⟩
  · simp only [foldl_cons, foldl_nil, hacc, had, if_true, if_false]
    cases d
    · exact ⟨l.reads, le_rfl, by omega, by simp, fun h => by simp [h]⟩
    · contradiction
  · simp only [foldl_cons, foldl_nil, hacc, had, if_false]
    cases d
    · refine ⟨l.reads, le_rfl, by omega, by simp, fun h => ?_⟩
      simp only [h, Bool.false_eq_true, if_false]
      split_ifs
      · exact le_max_right _ _
      · exact (le_max_right _ _).trans (le_max_left _ _)
    · refine ⟨l.reads + 1, by omega, by omega, by simp, fun h => ?_⟩
      simp [h]

variable {env} {u l : AttemptLimiter} {a : Attempt}

theorem allow_alike (hcl : Monotone fun n => (env n).now) (h : Paired env (fun _ => Alike) u l)
    (hrm : ∀ d, Room (env l.reads).now (l.limiter d)) :
    (u.allowFree env a).1 = (l.allow64 env a).1 ∧
      Paired env (fun _ => Alike) (u.allowFree env a).2 (l.allow64 env a).2 := by
  -- the keys are peeked at while there is room
  have hst : Paired env (fun _ now x y => Alike now x y ∧ Room now y) u l :=
    ⟨h.reads, fun d => ⟨h.rel d, hrm d⟩⟩
  obtain ⟨hwt, hpk⟩ := hst.each hcl
    (fun _ _ _ _ _ hle hrel => ⟨hrel.1.mono hle, hrel.2.mono hle⟩)
    (f := Limiter.peekFree) (g := Limiter.peek64) (a := a)
      (fun _ _ _ _ _ hrel => hrel.1.peek hrel.2)
  unfold allowFree allow64 attempt
  dsimp only
  rw [hwt]
  split_ifs
  · exact ⟨rfl, hpk.reads, fun d => (hpk.rel d).1⟩
  · -- and are held when they are spent
    have hkn : Paired env (fun d now x y => Alike now x y ∧
        (a.key d ≠ "" → ∃ t, y.buckets.lookup (a.key d) = some t))
        (each env Limiter.peekFree a u).2 (each env Limiter.peek64 a l).2 := by
      refine ⟨hpk.reads, fun d => ⟨(hpk.rel d).1, fun hd => ?_⟩⟩
      obtain ⟨n, -, -, hlm, -⟩ := each_key env Limiter.peek64 a l hd
      rw [hlm]
      exact ⟨_, (lookup_bucket_self _ _ _).1⟩
    obtain ⟨-, hsp⟩ := hkn.each hcl
      (fun _ _ _ _ _ hle hrel => ⟨hrel.1.mono hle, hrel.2⟩)
      (f := Limiter.allowFree) (g := Limiter.allow64) (a := a) (fun d r x y hd hrel => by
        obtain ⟨t, hkey⟩ := hrel.2 hd
        obtain ⟨han, hal⟩ := hrel.1.spend hkey
        exact ⟨han, hal, fun _ => (finds_bucket hrel.1.ahead).lookup_spendAt⟩)
    exact ⟨rfl, hsp.reads, fun d => (hsp.rel d).1⟩

theorem succeed_alike (hcl : Monotone fun n => (env n).now)
    (h : Paired env (fun _ => Alike) u l) :
    Paired env (fun _ => Alike) (u.succeed env a) (l.succeed env a) :=
  (h.each hcl (fun _ _ _ _ _ hle hrel => hrel.mono hle)
    (f := fun l key r => ((true, 0), l.refund key r))
    (g := fun l key r => ((true, 0), l.refund key r)) (a := a)
    fun _ _ _ _ _ hrel => ⟨rfl, hrel.refund⟩).2

/-! ### Every trace -/

/-- What every call finds: the configuration it began with, no more keys than the bound, and no
bucket too far ahead. -/
structure Sound (cfg : LimiterConfig) (now : Time) (y : Limiter) : Prop where
  cfg : y.cfg = cfg
  bounded : y.Bounded
  ahead : y.Ahead now

theorem Sound.mono {cfg : LimiterConfig} (h : Sound cfg now y) (hle : now ≤ now') :
    Sound cfg now' y := { h with ahead := h.ahead.mono hle }

section Sound

variable {cfg : LimiterConfig} {y : Limiter} {key : String} {r : Reading}

theorem Sound.peek (h : Sound cfg r.now y) : Sound cfg r.now (y.peek64 key r).2 where
  cfg := cfg_bucket.trans h.cfg
  bounded := h.bounded.bucket
  ahead := h.ahead.bucket.1

theorem Sound.spend (h : Sound cfg r.now y) (hrep : cfg.Representable) :
    Sound cfg r.now (y.allow64 key r).2 := by
  have hfn : Limiter.Finds y key r (y.bucket key r) := finds_bucket h.ahead
  have hrep' : y.cfg.Representable := by
    rw [h.cfg]
    exact hrep
  exact ⟨hfn.cfg_spendAt.trans h.cfg, h.bounded.allow64, hfn.ahead_spendAt hrep'⟩

theorem Sound.refund (h : Sound cfg r.now y) : Sound cfg r.now (y.refund key r) where
  cfg := cfg_refund.trans h.cfg
  bounded := h.bounded.refund
  ahead := h.ahead.refund

end Sound

def AllSound (env : ℕ → Reading) (cfg : Dimension → LimiterConfig) (l : AttemptLimiter) : Prop :=
  ∀ d, Sound (cfg d) (env l.reads).now (l.limiter d)

variable {cfg : Dimension → LimiterConfig}

section

variable (hcl : Monotone fun n => (env n).now)
include hcl

theorem AllSound.each (h : AllSound env cfg l)
    {f : Limiter → String → Reading → (Bool × ℤ) × Limiter}
    (hf : ∀ d r y key, Sound (cfg d) r.now y → Sound (cfg d) r.now (f y key r).2) :
    AllSound env cfg (AttemptLimiter.each env f a l).2 := by
  have hst : Paired env (fun d now x y => x = y ∧ Sound (cfg d) now y) l l :=
    ⟨rfl, fun d => ⟨rfl, h d⟩⟩
  obtain ⟨-, hdn⟩ := hst.each hcl (fun _ _ _ _ _ hle hrel => ⟨hrel.1, hrel.2.mono hle⟩)
    (f := f) (g := f) (a := a) (fun d r x y _ hrel => by
      obtain ⟨rfl, hsn⟩ := hrel
      exact ⟨rfl, rfl, hf d r x _ hsn⟩)
  exact fun d => (hdn.rel d).2

theorem AllSound.allow (hrep : ∀ d, (cfg d).Representable)
    (h : AllSound env cfg l) : AllSound env cfg (l.allow64 env a).2 := by
  have hpk : AllSound env cfg (AttemptLimiter.each env Limiter.peek64 a l).2 :=
    h.each hcl fun _ _ _ _ hsn => hsn.peek
  unfold allow64 attempt
  dsimp only
  split_ifs
  · exact hpk
  · exact hpk.each hcl fun d _ _ _ hsn => hsn.spend (hrep d)

theorem AllSound.succeed (h : AllSound env cfg l) : AllSound env cfg (l.succeed env a) :=
  h.each hcl fun _ _ _ _ hsn => hsn.refund

theorem reach_refused (h : AllSound env cfg l) {wait : ℤ}
    (hrf : (l.allow64 env a).1 = (false, wait)) (hd : a.key d ≠ "")
    (hnow : ∀ n < (l.allow64 env a).2.reads, (env n).now ≤ now) :
    ((l.allow64 env a).2.limiter d).reach (a.key d) now = (l.limiter d).reach (a.key d) now := by
  unfold allow64 attempt at hrf hnow ⊢
  dsimp only at hrf hnow ⊢
  split_ifs at hrf hnow ⊢ with hwt
  · obtain ⟨n, hfr, hls, hlm, -⟩ := each_key env Limiter.peek64 a l hd
    rw [hlm]
    exact (finds_bucket ((h d).ahead.mono (hcl hfr))).reach_self (hnow n hls)
  · cases hrf

theorem reach_allowed (hrep : ∀ d, (cfg d).Representable)
    (h : AllSound env cfg l) (hal : (l.allow64 env a).1.1 = true) (hd : a.key d ≠ "") :
    ∃ n, l.reads ≤ n ∧ n < (l.allow64 env a).2.reads ∧ ∀ now, (env n).now ≤ now →
      ((l.allow64 env a).2.limiter d).reach (a.key d) now =
        max ((l.limiter d).reach (a.key d) (env n).now + (cfg d).refill) now := by
  unfold allow64 attempt at hal ⊢
  dsimp only at hal ⊢
  split_ifs at hal ⊢ with hwt
  have hrep' : (l.limiter d).cfg.Representable := by
    rw [(h d).cfg]
    exact hrep d
  -- the peek found nothing due, and nothing is due later on
  obtain ⟨n, hfr, hls, hlm, hln⟩ := each_key env Limiter.peek64 a l hd
  have hfn : Limiter.Finds (l.limiter d) (a.key d) (env n) _ :=
    finds_bucket ((h d).ahead.mono (hcl hfr))
  have hdue : (l.limiter d).due (a.key d) (env n).now ≤ 0 := by
    by_contra hpos
    rw [Limiter.peek64_eq_peekAt, hfn.peekAt_fst hrep'] at hln
    have := hln (decide_eq_false hpos)
    omega
  obtain ⟨m, hfr', hls', hlm', -⟩ :=
    each_key env Limiter.allow64 a (each env Limiter.peek64 a l).2 hd
  have hlt : (env n).now ≤ (env m).now := hcl (hls.le.trans hfr')
  have hpk : Sound (cfg d) (env m).now ((each env Limiter.peek64 a l).2.limiter d) :=
    (h.each hcl (fun _ _ _ _ hsn => hsn.peek) d).mono (hcl hfr')
  have hcfg : ((each env Limiter.peek64 a l).2.limiter d).cfg = (l.limiter d).cfg :=
    hpk.cfg.trans (h d).cfg.symm
  have hrc : ((each env Limiter.peek64 a l).2.limiter d).reach (a.key d) (env m).now =
      (l.limiter d).reach (a.key d) (env m).now := by
    rw [hlm]
    exact hfn.reach_self hlt
  have hdue' : ¬0 < ((each env Limiter.peek64 a l).2.limiter d).due (a.key d) (env m).now := by
    rw [Limiter.due, Limiter.wait, hrc, hcfg]
    exact not_lt.mpr ((due_anti hlt).trans hdue)
  have hfn' : Limiter.Finds ((each env Limiter.peek64 a l).2.limiter d) (a.key d) (env m) _ :=
    finds_bucket hpk.ahead
  refine ⟨m, hfr.trans (hls.le.trans hfr'), hls', fun now hnow => ?_⟩
  have hsp := hfn'.reach_spendAt (by rw [hcfg]; exact hrep') hnow
  rw [if_neg hdue', hrc, hcfg, (h d).cfg] at hsp
  rw [hlm']
  exact hsp

end

end AttemptLimiter

/-- A call of the limiter of attempts. -/
inductive AttemptCall
  | allow (a : Attempt)
  | succeed (a : Attempt)

namespace AttemptLimiter

variable (env : ℕ → Reading)

def answer (l : AttemptLimiter) : AttemptCall → Option (Bool × ℤ) × AttemptLimiter
  | .allow a => (some (l.allow64 env a).1, (l.allow64 env a).2)
  | .succeed a => (none, l.succeed env a)

/-- The same without a bound. -/
def answerFree (l : AttemptLimiter) : AttemptCall → Option (Bool × ℤ) × AttemptLimiter
  | .allow a => (some (l.allowFree env a).1, (l.allowFree env a).2)
  | .succeed a => (none, l.succeed env a)

end AttemptLimiter

open AttemptLimiter

theorem newAttemptLimiter_eq_ok {account address : LimiterConfig} {l : AttemptLimiter}
    (h : newAttemptLimiter account address = .ok l) :
    (l.limiter .account).cfg = account ∧ (l.limiter .address).cfg = address ∧
      ∀ d, (l.limiter d).buckets = ∅ := by
  unfold newAttemptLimiter at h
  cases hac : newLimiter account with
  | error reason => simp [hac] at h
  | ok byAccount =>
    cases had : newLimiter address with
    | error reason => simp [hac, had] at h
    | ok byAddress =>
      simp only [hac, had, Except.ok.injEq] at h
      subst h
      obtain ⟨hcfg, hem⟩ := newLimiter_eq_ok hac
      obtain ⟨hcfg', hem'⟩ := newLimiter_eq_ok had
      refine ⟨hcfg, hcfg', fun d => ?_⟩
      cases d
      · exact hem
      · exact hem'

section Traces

variable {env : ℕ → Reading} {start : AttemptLimiter}

theorem ahead_of_empty {l : Limiter} (h : l.buckets = ∅) (now : Time) : l.Ahead now := by
  intro key t hkey
  rw [h] at hkey
  cases hkey

theorem allSound_start (hem : ∀ d, (start.limiter d).buckets = ∅) :
    AllSound env (fun d => (start.limiter d).cfg) start := by
  refine fun d => ⟨rfl, ?_, ahead_of_empty (hem d) _⟩
  rw [Limiter.Bounded, hem d]
  exact (LimiterConfig.pos_of_validate (start.limiter d).valid).2.2.le

theorem allSound_after (hcl : Monotone fun n => (env n).now) {cfg : Dimension → LimiterConfig}
    (hrep : ∀ d, (cfg d).Representable) {l : AttemptLimiter} (h : AllSound env cfg l)
    (calls : List AttemptCall) : AllSound env cfg (after (answer env) l calls) := by
  induction calls generalizing l with
  | nil => exact h
  | cons c calls ih =>
    cases c with
    | allow a => exact ih (h.allow hcl hrep)
    | succeed a => exact ih (h.succeed hcl)

theorem outputs_alike (hcl : Monotone fun n => (env n).now)
    (hrep : ∀ d, (start.limiter d).cfg.Representable) (hem : ∀ d, (start.limiter d).buckets = ∅)
    {calls : List AttemptCall}
    (hrm : Along (fun l c => some (answer env l c).2)
      (fun l _ => ∀ d, Room (env l.reads).now (l.limiter d)) start calls) :
    outputs (answerFree env) start calls = outputs (answer env) start calls := by
  have hst : Paired env (fun _ => Alike) start start := by
    refine ⟨rfl, fun d => ⟨⟨rfl, fun _ => rfl⟩, ?_, ?_, hrep d⟩⟩ <;> exact ahead_of_empty (hem d) _
  refine outputs_eq_of_simulation (fun u l c h hrm => ?_) hst hrm
  cases c with
  | allow a =>
    obtain ⟨han, hpr⟩ := allow_alike (a := a) hcl h hrm
    exact ⟨congrArg some han, hpr⟩
  | succeed a => exact ⟨rfl, succeed_alike hcl h⟩

/-- **The bound is not noticed.** While fewer keys than the bound carry debt, the limiter answers as
one without a bound. In every trace no more keys are held than the bound, a refused attempt leaves
the debt of its own keys, and an allowed one adds one refill to each. -/
theorem bound_not_noticed {account address : LimiterConfig}
    (hnew : newAttemptLimiter account address = .ok start) (haccount : account.Representable)
    (haddress : address.Representable) (hclock : Monotone fun n => (env n).now)
    (calls : List AttemptCall) :
    (Along (fun l c => some (answer env l c).2)
        (fun l _ => ∀ d, Room (env l.reads).now (l.limiter d)) start calls →
      outputs (answerFree env) start calls = outputs (answer env) start calls) ∧
    let l := after (answer env) start calls
    (∀ d, ((l.limiter d).buckets.keys.length : ℤ) ≤ (start.limiter d).cfg.maxKeys) ∧
    ∀ a d, a.key d ≠ "" →
      (∀ wait, (l.allow64 env a).1 = (false, wait) →
        ∀ now, (∀ n < (l.allow64 env a).2.reads, (env n).now ≤ now) →
          ((l.allow64 env a).2.limiter d).reach (a.key d) now =
            (l.limiter d).reach (a.key d) now) ∧
      ((l.allow64 env a).1.1 = true →
        ∃ n, l.reads ≤ n ∧ n < (l.allow64 env a).2.reads ∧
          ∀ now, (env n).now ≤ now →
            ((l.allow64 env a).2.limiter d).reach (a.key d) now =
              max ((l.limiter d).reach (a.key d) (env n).now + (start.limiter d).cfg.refill)
                now) := by
  obtain ⟨hcfg, hcfg', hem⟩ := newAttemptLimiter_eq_ok hnew
  have hrep : ∀ d, (start.limiter d).cfg.Representable := by
    intro d
    cases d
    · rwa [hcfg]
    · rwa [hcfg']
  refine ⟨fun hrm => outputs_alike hclock hrep hem hrm, ?_⟩
  intro l
  have hsn : AllSound env (fun d => (start.limiter d).cfg) l :=
    allSound_after hclock hrep (allSound_start hem) calls
  refine ⟨fun d => ?_, fun a d hd => ⟨fun wait hrf now hnow => ?_, fun hal => ?_⟩⟩
  · have hbn := (hsn d).bounded
    rwa [Limiter.Bounded, (hsn d).cfg] at hbn
  · exact reach_refused hclock hsn hrf hd hnow
  · exact reach_allowed hclock hrep hsn hal hd

end Traces

def ticking (n : ℕ) : Reading := ⟨n * second, id, List.Perm.refl⟩

/-- Two callers one after the other and room for one key: the first one's key is evicted, and
neither notices. -/
theorem bound_not_noticed_ticking : ∃ start,
    newAttemptLimiter ⟨1, second, 1⟩ ⟨1, second, 1⟩ = .ok start ∧
      let calls := [.allow ⟨"alice", "192.0.2.1"⟩, .allow ⟨"bob", "192.0.2.2"⟩]
      ((after (answer ticking) start calls).limiter .account).buckets.keys = ["bob"] ∧
        outputs (answerFree ticking) start calls = outputs (answer ticking) start calls := by
  have hcl : Monotone fun n => (ticking n).now := fun n m hle =>
    mul_le_mul_of_nonneg_right (Int.ofNat_le.mpr hle) (by decide)
  have hnew : newAttemptLimiter ⟨1, second, 1⟩ ⟨1, second, 1⟩ = .ok _ := rfl
  have hrep : (⟨1, second, 1⟩ : LimiterConfig).burst * second ≤ maxDuration := by decide
  refine ⟨_, hnew, by decide +kernel, (bound_not_noticed hnew hrep hrep hcl _).1 ⟨?_, ?_⟩⟩
  · intro d
    cases d <;> exact (by decide : (0 : ℤ) < 1)
  · rintro l hl
    cases hl
    refine ⟨fun d => ?_, fun _ _ => trivial⟩
    unfold Room
    cases d <;> decide +kernel

end Trove.Authn
