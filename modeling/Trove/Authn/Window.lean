import Trove.Authn.Ratelimit
import Trove.Lib.Run

/-!
# What a limiter allows in a window of time

The limiter in Go's arithmetic: a duration is a signed 64-bit integer, a product wraps around and a
difference of two times stays at the ends of the range. As long as `Burst * Refill` is a duration
that is the arithmetic of the integers (`allow64_eq`), since no bucket runs further ahead.
-/

namespace Trove.Authn

open Meta Lib List Limiter AList

/-! ## Durations -/

def minDuration : ℤ := -9223372036854775808
def maxDuration : ℤ := 9223372036854775807

def wrapDuration (n : ℤ) : ℤ := (n - minDuration) % 18446744073709551616 + minDuration

/-- `Time.Sub`. -/
def subTime (t u : Time) : ℤ := max minDuration (min maxDuration (t - u))

theorem wrapDuration_of_mem {n : ℤ} (h : minDuration ≤ n ∧ n ≤ maxDuration) :
    wrapDuration n = n := by
  unfold wrapDuration minDuration maxDuration at *
  omega

namespace Limiter

variable (l : Limiter) (key : String) (r : Reading)

def tolerance64 : ℤ := wrapDuration (wrapDuration (l.cfg.burst - 1) * l.cfg.refill)

def wait64 (restoredAt now : Time) : ℤ := subTime (restoredAt + wrapDuration (-l.tolerance64)) now

def allow64 : (Bool × ℤ) × Limiter :=
  let (restoredAt, l) := l.bucket key r
  if 0 < l.wait64 restoredAt r.now then ((false, l.wait64 restoredAt r.now), l)
  else
    ((true, 0), { l with
      buckets := l.buckets.insert key (Bucket.spend l.cfg.refill restoredAt r.now) })

def peek64 : (Bool × ℤ) × Limiter :=
  let (restoredAt, l) := l.bucket key r
  ((decide (l.wait64 restoredAt r.now ≤ 0), max (l.wait64 restoredAt r.now) 0), l)

end Limiter

/-- A call of a limiter. -/
inductive LimiterCall
  | allow (key : String)
  | refund (key : String)
  | peek (key : String)
  deriving DecidableEq

/-- A call with what it finds. -/
structure TimedCall where
  call : LimiterCall
  reading : Reading

theorem newLimiter_eq_ok {cfg : LimiterConfig} {l : Limiter} (h : newLimiter cfg = .ok l) :
    l.cfg = cfg ∧ l.buckets = ∅ := by
  unfold newLimiter at h
  split at h
  · cases h
  · cases h
    exact ⟨rfl, rfl⟩

def Limiter.answer (l : Limiter) (c : TimedCall) : Option (Bool × ℤ) × Limiter :=
  match c.call with
  | .allow key => (some (l.allow64 key c.reading).1, (l.allow64 key c.reading).2)
  | .refund key => (none, l.refund key c.reading)
  | .peek key => (some (l.peek64 key c.reading).1, (l.peek64 key c.reading).2)

/-- The burst is a duration. -/
def LimiterConfig.Representable (c : LimiterConfig) : Prop := c.burst * c.refill ≤ maxDuration

namespace Limiter

variable {l : Limiter} {key : String} {r : Reading}

/-! ## Go's arithmetic and the integers' -/

theorem burst_pos (l : Limiter) : 0 < l.cfg.burst := (LimiterConfig.pos_of_validate l.valid).1

theorem tolerance64_eq (h : l.cfg.Representable) :
    l.tolerance64 = Bucket.tolerance l.cfg.burst l.cfg.refill ∧ 0 ≤ l.tolerance64 ∧
      l.tolerance64 ≤ maxDuration := by
  have hbr := l.burst_pos
  have hrf := l.refill_pos
  have hle : l.cfg.burst ≤ l.cfg.burst * l.cfg.refill :=
    le_mul_of_one_le_right hbr.le hrf
  have hmul : (l.cfg.burst - 1) * l.cfg.refill = l.cfg.burst * l.cfg.refill - l.cfg.refill := by
    ring
  have hnn : 0 ≤ (l.cfg.burst - 1) * l.cfg.refill :=
    mul_nonneg (by omega) hrf.le
  unfold LimiterConfig.Representable at h
  have hone : wrapDuration (l.cfg.burst - 1) = l.cfg.burst - 1 :=
    wrapDuration_of_mem ⟨by unfold minDuration; omega, by omega⟩
  have heq : l.tolerance64 = (l.cfg.burst - 1) * l.cfg.refill := by
    unfold tolerance64
    rw [hone]
    exact wrapDuration_of_mem ⟨by unfold minDuration; omega, by omega⟩
  exact ⟨heq, by omega, by omega⟩

variable {restoredAt now now' : Time} {c : TimedCall}

theorem max_wait64 (h : l.cfg.Representable) (hah : restoredAt ≤ now + l.cfg.burst * l.cfg.refill) :
    max (l.wait64 restoredAt now) 0 = max (l.wait restoredAt now) 0 := by
  obtain ⟨htl, hnn, hle⟩ := tolerance64_eq h
  have hneg : wrapDuration (-l.tolerance64) = -l.tolerance64 := by
    refine wrapDuration_of_mem ⟨?_, ?_⟩
    · unfold minDuration
      unfold maxDuration at hle
      omega
    · unfold maxDuration
      omega
  have hsh : l.wait restoredAt now ≤ l.cfg.refill := by
    unfold wait Bucket.wait Bucket.tolerance
    linarith
  have hrf : l.cfg.refill ≤ maxDuration :=
    le_trans (le_mul_of_one_le_left l.refill_pos.le l.burst_pos) h
  have hwt : l.wait64 restoredAt now = max minDuration (l.wait restoredAt now) := by
    unfold wait64 subTime
    rw [hneg, htl, ← sub_eq_add_neg]
    show max minDuration (min maxDuration (l.wait restoredAt now)) = _
    rw [min_eq_right (hsh.trans hrf)]
  rw [hwt, max_right_comm, max_eq_right (show minDuration ≤ 0 by decide), max_comm]

/-- No bucket runs ahead of the clock by more than the burst. -/
def Ahead (l : Limiter) (now : Time) : Prop :=
  ∀ key restoredAt, l.buckets.lookup key = some restoredAt →
    restoredAt ≤ now + l.cfg.burst * l.cfg.refill

theorem Ahead.mono (h : l.Ahead now) (hle : now ≤ now') : l.Ahead now' :=
  fun key t hkey => (h key t hkey).trans (add_le_add_left hle _)

theorem Ahead.bucket (h : l.Ahead r.now) :
    (l.bucket key r).2.Ahead r.now ∧
      (l.bucket key r).1 ≤ r.now + l.cfg.burst * l.cfg.refill := by
  have hnow : r.now ≤ r.now + l.cfg.burst * l.cfg.refill :=
    le_add_of_nonneg_right (mul_nonneg l.burst_pos.le l.refill_pos.le)
  unfold Limiter.bucket
  split
  · rename_i t hkey
    exact ⟨h, h key t hkey⟩
  · refine ⟨fun other t hot => ?_, hnow⟩
    rcases lookup_insert_eq_some.mp hot with ⟨rfl, rfl⟩ | ⟨-, hot⟩
    · exact hnow
    · exact h other t (lookup_of_evict hot)

/-- **Refinement.** While no bucket runs ahead by more, both arithmetics allow alike. -/
theorem allow64_eq (hrep : l.cfg.Representable) (h : l.Ahead r.now) :
    l.allow64 key r = l.allow key r := by
  have hmax : max ((l.bucket key r).2.wait64 (l.bucket key r).1 r.now) 0 =
      max ((l.bucket key r).2.wait (l.bucket key r).1 r.now) 0 := by
    refine max_wait64 (by rw [cfg_bucket]; exact hrep) ?_
    rw [cfg_bucket]
    exact h.bucket.2
  unfold allow64 allow
  dsimp only
  split_ifs with h64 hint hint
  · rw [show (l.bucket key r).2.wait64 (l.bucket key r).1 r.now =
      (l.bucket key r).2.wait (l.bucket key r).1 r.now by omega]
  · omega
  · omega
  · rfl

theorem Ahead.allow (h : l.Ahead r.now) : (l.allow key r).2.Ahead r.now := by
  unfold Limiter.allow
  dsimp only
  split_ifs with hwt
  · exact h.bucket.1
  · intro other t hot
    rcases lookup_insert_eq_some.mp hot with ⟨rfl, rfl⟩ | ⟨-, hot⟩
    · exact Bucket.spend_le (burst_pos _) (refill_pos _) (not_lt.mp hwt)
    · exact h.bucket.1 other t hot

theorem Ahead.refund (h : l.Ahead r.now) : (l.refund key r).Ahead r.now := by
  unfold Limiter.refund
  split
  · exact h
  · rename_i restoredAt hkey
    intro other t hot
    rcases lookup_insert_eq_some.mp hot with ⟨rfl, rfl⟩ | ⟨-, hot⟩
    · have hold := h other restoredAt hkey
      have hrf := l.refill_pos
      have hnn := mul_nonneg l.burst_pos.le hrf.le
      show (if _ then _ else _) ≤ r.now + l.cfg.burst * l.cfg.refill
      split_ifs <;> linarith
    · exact h other t hot

theorem cfg_answer (hrep : l.cfg.Representable) (h : l.Ahead c.reading.now) :
    (l.answer c).2.cfg = l.cfg ∧ (l.answer c).2.Ahead c.reading.now := by
  unfold answer
  split
  · rw [allow64_eq hrep h]
    exact ⟨cfg_allow, h.allow⟩
  · exact ⟨cfg_refund, h.refund⟩
  · exact ⟨cfg_peek, h.bucket.1⟩

/-! ## One key -/

/-- How far the key's debt reaches. -/
def reach (l : Limiter) (key : String) (now : Time) : ℤ :=
  match l.buckets.lookup key with
  | none => now
  | some restoredAt => Bucket.level restoredAt now

def Keeps (key : String) (l : Limiter) (c : TimedCall) : Prop :=
  (l.buckets.lookup key).isSome = true → ((l.answer c).2.buckets.lookup key).isSome = true

instance (key : String) (l : Limiter) (c : TimedCall) : Decidable (l.Keeps key c) :=
  inferInstanceAs (Decidable (_ → _))

/-- What the key is charged for by a call: an attempt that was allowed, less one taken back. -/
def charged (key : String) (c : TimedCall) (answer : Option (Bool × ℤ)) : ℤ :=
  if c.call = .allow key ∧ answer.any (·.1) = true then 1
  else if c.call = .refund key then -1
  else 0

theorem reach_mono (l : Limiter) (key : String) (h : now ≤ now') :
    l.reach key now ≤ l.reach key now' := by
  unfold reach
  split
  · exact h
  · exact Bucket.level_mono _ h

theorem le_reach (l : Limiter) (key : String) (now : Time) : now ≤ l.reach key now := by
  unfold reach
  split
  · exact le_rfl
  · exact Bucket.le_level _ _

theorem lookup_bucket_ne {other : String} (hne : key ≠ other)
    (hkp : (l.buckets.lookup key).isSome = true →
      ((l.bucket other r).2.buckets.lookup key).isSome = true) :
    (l.bucket other r).2.buckets.lookup key = l.buckets.lookup key := by
  unfold Limiter.bucket at hkp ⊢
  split at hkp
  · rfl
  · rename_i hot
    rw [lookup_insert_ne hne] at hkp ⊢
    cases hev : (l.evict r l.buckets).lookup key with
    | some t => exact (lookup_of_evict hev).symm
    | none =>
      cases hold : l.buckets.lookup key with
      | none => rfl
      | some t =>
        rw [hold, hev] at hkp
        cases hkp rfl

variable (l key r) in
theorem lookup_bucket_self :
    (l.bucket key r).2.buckets.lookup key = some (l.bucket key r).1 ∧
      Bucket.level (l.bucket key r).1 r.now = l.reach key r.now := by
  unfold Limiter.bucket reach
  cases hkey : l.buckets.lookup key with
  | some t => exact ⟨hkey, rfl⟩
  | none => exact ⟨lookup_insert _, max_self _⟩

theorem bucket_of_lookup (h : l.buckets.lookup key = some restoredAt) :
    l.bucket key r = (restoredAt, l) := by
  unfold Limiter.bucket
  rw [h]

theorem reach_congr {l' : Limiter} (h : l'.buckets.lookup key = l.buckets.lookup key)
    (now : Time) : l'.reach key now = l.reach key now := by
  unfold reach
  rw [h]

theorem lookup_answer_ne (hkp : l.Keeps key c) (hal : c.call ≠ .allow key)
    (hrf : c.call ≠ .refund key) (hpk : c.call ≠ .peek key) :
    (l.answer c).2.buckets.lookup key = l.buckets.lookup key := by
  unfold Keeps answer at hkp
  unfold answer
  rcases c with ⟨call, r⟩
  cases call with
  | allow other =>
    have hne : key ≠ other := fun heq => hal (by rw [heq])
    have hin : (l.allow64 other r).2.buckets.lookup key =
        (l.bucket other r).2.buckets.lookup key := by
      unfold allow64
      dsimp only
      split_ifs
      · rfl
      · exact lookup_insert_ne hne
    rw [hin] at hkp ⊢
    exact lookup_bucket_ne hne hkp
  | refund other =>
    have hne : key ≠ other := fun heq => hrf (by rw [heq])
    show (l.refund other r).buckets.lookup key = _
    unfold Limiter.refund
    split
    · rfl
    · exact lookup_insert_ne hne
  | peek other =>
    have hne : key ≠ other := fun heq => hpk (by rw [heq])
    exact lookup_bucket_ne hne hkp

variable (key r) in
theorem answer_allow (hrep : l.cfg.Representable) (hah : l.Ahead r.now) :
    (0 < l.wait (l.bucket key r).1 r.now ∧
        (l.answer ⟨.allow key, r⟩).1 = some (false, l.wait (l.bucket key r).1 r.now) ∧
        (l.answer ⟨.allow key, r⟩).2.buckets.lookup key = some (l.bucket key r).1) ∨
      (l.wait (l.bucket key r).1 r.now ≤ 0 ∧ (l.answer ⟨.allow key, r⟩).1 = some (true, 0) ∧
        (l.answer ⟨.allow key, r⟩).2.buckets.lookup key =
          some (Bucket.spend l.cfg.refill (l.bucket key r).1 r.now)) := by
  have hcfg : (l.bucket key r).2.cfg = l.cfg := cfg_bucket
  have hwt : (l.bucket key r).2.wait (l.bucket key r).1 r.now =
      l.wait (l.bucket key r).1 r.now := by
    unfold wait
    rw [hcfg]
  unfold answer
  dsimp only
  rw [allow64_eq hrep hah]
  unfold Limiter.allow
  dsimp only
  rw [hwt]
  split_ifs with hpos
  · exact .inl ⟨hpos, rfl, (lookup_bucket_self l key r).1⟩
  · refine .inr ⟨not_lt.mp hpos, rfl, ?_⟩
    rw [lookup_insert, hcfg]

/-- **One call.** The key's reach rises by a refill for each attempt charged, and behind an attempt
it is at most the burst ahead of the clock. -/
theorem reach_answer (hrep : l.cfg.Representable) (hah : l.Ahead c.reading.now)
    (hkp : l.Keeps key c) :
    l.reach key c.reading.now + l.cfg.refill * charged key c (l.answer c).1 ≤
        (l.answer c).2.reach key c.reading.now ∧
      (charged key c (l.answer c).1 = 1 →
        (l.answer c).2.reach key c.reading.now ≤
          c.reading.now + l.cfg.burst * l.cfg.refill) := by
  rcases c with ⟨call, r⟩
  have hlv := (lookup_bucket_self l key r).2
  by_cases hal : call = .allow key
  · subst hal
    rcases answer_allow key r hrep hah with
      ⟨-, han, hlk⟩ | ⟨hwt, han, hlk⟩
    · have hch : charged key ⟨.allow key, r⟩ (l.answer ⟨.allow key, r⟩).1 = 0 := by
        rw [han]
        simp [charged]
      rw [hch]
      refine ⟨?_, fun h => by cases h⟩
      unfold reach at hlv ⊢
      rw [hlk]
      linarith
    · have hch : charged key ⟨.allow key, r⟩ (l.answer ⟨.allow key, r⟩).1 = 1 := by
        rw [han]
        simp [charged]
      have hsp := Bucket.level_spend l.refill_pos (l.bucket key r).1 r.now
      have hle := Bucket.spend_le l.burst_pos l.refill_pos hwt
      have hrc : (l.answer ⟨.allow key, r⟩).2.reach key r.now =
          Bucket.level (Bucket.spend l.cfg.refill (l.bucket key r).1 r.now) r.now := by
        rw [reach, hlk]
      rw [hch, hrc]
      refine ⟨by linarith, fun _ => max_le hle ?_⟩
      exact le_add_of_nonneg_right (mul_nonneg l.burst_pos.le l.refill_pos.le)
  by_cases hrf : call = .refund key
  · subst hrf
    have hch : charged key ⟨.refund key, r⟩ (l.answer ⟨.refund key, r⟩).1 = -1 := by
      simp [charged]
    rw [hch]
    refine ⟨?_, fun h => by cases h⟩
    show _ ≤ (l.refund key r).reach key r.now
    unfold Limiter.refund reach
    cases hkey : l.buckets.lookup key with
    | none =>
      rw [hkey]
      have := l.refill_pos
      linarith
    | some restoredAt =>
      rw [lookup_insert]
      have := Bucket.level_sub_le_refund l.refill_pos restoredAt r.now
      linarith
  · have hch : charged key ⟨call, r⟩ (l.answer ⟨call, r⟩).1 = 0 := by
      simp [charged, hal, hrf]
    rw [hch]
    refine ⟨?_, fun h => by cases h⟩
    have hrc : (l.answer ⟨call, r⟩).2.reach key r.now = l.reach key r.now := by
      by_cases hpk : call = .peek key
      · subst hpk
        show (l.bucket key r).2.reach key r.now = l.reach key r.now
        rw [reach, (lookup_bucket_self l key r).1]
        exact hlv
      · exact reach_congr (lookup_answer_ne hkp hal hrf hpk) _
    linarith

end Limiter

/-! ## Windows -/

/-- The calls with their answers. -/
def history (l : Limiter) (cs : List TimedCall) : List (TimedCall × Option (Bool × ℤ)) :=
  cs.zip (outputs Limiter.answer l cs)

/-- The call is made in the window. -/
def TimedCall.within (c : TimedCall) (start length : ℤ) : Bool :=
  start ≤ c.reading.now ∧ c.reading.now ≤ start + length

def allowedIn (key : String) (start length : ℤ)
    (h : List (TimedCall × Option (Bool × ℤ))) : ℕ :=
  h.countP fun x => x.1.within start length && decide (x.1.call = .allow key) && x.2.any (·.1)

/-- The attempts taken back in it. -/
def refundsIn (key : String) (start length : ℤ)
    (h : List (TimedCall × Option (Bool × ℤ))) : ℕ :=
  h.countP fun x => x.1.within start length && decide (x.1.call = .refund key)

section windows

variable {l : Limiter} {key : String} {cs : List TimedCall} {c : TimedCall} {start length : ℤ}

theorem after_concat (l : Limiter) (cs : List TimedCall) (c : TimedCall) :
    after Limiter.answer l (cs ++ [c]) = ((after Limiter.answer l cs).answer c).2 :=
  foldl_concat _ _ _ _

theorem history_concat :
    history l (cs ++ [c]) =
      history l cs ++ [(c, ((after Limiter.answer l cs).answer c).1)] := by
  unfold history
  rw [outputs_append, zip_append (length_outputs _ _ _).symm]
  rfl

def net (key : String) (start length : ℤ) (h : List (TimedCall × Option (Bool × ℤ))) : ℤ :=
  allowedIn key start length h - refundsIn key start length h

theorem net_concat (h : List (TimedCall × Option (Bool × ℤ))) (answer : Option (Bool × ℤ)) :
    net key start length (h ++ [(c, answer)]) = net key start length h +
      if c.within start length then Limiter.charged key c answer else 0 := by
  unfold net allowedIn refundsIn Limiter.charged
  rw [countP_append, countP_append, countP_singleton, countP_singleton]
  cases hwt : c.within start length with
  | false => simp
  | true =>
    by_cases hal : c.call = .allow key
    · by_cases han : answer.any (·.1) = true
      · simp [hal, han]
        omega
      · simp [hal, han]
    · by_cases hrf : c.call = .refund key
      · simp [hrf]
        omega
      · simp [hal, hrf]

theorem net_of_earlier (h : ∀ c ∈ cs, c.reading.now < start) :
    net key start length (history l cs) = 0 := by
  induction cs using List.reverseRecOn with
  | nil => rfl
  | append_singleton cs c ih =>
    have hc := h c (by simp)
    have hnot : c.within start length = false := by
      simp [TimedCall.within, hc]
    rw [history_concat, net_concat, ih fun c hc => h c (by simp [hc]), hnot]
    rfl

/-- The clock does not go back. -/
def InOrder (cs : List TimedCall) : Prop :=
  cs.Pairwise fun c c' => c.reading.now ≤ c'.reading.now

theorem InOrder.of_concat (h : InOrder (cs ++ [c])) :
    InOrder cs ∧ ∀ c' ∈ cs, c'.reading.now ≤ c.reading.now := by
  obtain ⟨hcs, -, hle⟩ := pairwise_append.mp h
  exact ⟨hcs, fun c' hc' => hle c' hc' c (by simp)⟩

/-- No call evicts the key. -/
def NeverEvicted (key : String) (l : Limiter) (cs : List TimedCall) : Prop :=
  Along (fun l c => some (l.answer c).2) (Limiter.Keeps key) l cs

theorem NeverEvicted.of_append {cs' : List TimedCall} (h : NeverEvicted key l (cs ++ cs')) :
    NeverEvicted key l cs ∧ NeverEvicted key (after Limiter.answer l cs) cs' := by
  induction cs generalizing l with
  | nil => exact ⟨trivial, h⟩
  | cons c cs ih =>
    obtain ⟨hrs, hls⟩ := ih (h.2 _ rfl)
    refine ⟨⟨h.1, fun l' hl' => ?_⟩, hls⟩
    obtain rfl := Option.some.inj hl'
    exact hrs

theorem NeverEvicted.of_concat (h : NeverEvicted key l (cs ++ [c])) :
    NeverEvicted key l cs ∧ (after Limiter.answer l cs).Keeps key c :=
  ⟨h.of_append.1, h.of_append.2.1⟩

section

variable (hrep : l.cfg.Representable) (hem : l.buckets = ∅)
include hrep hem

variable {now : Time} {earlier rest : List TimedCall}

theorem ahead_after (hor : InOrder cs) (hnow : ∀ c ∈ cs, c.reading.now ≤ now) :
    (after Limiter.answer l cs).cfg = l.cfg ∧ (after Limiter.answer l cs).Ahead now := by
  induction cs using List.reverseRecOn generalizing now with
  | nil =>
    refine ⟨rfl, fun key t hkey => ?_⟩
    change l.buckets.lookup key = some t at hkey
    rw [hem] at hkey
    cases hkey
  | append_singleton cs c ih =>
    obtain ⟨hcs, hle⟩ := hor.of_concat
    obtain ⟨hcfg, hah⟩ := ih hcs hle
    obtain ⟨hcfg', hah'⟩ := cfg_answer (by rw [hcfg]; exact hrep) hah
    have haf := after_concat l cs c
    rw [haf]
    exact ⟨hcfg'.trans hcfg, hah'.mono (hnow c (by simp))⟩

theorem net_le_reach (hor : InOrder cs) (hkp : NeverEvicted key l cs)
    (hnow : ∀ c ∈ cs, c.reading.now ≤ now) (hst : start ≤ now) (hend : now ≤ start + length) :
    start + l.cfg.refill * net key start length (history l cs) ≤
      (after Limiter.answer l cs).reach key now := by
  induction cs using List.reverseRecOn generalizing now with
  | nil =>
    have := le_reach l key now
    show start + l.cfg.refill * 0 ≤ l.reach key now
    linarith
  | append_singleton cs c ih =>
    obtain ⟨hcs, hle⟩ := hor.of_concat
    obtain ⟨hkp, hke⟩ := hkp.of_concat
    obtain ⟨hcfg, hah⟩ := ahead_after hrep hem hcs hle
    have haf := after_concat l cs c
    have hc := hnow c (by simp)
    by_cases hbg : start ≤ c.reading.now
    · have hwt : c.within start length = true := by
        simp [TimedCall.within, hbg, hc.trans hend]
      have hold := ih hcs hkp hle hbg (hc.trans hend)
      have hsp := (reach_answer (by rw [hcfg]; exact hrep) hah hke).1
      have hmn := reach_mono ((after Limiter.answer l cs).answer c).2 key hc
      rw [hcfg] at hsp
      rw [haf, history_concat, net_concat, hwt, if_pos rfl, mul_add]
      linarith
    · have her : ∀ c' ∈ cs ++ [c], c'.reading.now < start :=
        forall_mem_concat (fun c' hc' => (hle c' hc').trans_lt (not_le.mp hbg)) (not_le.mp hbg)
      have := le_reach (after Limiter.answer l (cs ++ [c])) key now
      rw [net_of_earlier her]
      linarith

theorem net_le (hor : InOrder cs) (hkp : NeverEvicted key l cs) (hln : 0 ≤ length) :
    net key start length (history l cs) ≤ l.cfg.burst + length / l.cfg.refill := by
  have hrf := l.refill_pos
  induction cs using List.reverseRecOn with
  | nil =>
    have hdiv : 0 ≤ length / l.cfg.refill := Int.ediv_nonneg hln hrf.le
    have := l.burst_pos
    show (0 : ℤ) ≤ _
    linarith
  | append_singleton cs c ih =>
    obtain ⟨hcs, hle⟩ := hor.of_concat
    obtain ⟨hbf, hke⟩ := hkp.of_concat
    have hold := ih hcs hbf
    obtain ⟨hcfg, hah⟩ := ahead_after hrep hem hcs hle
    have haf := after_concat l cs c
    by_cases hch : c.within start length = true ∧
        Limiter.charged key c ((after Limiter.answer l cs).answer c).1 = 1
    · -- an attempt was allowed: the reach is at most the burst ahead of a time in the window
      obtain ⟨hwt, hone⟩ := hch
      have hmem : start ≤ c.reading.now ∧ c.reading.now ≤ start + length := by
        simpa [TimedCall.within] using hwt
      have hall : ∀ c' ∈ cs ++ [c], c'.reading.now ≤ c.reading.now :=
        forall_mem_concat hle le_rfl
      have hrc := net_le_reach hrep hem hor hkp hall hmem.1 hmem.2
      have hbn := (reach_answer (by rw [hcfg]; exact hrep) hah hke).2 hone
      rw [hcfg, ← haf] at hbn
      have hmul : (net key start length (history l (cs ++ [c])) - l.cfg.burst) * l.cfg.refill ≤
          length := by
        linarith [hmem.2]
      have := (Int.le_ediv_iff_mul_le hrf).mpr hmul
      linarith
    · have hnot : (if c.within start length then
          Limiter.charged key c ((after Limiter.answer l cs).answer c).1 else 0) ≤ 0 := by
        split_ifs with hwt
        · have hne : Limiter.charged key c ((after Limiter.answer l cs).answer c).1 ≠ 1 :=
            fun h => hch ⟨hwt, h⟩
          unfold Limiter.charged at hne ⊢
          split_ifs at hne ⊢ <;> simp_all
        · exact le_rfl
      rw [history_concat, net_concat]
      linarith

/-! ## Waits -/

theorem lookup_after_wait (hor : InOrder (earlier ++ rest))
    (hkp : NeverEvicted key l (earlier ++ rest)) {restoredAt : Time}
    (hkey : (after Limiter.answer l earlier).buckets.lookup key = some restoredAt)
    (hrf : ∀ c ∈ rest, c.call ≠ .refund key)
    (hal : ∀ c ∈ rest, c.call = .allow key → 0 < l.wait restoredAt c.reading.now) :
    (after Limiter.answer l (earlier ++ rest)).buckets.lookup key = some restoredAt := by
  induction rest using List.reverseRecOn with
  | nil =>
    rw [append_nil]
    exact hkey
  | append_singleton rest c ih =>
    rw [← append_assoc] at hor hkp ⊢
    obtain ⟨hcs, hle⟩ := hor.of_concat
    obtain ⟨hbf, hke⟩ := hkp.of_concat
    obtain ⟨hcfg, hah⟩ := ahead_after hrep hem hcs hle
    have hold := ih hcs hbf (fun c' hc' => hrf c' (by simp [hc']))
      fun c' hc' => hal c' (by simp [hc'])
    rw [after_concat]
    rcases c with ⟨call, r⟩
    have hbc := bucket_of_lookup (r := r) hold
    by_cases hcl : call = .allow key
    · subst hcl
      have hpos := hal ⟨.allow key, r⟩ (by simp) rfl
      rcases answer_allow key r (by rw [hcfg]; exact hrep) hah with
        ⟨-, -, hlk⟩ | ⟨hwt, -, -⟩
      · rw [hlk, hbc]
      · rw [hbc, Limiter.wait, hcfg] at hwt
        exact absurd hpos (not_lt.mpr hwt)
    · by_cases hpk : call = .peek key
      · subst hpk
        have hlk := (lookup_bucket_self (after Limiter.answer l (earlier ++ rest))
          key r).1
        rw [hbc] at hlk
        show ((after Limiter.answer l (earlier ++ rest)).bucket key r).2.buckets.lookup key = _
        rw [hbc]
        exact hlk
      · exact (lookup_answer_ne hke hcl (hrf _ (by simp)) hpk).trans hold

theorem answer_after_wait {r r' : Reading} {d : ℤ}
    (hor : InOrder ((earlier ++ [⟨.allow key, r⟩] ++ rest) ++ [⟨.allow key, r'⟩]))
    (hkp : NeverEvicted key l (earlier ++ [⟨.allow key, r⟩] ++ rest))
    (hwt : ((after Limiter.answer l earlier).answer ⟨.allow key, r⟩).1 = some (false, d))
    (hrf : ∀ c ∈ rest, c.call ≠ .refund key)
    (hal : ∀ c ∈ rest, c.call = .allow key → c.reading.now < r.now + d) :
    ((after Limiter.answer l (earlier ++ [⟨.allow key, r⟩] ++ rest)).answer ⟨.allow key, r'⟩).1 =
      if r'.now < r.now + d then some (false, r.now + d - r'.now) else some (true, 0) := by
  obtain ⟨hfr, hle'⟩ := hor.of_concat
  have her : InOrder (earlier ++ [⟨.allow key, r⟩]) := (pairwise_append.mp hfr).1
  obtain ⟨hcs, hle⟩ := her.of_concat
  obtain ⟨hcfg, hah⟩ := ahead_after hrep hem hcs hle
  obtain ⟨hcfg', hah'⟩ := ahead_after hrep hem hfr hle'
  -- the bucket the first attempt found
  obtain ⟨t, hd, hkey⟩ : ∃ t, d = l.wait t r.now ∧
      (after Limiter.answer l (earlier ++ [⟨.allow key, r⟩])).buckets.lookup key = some t := by
    rcases answer_allow key r (by rw [hcfg]; exact hrep) hah with
      ⟨-, han, hlk⟩ | ⟨-, han, -⟩
    · rw [han, Option.some.injEq, Prod.mk.injEq, Limiter.wait, hcfg] at hwt
      refine ⟨_, hwt.2.symm, ?_⟩
      rw [after_concat]
      exact hlk
    · rw [han] at hwt
      cases hwt
  have hlf : ∀ now, l.wait t now = r.now + d - now := by
    intro now
    rw [hd]
    unfold Limiter.wait Bucket.wait
    ring
  have hst := lookup_after_wait hrep hem hfr hkp hkey hrf fun c hc hcl => by
    rw [hlf]
    linarith [hal c hc hcl]
  rcases answer_allow key r' (by rw [hcfg']; exact hrep) hah' with
    ⟨hpos, han, -⟩ | ⟨hnn, han, -⟩
  · rw [bucket_of_lookup hst, Limiter.wait, hcfg'] at hpos han
    rw [show Bucket.wait l.cfg.burst l.cfg.refill t r'.now = _ from hlf r'.now] at hpos han
    rw [han, if_pos (by linarith)]
  · rw [bucket_of_lookup hst, Limiter.wait, hcfg'] at hnn
    rw [show Bucket.wait l.cfg.burst l.cfg.refill t r'.now = _ from hlf r'.now] at hnn
    rw [han, if_neg (by linarith)]

end

end windows

/-- **The rate limit.** Of a key that is not evicted, over a clock that does not go back: in every
window the attempts allowed, less those taken back, are at most the burst and one for each refill
that fits in the window; and an attempt told to wait is told the truth, as long as none is taken
back: it is refused before that time and allowed then. -/
theorem rate_limited (cfg : LimiterConfig) (l : Limiter) (hnew : newLimiter cfg = .ok l)
    (hrep : cfg.Representable) (key : String) (cs : List TimedCall) (horder : InOrder cs)
    (hkept : NeverEvicted key l cs) :
    (∀ start length : ℤ, 0 ≤ length →
      (allowedIn key start length (history l cs) : ℤ) - refundsIn key start length (history l cs) ≤
        cfg.burst + length / cfg.refill) ∧
    ∀ (earlier rest later : List TimedCall) (r r' : Reading) (d : ℤ),
      cs = earlier ++ ⟨.allow key, r⟩ :: rest ++ ⟨.allow key, r'⟩ :: later →
      ((after Limiter.answer l earlier).answer ⟨.allow key, r⟩).1 = some (false, d) →
      (∀ c ∈ rest, c.call ≠ .refund key) →
      (r'.now < r.now + d →
        ∃ d', ((after Limiter.answer l (earlier ++ ⟨.allow key, r⟩ :: rest)).answer
          ⟨.allow key, r'⟩).1 = some (false, d')) ∧
      (r'.now = r.now + d →
        (∀ c ∈ rest, c.call = .allow key → c.reading.now < r.now + d) →
        ((after Limiter.answer l (earlier ++ ⟨.allow key, r⟩ :: rest)).answer
          ⟨.allow key, r'⟩).1 = some (true, 0)) := by
  obtain ⟨rfl, hem⟩ := newLimiter_eq_ok hnew
  refine ⟨fun start length hln => net_le hrep hem horder hkept hln, ?_⟩
  intro earlier rest later r r' d hcs hwt hrf
  have hsp : cs = (earlier ++ [⟨.allow key, r⟩] ++ rest ++ [⟨.allow key, r'⟩]) ++ later := by
    rw [hcs]
    simp
  rw [hsp] at horder hkept
  have hfr : InOrder (earlier ++ [⟨.allow key, r⟩] ++ rest ++ [⟨.allow key, r'⟩]) :=
    (pairwise_append.mp horder).1
  have han := answer_after_wait hrep hem hfr hkept.of_append.1.of_append.1 hwt hrf
  rw [append_assoc, singleton_append] at han
  refine ⟨fun hbf => ?_, fun hth hal => ?_⟩
  · refine ⟨r.now + d - r'.now, (han fun c hc _ => ?_).trans (if_pos hbf)⟩
    -- the calls in between are no later than the attempt
    exact (hfr.of_concat.2 c (by simp [hc])).trans_lt hbf
  · exact (han hal).trans (if_neg (not_lt.mpr hth.ge))

/-! ### A limiter of two attempts -/

def limitOfTwo : LimiterConfig := ⟨2, 10, 4⟩

def freshOfTwo : Limiter := ⟨limitOfTwo, by decide, ∅⟩

def readAt (now : Time) : Reading := ⟨now, id, List.Perm.refl⟩

def fourAttempts : List TimedCall :=
  [⟨.allow "k", readAt 100⟩, ⟨.allow "k", readAt 100⟩, ⟨.allow "k", readAt 103⟩,
    ⟨.peek "k", readAt 104⟩, ⟨.allow "k", readAt 110⟩]

theorem rate_limited_fourAttempts :
    newLimiter limitOfTwo = .ok freshOfTwo ∧ limitOfTwo.Representable ∧ InOrder fourAttempts ∧
      NeverEvicted "k" freshOfTwo fourAttempts ∧
      allowedIn "k" 100 5 (history freshOfTwo fourAttempts) = 2 ∧
      (allowedIn "k" 100 5 (history freshOfTwo fourAttempts) : ℤ) -
        refundsIn "k" 100 5 (history freshOfTwo fourAttempts) ≤ 2 + 5 / 10 ∧
      ((after Limiter.answer freshOfTwo (fourAttempts.take 4)).answer ⟨.allow "k", readAt 110⟩).1 =
        some (true, 0) := by
  have hrep : limitOfTwo.Representable := by
    unfold LimiterConfig.Representable
    decide
  have hor : InOrder fourAttempts := by
    unfold InOrder fourAttempts readAt
    decide
  have hkp : NeverEvicted "k" freshOfTwo fourAttempts := by
    unfold NeverEvicted
    decide +kernel
  obtain ⟨hwn, hwt⟩ := rate_limited limitOfTwo freshOfTwo rfl hrep "k" fourAttempts hor
    hkp
  refine ⟨rfl, hrep, hor, hkp, by decide +kernel, hwn 100 5 (by decide), ?_⟩
  have hwa : ((after Limiter.answer freshOfTwo (fourAttempts.take 2)).answer
      ⟨.allow "k", readAt 103⟩).1 = some (false, 7) := by decide +kernel
  refine (hwt (fourAttempts.take 2) [⟨.peek "k", readAt 104⟩] [] (readAt 103) (readAt 110) 7 rfl
    hwa ?_).2 rfl ?_
  · simp
  · simp

end Trove.Authn
