import Trove.Proxy.Errors
import Trove.Meta.Types

/-!
# Backoff from a throttling upstream

For each proxy entity, when its upstream may be called again. A refusal sets the deadline to the
longer of what the upstream asked for and a jittered exponential on the refusals in a row, capped;
a success forgets them. Durations are 64-bit numbers of nanoseconds.
-/

namespace Trove.Proxy

open Lib Meta List

/-- A 64-bit duration. -/
def duration (n : ℤ) : ℤ := Int.bmod n (2 ^ 64)

def defaultBackoffBase : ℤ := second
def defaultBackoffMax : ℤ := 300 * second

/-- The first and the longest wait. -/
structure BackoffOptions where
  (base max : ℤ)
  base_pos : 0 < base
  max_pos : 0 < max

def newBackoff (base max : ℤ) : BackoffOptions where
  base := if base ≤ 0 then defaultBackoffBase else base
  max := if max ≤ 0 then defaultBackoffMax else max
  base_pos := by
    split_ifs
    · decide
    · omega
  max_pos := by
    split_ifs
    · decide
    · omega

/-- Refusals in a row, and until when to wait. -/
structure BackoffState where
  failures : ℕ
  until_ : Time

/-- The state of each upstream. -/
abbrev Standing := GoMap String BackoffState

namespace Backoff

variable (opts : BackoffOptions) (states : Standing) (entity : String) (now : Time)

def ready : Option Time :=
  match states.lookup entity with
  | none => none
  | some state => if now < state.until_ then some state.until_ else none

def delay (jitter : ℤ → ℤ) (failures : ℕ) (retryAfter : ℤ) : ℤ :=
  let exponential := duration (opts.base * 2 ^ min (failures - 1) 32)
  let exponential :=
    if opts.max < exponential ∨ exponential ≤ 0 then opts.max else exponential
  let delay := jitter exponential
  let delay := if delay < retryAfter then retryAfter else delay
  let delay := if opts.max < delay then opts.max else delay
  if delay < 0 then 0 else delay

def penalize (jitter : ℤ → ℤ) (retryAfter : ℤ) : Time × Standing :=
  let failures := (states.lookup entity).elim 0 BackoffState.failures + 1
  let until_ := now + delay opts jitter failures retryAfter
  (until_, states.insert entity ⟨failures, until_⟩)

def succeed : Standing := states.erase entity

variable {opts states entity now}

theorem ready_eq_none {state : BackoffState} (h : ready states entity now = none)
    (hst : states.lookup entity = some state) : state.until_ ≤ now := by
  unfold ready at h
  simp only [hst] at h
  split_ifs at h with hlt
  exact not_lt.mp hlt

theorem delay_nonneg (jitter : ℤ → ℤ) (failures : ℕ) (retryAfter : ℤ) :
    0 ≤ delay opts jitter failures retryAfter := by
  unfold delay
  dsimp only
  split_ifs <;> omega

theorem retryAfter_le_delay (jitter : ℤ → ℤ) (failures : ℕ) (retryAfter : ℤ) :
    min retryAfter opts.max ≤ delay opts jitter failures retryAfter := by
  unfold delay
  dsimp only
  split_ifs <;> omega

/-! ## The deadline after a run of reports -/

/-- How a call of an upstream ended. -/
inductive Report
  | refused (entity : String) (now : Time) (jitter : ℤ → ℤ) (retryAfter : ℤ)
  | succeeded (entity : String)

def Report.upstream : Report → String
  | .refused entity _ _ _ => entity
  | .succeeded entity => entity

def Report.isRefusal : Report → Bool
  | .refused .. => true
  | .succeeded _ => false

/-- The report is taken in. -/
def record (opts : BackoffOptions) (states : Standing) : Report → Standing
  | .refused entity now jitter retryAfter => (penalize opts states entity now jitter retryAfter).2
  | .succeeded entity => succeed states entity

def refusals (entity : String) (reports : List Report) : ℕ :=
  ((reports.reverse.filter (·.upstream = entity)).takeWhile Report.isRefusal).length

/-- The refusals in a row. -/
def failuresOf (states : Standing) (entity : String) : ℕ :=
  (states.lookup entity).elim 0 BackoffState.failures

theorem failuresOf_record (report : Report) :
    failuresOf (record opts states report) entity =
      if report.upstream = entity then
        if report.isRefusal = true then failuresOf states entity + 1 else 0
      else failuresOf states entity := by
  unfold failuresOf
  cases report with
  | refused e now jitter retryAfter =>
    rcases eq_or_ne e entity with rfl | hne
    · simp [record, penalize, Report.upstream, Report.isRefusal]
    · simp [record, penalize, Report.upstream, hne, AList.lookup_insert_ne hne.symm]
  | succeeded e =>
    rcases eq_or_ne e entity with rfl | hne
    · simp [record, succeed, Report.upstream, Report.isRefusal]
    · simp [record, succeed, Report.upstream, hne, AList.lookup_erase_ne hne.symm]

theorem failuresOf_foldl (reports : List Report) :
    failuresOf (reports.foldl (record opts) ∅) entity = refusals entity reports := by
  induction reports using List.reverseRecOn with
  | nil => rfl
  | append_singleton reports report ih =>
    rw [foldl_append, foldl_cons, foldl_nil, failuresOf_record, ih, refusals, refusals,
      reverse_append, reverse_singleton, singleton_append, filter_cons]
    cases hen : decide (report.upstream = entity) <;> cases hrf : report.isRefusal <;>
      simp_all

theorem delay_eq (hmax : opts.max < 2 ^ 63) (jitter : ℤ → ℤ) {k : ℕ} (retryAfter : ℤ)
    (hwr : opts.base * 2 ^ min (k - 1) 32 < 2 ^ 63 ∨
      duration (opts.base * 2 ^ min (k - 1) 32) ≤ 0 ∨
      opts.max ≤ duration (opts.base * 2 ^ min (k - 1) 32)) :
    delay opts jitter k retryAfter = min opts.max
      (max (max (jitter (min opts.max (opts.base * 2 ^ min (k - 1) 32))) retryAfter) 0) := by
  have hpos : 0 < opts.base * 2 ^ min (k - 1) 32 :=
    Int.mul_pos opts.base_pos (Int.pow_pos (by decide))
  have hmx := opts.max_pos
  have hcp : (if opts.max < duration (opts.base * 2 ^ min (k - 1) 32) ∨
      duration (opts.base * 2 ^ min (k - 1) 32) ≤ 0 then opts.max
        else duration (opts.base * 2 ^ min (k - 1) 32)) =
      min opts.max (opts.base * 2 ^ min (k - 1) 32) := by
    generalize opts.base * 2 ^ min (k - 1) 32 = e at hpos hwr
    rcases Int.lt_or_le e (2 ^ 63) with hlt | hle
    · rw [duration, Int.bmod_eq_of_le (by omega) (by omega)]
      split_ifs <;> omega
    · split_ifs <;> omega
  unfold delay
  dsimp only
  rw [hcp]
  split_ifs <;> omega

/-- A product that wraps to a positive number below the cap is used as it is. -/
theorem delay_wrapped {k : ℕ} (hpos : 0 < duration (opts.base * 2 ^ min k 32))
    (hlt : duration (opts.base * 2 ^ min k 32) < opts.max) :
    delay opts id (k + 1) 0 = duration (opts.base * 2 ^ min k 32) := by
  simp only [delay, id, Nat.add_sub_cancel]
  split_ifs <;> omega

/-- **Backoff deadlines.** Every refusal sets the deadline to the longer of what was asked for and
the jittered exponential on the refusals in a row, capped, exactly unless the shift leaves 64 bits
and what is left is a positive number below the cap. -/
theorem penalize_deadline (opts : BackoffOptions) (hmax : opts.max < 2 ^ 63)
    (reports : List Report) (entity : String) :
    (opts.base * 2 ^ min (refusals entity reports) 32 < 2 ^ 63 ∨
      duration (opts.base * 2 ^ min (refusals entity reports) 32) ≤ 0 ∨
      opts.max ≤ duration (opts.base * 2 ^ min (refusals entity reports) 32)) ↔
    ∀ (now : Time) (jitter : ℤ → ℤ) (retryAfter : ℤ),
      let k := refusals entity reports + 1
      let e := min opts.max (opts.base * 2 ^ min (k - 1) 32)
      let deadline := now + min opts.max (max (max (jitter e) retryAfter) 0)
      let after := penalize opts (reports.foldl (record opts) ∅) entity now jitter retryAfter
      after.1 = deadline ∧ after.2.lookup entity = some ⟨k, deadline⟩ := by
  have hfl : failuresOf (reports.foldl (record opts) ∅) entity = refusals entity reports :=
    failuresOf_foldl reports
  constructor
  · intro hwrap now jitter retryAfter k e deadline after
    have hdl : delay opts jitter k retryAfter =
        min opts.max (max (max (jitter e) retryAfter) 0) := delay_eq hmax jitter retryAfter hwrap
    have haf : after = (deadline,
        (reports.foldl (record opts) ∅).insert entity ⟨k, deadline⟩) := by
      simp only [after, penalize]
      rw [← failuresOf, hfl, hdl]
    rw [haf]
    exact ⟨rfl, AList.lookup_insert _⟩
  · intro h
    by_contra hnot
    simp only [not_or, not_lt, not_le] at hnot
    obtain ⟨hbig, hpos, hlt⟩ := hnot
    -- without jitter and without a Retry-After the deadline is the exponential itself
    have hdl := (h 0 id 0).1
    simp only [penalize, Nat.add_sub_cancel, id] at hdl
    rw [← failuresOf, hfl, delay_wrapped hpos hlt] at hdl
    have := Int.add_left_cancel hdl
    omega

/-- The third refusal in a row, with half of the exponential drawn. -/
theorem penalize_deadline_third :
    (penalize (newBackoff second (300 * second))
      ([.refused "hub" 0 id 0, .refused "hub" (60 * second) id 0].foldl
        (record (newBackoff second (300 * second))) ∅) "hub" (90 * second) (· / 2) second).1 =
      92 * second :=
  ((penalize_deadline (newBackoff second (300 * second)) (by decide) _ "hub").mp (.inl (by decide))
    (90 * second) (· / 2) second).1.trans (by decide)

/-- With a base just over four seconds, the 33rd refusal in a row is followed by a wait of four
seconds instead of the longest. -/
theorem wrapped_delay_short :
    let opts : BackoffOptions := ⟨2 ^ 32 + 1, 300 * second, by decide, by decide⟩
    let reports := List.replicate 32 (Report.refused "hub" 0 id 0)
    let e := min opts.max (opts.base * 2 ^ min (refusals "hub" reports) 32)
    (penalize opts (reports.foldl (record opts) ∅) "hub" 0 id 0).1 = 2 ^ 32 ∧
      e = 300 * second := by
  intro opts reports e
  have hfl : failuresOf (reports.foldl (record opts) ∅) "hub" = _ := failuresOf_foldl reports
  simp only [penalize]
  decide

end Backoff

/-! ## Around a call -/

/-- A rate-limited error while the upstream is left alone. `rfc3339` is how a time is written. -/
def upstreamReady (rfc3339 : Time → String) (states : Standing) (entity upstream : String)
    (now : Time) : Except UpstreamError Unit :=
  match Backoff.ready states entity now with
  | none => .ok ()
  | some until_ => .error (.rateLimited (until_ - now) true
      (upstream ++ " (backing off until " ++ rfc3339 until_ ++ ")"))

/-- What the outcome of a call makes of the upstream's standing. The time is the one read before the
call. -/
def recordUpstream (opts : BackoffOptions) (jitter : ℤ → ℤ) (states : Standing) (entity : String)
    (now : Time) : Option UpstreamError → Standing
  | none => Backoff.succeed states entity
  | some err =>
    if classify err = some .rateLimited then
      let retryAfter := match err with
        | .rateLimited retryAfter true _ => retryAfter
        | _ => 0
      (Backoff.penalize opts states entity now jitter retryAfter).2
    else states

variable {entity : String} {rfc3339 : Time → String} {now : Time} {states : Standing}

theorem upstreamReady_eq_ok {upstream : String} {state : BackoffState}
    (h : upstreamReady rfc3339 states entity upstream now = .ok ())
    (hst : states.lookup entity = some state) : state.until_ ≤ now := by
  unfold upstreamReady at h
  split at h
  · rename_i hrd
    exact Backoff.ready_eq_none hrd hst
  · cases h

theorem is_of_upstreamReady_eq_error {upstream : String} {err : UpstreamError}
    (h : upstreamReady rfc3339 states entity upstream now = .error err) :
    err.is .rateLimited = true ∧ err.is .notFound = false := by
  unfold upstreamReady at h
  split at h
  · cases h
  · cases h
    exact ⟨rfl, rfl⟩

theorem lookup_recordUpstream (opts : BackoffOptions) (jitter : ℤ → ℤ) (states : Standing)
    (entity : String) (now : Time) (retryAfter : ℤ) (has : Bool) (path : String) :
    ∃ state, (recordUpstream opts jitter states entity now
        (some (.rateLimited retryAfter has path))).lookup entity = some state ∧
      now ≤ state.until_ ∧ (has = true → now + min retryAfter opts.max ≤ state.until_) := by
  have hnn := @Backoff.delay_nonneg opts jitter
  have hak := @Backoff.retryAfter_le_delay opts jitter
  refine ⟨_, AList.lookup_insert _, ?_, ?_⟩
  · exact Int.le_add_of_nonneg_right (hnn _ _)
  · rintro rfl
    exact Int.add_le_add_left (hak _ retryAfter) now

end Trove.Proxy
