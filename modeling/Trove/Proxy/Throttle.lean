import Trove.Proxy.Backoff
import Trove.Lib.Run

/-!
# Throttling under concurrent calls

Every upstream call of a fill or a tag resolution is made the same way: the clock is read, the
backoff asked, the call made, and its outcome recorded under the time that was read. The four are
steps of their own here, of any number of calls to one entity's upstream: a call whose check has
passed is made whatever is recorded meanwhile.
-/

namespace Trove.Proxy

open Lib Meta List

/-- Where an upstream call stands; `now` is the reading of its check. -/
inductive CallPhase
  | start
  | ready (now : Time)
  | calling (now : Time)
  | answered (now : Time) (outcome : Option UpstreamError)
  | done

structure Traffic where
  states : Standing
  clock : Time
  calls : List CallPhase
  /-- The refusals that named a delay, each with the time of its answer, since a success was last
  recorded. -/
  refusals : List (Time × ℤ)

inductive TrafficAction
  | tick (by_ : ℕ)
  | arrive
  | check (i : ℕ)
  | start (i : ℕ)
  | answer (i : ℕ) (outcome : Option UpstreamError)
  | record (i : ℕ) (draw : ℤ)

def namedDelay : Option UpstreamError → Option ℤ
  | some (.rateLimited retryAfter true _) => some retryAfter
  | _ => none

variable (opts : BackoffOptions) (rfc3339 : Time → String) (entity upstream : String)

/-- One step of one call. -/
def Traffic.step (w : Traffic) : TrafficAction → Option Traffic
  | .tick n => some { w with clock := w.clock + n }
  | .arrive => some { w with calls := w.calls ++ [.start] }
  | .check i =>
    match w.calls[i]? with
    | some .start =>
      match upstreamReady rfc3339 w.states entity upstream w.clock with
      | .ok () => some { w with calls := w.calls.set i (.ready w.clock) }
      | .error _ => some { w with calls := w.calls.set i .done }
    | _ => none
  | .start i =>
    match w.calls[i]? with
    | some (.ready now) => some { w with calls := w.calls.set i (.calling now) }
    | _ => none
  | .answer i outcome =>
    match w.calls[i]? with
    | some (.calling now) =>
      some { w with
        calls := w.calls.set i (.answered now outcome)
        refusals := w.refusals ++ ((namedDelay outcome).map fun d => (w.clock, d)).toList }
    | _ => none
  | .record i draw =>
    match w.calls[i]? with
    | some (.answered now outcome) =>
      some { w with
        states := recordUpstream opts (fun _ => draw) w.states entity now outcome
        calls := w.calls.set i .done
        refusals := if outcome = none then [] else w.refusals }
    | _ => none

/-- The reading a call in flight was checked at: its check has passed and its outcome is not
recorded. -/
def CallPhase.checkedAt : CallPhase → Option Time
  | .ready now | .calling now | .answered now _ => some now
  | _ => none

/-- No call is checked while another is in flight, and a refused call is answered at the reading it
was checked at. -/
def KeepsThrottle (w : Traffic) : TrafficAction → Prop
  | .check _ => ∀ call ∈ w.calls, call.checkedAt = none
  | .answer i outcome => ∀ call ∈ w.calls[i]?, (namedDelay outcome).isSome →
      call.checkedAt = some w.clock
  | _ => True

instance (w : Traffic) (a : TrafficAction) : Decidable (KeepsThrottle w a) := by
  cases a <;> dsimp only [KeepsThrottle] <;> infer_instance

/-! ## The invariant -/

def due (f : Time × ℤ) : Time := f.1 + min f.2 opts.max

/-- The refusal is the answer of the call, and not recorded yet. -/
def CallPhase.Owns (call : CallPhase) (f : Time × ℤ) : Prop :=
  ∃ outcome, call = .answered f.1 outcome ∧ namedDelay outcome = some f.2

def AloneInFlight (calls : List CallPhase) : Prop :=
  ∀ (i j : ℕ) (call other : CallPhase), calls[i]? = some call → calls[j]? = some other →
    call.checkedAt.isSome → other.checkedAt.isSome → i = j

/-- What every step preserves. -/
structure Throttled (w : Traffic) : Prop where
  alone : AloneInFlight w.calls
  checked : ∀ call ∈ w.calls, ∀ now, call.checkedAt = some now →
    now ≤ w.clock ∧ ∀ f ∈ w.refusals, due opts f ≤ now ∨ call.Owns f
  held : ∀ f ∈ w.refusals,
    (∃ state, w.states.lookup entity = some state ∧ due opts f ≤ state.until_) ∨
      ∃ call ∈ w.calls, call.Owns f

variable {opts rfc3339 entity upstream}

variable {call : CallPhase} {outcome : Option UpstreamError} {w : Traffic} {i : ℕ} {now : Time}

theorem CallPhase.Owns.checkedAt {f : Time × ℤ} (h : call.Owns f) : call.checkedAt = some f.1 := by
  obtain ⟨outcome, rfl, -⟩ := h
  rfl

theorem namedDelay_eq_some {d : ℤ} (h : namedDelay outcome = some d) :
    ∃ path, outcome = some (.rateLimited d true path) := by
  unfold namedDelay at h
  split at h
  · rename_i path
    cases h
    exact ⟨path, rfl⟩
  · cases h

/-! ## One step -/

section Set

variable {calls : List CallPhase} {i : ℕ} {call call' : CallPhase}

theorem AloneInFlight.set (h : AloneInFlight calls) (hi : calls[i]? = some call)
    (hfl : call.checkedAt.isSome ∨ call'.checkedAt = none ∨
      ∀ other ∈ calls, other.checkedAt = none) : AloneInFlight (calls.set i call') := by
  -- another call in flight beside the one that moved
  have hot (j : ℕ) (other : CallPhase) (hne : i ≠ j) (hj : calls[j]? = some other)
      (h' : call'.checkedAt.isSome) (ho : other.checkedAt.isSome) : False := by
    rcases hfl with hcl | hnn | hnn
    · exact hne (h i j call other hi hj hcl ho)
    · rw [hnn] at h'
      cases h'
    · rw [hnn other (mem_of_getElem? hj)] at ho
      cases ho
  intro a b x y ha hb hx hy
  rw [List.getElem?_set] at ha hb
  split_ifs at ha hb with hia _ hib _ hib
  · omega
  · cases ha
    exact (hot b y hib hb hx hy).elim
  · cases hb
    exact (hot a x hia ha hy hx).elim
  · exact h a b x y ha hb hx hy

theorem AloneInFlight.eq_of_mem_set (h : AloneInFlight calls) (hi : calls[i]? = some call)
    (hcl : call.checkedAt.isSome) {other : CallPhase} (hmem : other ∈ calls.set i call')
    (hot : other.checkedAt.isSome) : other = call' := by
  obtain ⟨j, hj⟩ := mem_iff_getElem?.mp hmem
  rw [List.getElem?_set] at hj
  split_ifs at hj with hij
  · exact (Option.some.inj hj).symm
  · exact absurd (h i j call other hi hj hcl hot) hij

theorem owner_mem_set (hi : calls[i]? = some call) {f : Time × ℤ} (hnot : ¬ call.Owns f)
    {owner : CallPhase} (hmem : owner ∈ calls) (how : owner.Owns f) :
    owner ∈ calls.set i call' := by
  obtain ⟨j, hj⟩ := mem_iff_getElem?.mp hmem
  apply mem_iff_getElem?.mpr
  refine ⟨j, ?_⟩
  rw [List.getElem?_set, if_neg, hj]
  rintro rfl
  rw [hi] at hj
  cases hj
  exact hnot how

theorem not_owns_of_checkedAt (h : call.checkedAt = none) (f : Time × ℤ) : ¬ call.Owns f := by
  intro how
  rw [how.checkedAt] at h
  cases h

end Set

section

variable (h : Throttled opts entity w)
include h

theorem Throttled.held_set (call' : CallPhase)
    (hi : w.calls[i]? = some call) {f : Time × ℤ} (hnot : ¬ call.Owns f) (hf : f ∈ w.refusals) :
    (∃ state, w.states.lookup entity = some state ∧ due opts f ≤ state.until_) ∨
      ∃ owner ∈ w.calls.set i call', owner.Owns f := by
  rcases h.held f hf with hbc | ⟨owner, hmem, how⟩
  · exact .inl hbc
  · exact .inr ⟨owner, owner_mem_set hi hnot hmem how, how⟩

theorem Throttled.set_idle {call' : CallPhase}
    (hi : w.calls[i]? = some call) (hcl : call.checkedAt = none) (hcl' : call'.checkedAt = none) :
    Throttled opts entity { w with calls := w.calls.set i call' } where
  alone := h.alone.set hi (.inr (.inl hcl'))
  checked := forall_mem_set h.checked (by simp [hcl'])
  held f hf := h.held_set call' hi (not_owns_of_checkedAt hcl f) hf

theorem Throttled.check (hi : w.calls[i]? = some .start)
    (hnn : ∀ call ∈ w.calls, call.checkedAt = none)
    (hrd : upstreamReady rfc3339 w.states entity upstream w.clock = .ok ()) :
    Throttled opts entity { w with calls := w.calls.set i (.ready w.clock) } := by
  have hbc (f : Time × ℤ) (hf : f ∈ w.refusals) :
      ∃ state, w.states.lookup entity = some state ∧ due opts f ≤ state.until_ := by
    rcases h.held f hf with hbc | ⟨owner, hmem, how⟩
    · exact hbc
    · exact absurd how (not_owns_of_checkedAt (hnn owner hmem) f)
  refine ⟨h.alone.set hi (.inr (.inr hnn)), forall_mem_set h.checked ?_,
    fun f hf => .inl (hbc f hf)⟩
  intro now hnow
  cases hnow
  refine ⟨le_rfl, fun f hf => .inl ?_⟩
  obtain ⟨state, hst, hdue⟩ := hbc f hf
  exact hdue.trans (upstreamReady_eq_ok hrd hst)

theorem Throttled.start (hi : w.calls[i]? = some (.ready now)) :
    Throttled opts entity { w with calls := w.calls.set i (.calling now) } := by
  have hnot (f : Time × ℤ) : ¬ (CallPhase.ready now).Owns f := by
    rintro ⟨outcome, hph, -⟩
    cases hph
  refine ⟨h.alone.set hi (.inl rfl), forall_mem_set h.checked ?_,
    fun f hf => h.held_set _ hi (hnot f) hf⟩
  intro now' hnow
  obtain ⟨hle, hdue⟩ := h.checked _ (mem_of_getElem? hi) now' hnow
  exact ⟨hle, fun f hf => .inl ((hdue f hf).resolve_right (hnot f))⟩

theorem Throttled.answer (hi : w.calls[i]? = some (.calling now))
    (hsf : (namedDelay outcome).isSome → now = w.clock) :
    Throttled opts entity { w with
      calls := w.calls.set i (.answered now outcome)
      refusals := w.refusals ++ ((namedDelay outcome).map fun d => (w.clock, d)).toList } := by
  have hnot (f : Time × ℤ) : ¬ (CallPhase.calling now).Owns f := by
    rintro ⟨outcome, hph, -⟩
    cases hph
  obtain ⟨hle, hdue⟩ := h.checked _ (mem_of_getElem? hi) now rfl
  -- the new refusal, if the outcome is one, is the call's own
  have hown (f : Time × ℤ) (hf : f ∈ ((namedDelay outcome).map fun d => (w.clock, d)).toList) :
      (CallPhase.answered now outcome).Owns f := by
    simp only [Option.mem_toList, Option.map_eq_some_iff] at hf
    obtain ⟨d, hd, rfl⟩ := hf
    have := hsf (by simp [hd])
    exact ⟨outcome, by rw [this], hd⟩
  refine ⟨h.alone.set hi (.inl rfl), fun call hmem now' hnow => ?_, fun f hf => ?_⟩
  · obtain rfl := h.alone.eq_of_mem_set hi rfl hmem (by simp [hnow])
    cases hnow
    refine ⟨hle, fun f hf => ?_⟩
    rcases mem_append.mp hf with hf | hf
    · exact .inl ((hdue f hf).resolve_right (hnot f))
    · exact .inr (hown f hf)
  · rcases mem_append.mp hf with hf | hf
    · exact h.held_set _ hi (hnot f) hf
    · exact .inr ⟨_, mem_set (List.getElem?_eq_some_iff.mp hi).1 _, hown f hf⟩

theorem Throttled.record (draw : ℤ) (hi : w.calls[i]? = some (.answered now outcome)) :
    Throttled opts entity { w with
      states := recordUpstream opts (fun _ => draw) w.states entity now outcome
      calls := w.calls.set i .done
      refusals := if outcome = none then [] else w.refusals } := by
  obtain ⟨hle, hdue⟩ := h.checked _ (mem_of_getElem? hi) now rfl
  refine ⟨h.alone.set hi (.inr (.inl rfl)), fun call hmem now' hnow => ?_, fun f hf => .inl ?_⟩
  · obtain rfl := h.alone.eq_of_mem_set hi rfl hmem (by simp [hnow])
    cases hnow
  · cases outcome with
    | none => cases hf
    | some err =>
      by_cases hlm : classify err = some .rateLimited
      · obtain ⟨retryAfter, has, path, rfl⟩ := classify_eq_rateLimited hlm
        obtain ⟨state, hst, hnow, hak⟩ := lookup_recordUpstream opts (fun _ => draw) w.states
          entity now retryAfter has path
        refine ⟨state, hst, ?_⟩
        rcases hdue f hf with hdue | ⟨outcome, hph, hdl⟩
        · exact hdue.trans hnow
        · obtain ⟨path', rfl⟩ := namedDelay_eq_some hdl
          cases hph
          exact hak rfl
      · have hss : recordUpstream opts (fun _ => draw) w.states entity now (some err) =
            w.states := if_neg hlm
        rw [hss]
        refine (h.held f hf).resolve_right ?_
        rintro ⟨owner, hmem, how⟩
        -- the owner is in flight, so it is this call, and its outcome is no refusal
        obtain ⟨j, hj⟩ := mem_iff_getElem?.mp hmem
        obtain rfl := h.alone i j _ owner hi hj rfl (by simp [how.checkedAt])
        rw [hi] at hj
        cases hj
        obtain ⟨outcome, hph, hdl⟩ := how
        obtain ⟨path, rfl⟩ := namedDelay_eq_some hdl
        cases hph
        exact hlm rfl

theorem Throttled.arrive : Throttled opts entity { w with calls := w.calls ++ [.start] } := by
  -- the new call is at no check
  have hold (j : ℕ) (call : CallPhase) (hj : (w.calls ++ [CallPhase.start])[j]? = some call)
      (hcl : call.checkedAt.isSome) : w.calls[j]? = some call := by
    rcases lt_or_ge j w.calls.length with hlt | hge
    · rwa [List.getElem?_append_left hlt] at hj
    · rw [List.getElem?_append_right hge] at hj
      obtain rfl := mem_singleton.mp (mem_of_getElem? hj)
      cases hcl
  refine ⟨fun i j call other hi hj hc ho => ?_, forall_mem_concat h.checked ?_, fun f hf => ?_⟩
  · exact h.alone i j call other (hold i call hi hc) (hold j other hj ho) hc ho
  · intro now hnow
    cases hnow
  · rcases h.held f hf with hbc | ⟨owner, hmem, how⟩
    · exact .inl hbc
    · exact .inr ⟨owner, mem_append_left _ hmem, how⟩

theorem Throttled.step {w' : Traffic} {a : TrafficAction}
    (hsf : KeepsThrottle w a) (hst : w.step opts rfc3339 entity upstream a = some w') :
    Throttled opts entity w' := by
  cases a with
  | tick n =>
    cases hst
    refine ⟨h.alone, fun call hmem now hnow => ?_, h.held⟩
    obtain ⟨hle, hdue⟩ := h.checked call hmem now hnow
    exact ⟨hle.trans (Int.le_add_of_nonneg_right (Int.natCast_nonneg n)), hdue⟩
  | arrive =>
    cases hst
    exact h.arrive
  | check i =>
    simp only [Traffic.step] at hst
    split at hst
    · rename_i hi
      split at hst
      · rename_i hrd
        cases hst
        exact h.check hi hsf hrd
      · cases hst
        exact h.set_idle hi rfl rfl
    · cases hst
  | start i =>
    simp only [Traffic.step] at hst
    split at hst
    · rename_i now hi
      cases hst
      exact h.start hi
    · cases hst
  | answer i outcome =>
    simp only [Traffic.step] at hst
    split at hst
    · rename_i now hi
      cases hst
      exact h.answer hi fun hnm => Option.some.inj (hsf _ hi hnm)
    · cases hst
  | record i draw =>
    simp only [Traffic.step] at hst
    split at hst
    · rename_i now outcome hi
      cases hst
      exact h.record draw hi
    · cases hst

end

/-! ## Whole runs -/

def Traffic.init (clock : Time) : Traffic := ⟨∅, clock, [], []⟩

theorem throttled_init (clock : Time) : Throttled opts entity (Traffic.init clock) := by
  constructor <;> simp [Traffic.init, AloneInFlight]

/-- **Throttling is honoured** in every run in which no call is checked while another is in flight
and every refused call is answered at the reading it was checked at: whenever a call starts, each
refusal that named a delay since a success was last recorded was answered at least that delay ago,
or the maximum if that is less. -/
theorem throttle_of_run (opts : BackoffOptions) (rfc3339 : Time → String)
    (entity upstream : String) (clock : Time) (as : List TrafficAction) (w w' : Traffic) (i : ℕ)
    (hsafe : Along (Traffic.step opts rfc3339 entity upstream) KeepsThrottle (.init clock) as)
    (hrun : exec (Traffic.step opts rfc3339 entity upstream) (.init clock) as = some w)
    (hstart : w.step opts rfc3339 entity upstream (.start i) = some w') :
    ∀ r retryAfter, (r, retryAfter) ∈ w.refusals → r + min retryAfter opts.max ≤ w.clock := by
  have hw : Throttled opts entity w := exec_invariant
    (fun _ _ _ h hok hs => h.step hok hs) (throttled_init clock) hsafe hrun
  intro r retryAfter hf
  simp only [Traffic.step] at hstart
  split at hstart
  · rename_i now hi
    obtain ⟨hle, hdue⟩ := hw.checked _ (mem_of_getElem? hi) now rfl
    rcases hdue _ hf with hdue | ⟨outcome, hph, -⟩
    · exact hdue.trans hle
    · cases hph
  · cases hstart

/-! ## A slow refusal -/

def slowRefusal (wait : ℕ) : List TrafficAction :=
  [.arrive, .check 0, .start 0, .tick (wait * 10 ^ 9),
    .answer 0 (some (.rateLimited (5 * second) true "/v2/library/nginx/manifests/latest")),
    .record 0 0]

/-- The upstream takes ten seconds to refuse and asks for five more; the next call goes out at
once. -/
theorem throttle_ignored :
    ∃ w ∈ exec (Traffic.step (newBackoff 0 0) (fun _ => "") "dockerhub" "library/nginx") (.init 0)
        (slowRefusal 10 ++ [.arrive, .check 1]),
      (10 * second, 5 * second) ∈ w.refusals ∧ w.clock = 10 * second ∧
      (w.step (newBackoff 0 0) (fun _ => "") "dockerhub" "library/nginx" (.start 1)).isSome := by
  decide +kernel

/-- A refusal that comes at once, and a call five seconds later. -/
theorem throttle_of_run_at_once :
    ∃ w, exec (Traffic.step (newBackoff 0 0) (fun _ => "") "dockerhub" "library/nginx") (.init 0)
        (slowRefusal 0 ++ [.tick (5 * 10 ^ 9), .arrive, .check 1]) = some w ∧
      (0, 5 * second) ∈ w.refusals ∧ 0 + min (5 * second) (newBackoff 0 0).max ≤ w.clock := by
  obtain ⟨w, hrun, hmem, hsm⟩ : ∃ w ∈ exec
      (Traffic.step (newBackoff 0 0) (fun _ => "") "dockerhub" "library/nginx") (.init 0)
      (slowRefusal 0 ++ [.tick (5 * 10 ^ 9), .arrive, .check 1]),
    (0, 5 * second) ∈ w.refusals ∧
    (w.step (newBackoff 0 0) (fun _ => "") "dockerhub" "library/nginx" (.start 1)).isSome := by
    decide +kernel
  obtain ⟨w', hst⟩ := Option.isSome_iff_exists.mp hsm
  exact ⟨w, hrun, hmem, throttle_of_run (newBackoff 0 0) (fun _ => "") "dockerhub" "library/nginx" 0
    (slowRefusal 0 ++ [.tick (5 * 10 ^ 9), .arrive, .check 1]) w w' 1 (by decide +kernel) hrun
    hst 0 (5 * second) hmem⟩

end Trove.Proxy
