import Mathlib.Data.Int.ConditionallyCompleteOrder
import Trove.Lib.Bucket
import Trove.Meta.Types

/-!
# Rate limiting of authentication attempts

A limiter holds a bucket for each key it has seen, at most `maxKeys` of them: when a new key arrives
at a full map the keys that owe nothing are dropped, and after them those that owe the least. An
attempt is limited by the account it names and by the address it comes from.

A call is given its `Reading`: the clock, and the order in which Go visits the map. Durations are
integers without a bound, which is Go's arithmetic where `Burst * Refill` is a duration.
-/

namespace Trove.Authn

open Meta Lib List Function

/-- How many attempts may be made at once, how long one takes to come back, and how many keys are
held. -/
structure LimiterConfig where
  (burst refill maxKeys : ℤ)

def defaultAccountLimit : LimiterConfig := ⟨10, 10 * second, 4096⟩
def defaultAddressLimit : LimiterConfig := ⟨60, 2 * second, 4096⟩

/-- Which value is not positive. -/
inductive InvalidLimit
  | burst (got : ℤ)
  | refill (got : ℤ)
  | maxKeys (got : ℤ)
  deriving DecidableEq

def LimiterConfig.validate (c : LimiterConfig) : Except InvalidLimit Unit :=
  if c.burst ≤ 0 then .error (.burst c.burst)
  else if c.refill ≤ 0 then .error (.refill c.refill)
  else if c.maxKeys ≤ 0 then .error (.maxKeys c.maxKeys)
  else .ok ()

theorem LimiterConfig.pos_of_validate {c : LimiterConfig} (h : c.validate = .ok ()) :
    0 < c.burst ∧ 0 < c.refill ∧ 0 < c.maxKeys := by
  unfold validate at h
  split_ifs at h
  omega

/-- When each key's allowance is restored. -/
structure Limiter where
  cfg : LimiterConfig
  valid : cfg.validate = .ok ()
  buckets : GoMap String Time

def newLimiter (cfg : LimiterConfig) : Except InvalidLimit Limiter :=
  match h : cfg.validate with
  | .error reason => .error reason
  | .ok () => .ok ⟨cfg, h, ∅⟩

/-- What one call of a limiter finds: the time, and the order in which a map's keys are visited. -/
structure Reading where
  now : Time
  order : List String → List String
  visits : ∀ keys, (order keys).Perm keys

namespace Limiter

variable (l : Limiter) (key : String) (r : Reading)

def wait (restoredAt now : Time) : ℤ := Bucket.wait l.cfg.burst l.cfg.refill restoredAt now

/-- One step of the walk for the key that owes the least. The zero time stands for none found. -/
def poorer (buckets : GoMap String Time) (found : String × Time) (key : String) : String × Time :=
  let restoredAt := (buckets.lookup key).getD 0
  if found.2 = 0 ∨ restoredAt < found.2 then (key, restoredAt) else found

/-- The key that owes the least. -/
def poorest (buckets : GoMap String Time) (keys : List String) : String :=
  (keys.foldl (poorer buckets) ("", 0)).1

/-- The second loop of `evict`; one pass takes one key, so as many passes as keys are enough. -/
def dropPoorest (maxKeys : ℤ) : ℕ → GoMap String Time → GoMap String Time
  | 0, buckets => buckets
  | passes + 1, buckets =>
    if buckets.keys.length < maxKeys then buckets
    else
      dropPoorest maxKeys passes (buckets.erase (poorest buckets (r.order buckets.keys)))

/-- Make room for a key when the map is full. -/
def evict (buckets : GoMap String Time) : GoMap String Time :=
  if buckets.keys.length < l.cfg.maxKeys then buckets
  else
    let owing := buckets.restrict fun _ restoredAt => r.now < restoredAt
    dropPoorest r l.cfg.maxKeys owing.keys.length owing

def bucket : Time × Limiter :=
  match l.buckets.lookup key with
  | some restoredAt => (restoredAt, l)
  | none => (r.now, { l with buckets := (l.evict r l.buckets).insert key r.now })

def allow : (Bool × ℤ) × Limiter :=
  let (restoredAt, l) := l.bucket key r
  if 0 < l.wait restoredAt r.now then ((false, l.wait restoredAt r.now), l)
  else
    ((true, 0), { l with
      buckets := l.buckets.insert key (Bucket.spend l.cfg.refill restoredAt r.now) })

/-- Take one attempt back. -/
def refund : Limiter :=
  match l.buckets.lookup key with
  | none => l
  | some restoredAt =>
    { l with buckets := l.buckets.insert key (Bucket.refund l.cfg.refill restoredAt r.now) }

def peek : (Bool × ℤ) × Limiter :=
  let (restoredAt, l) := l.bucket key r
  ((decide (l.wait restoredAt r.now ≤ 0), max (l.wait restoredAt r.now) 0), l)

/-! ### Eviction -/

theorem poorer_fst (buckets : GoMap String Time) (found : String × Time) (key : String) :
    (poorer buckets found key).1 = key ∨ poorer buckets found key = found := by
  unfold poorer
  dsimp only
  split_ifs
  · exact .inl rfl
  · exact .inr rfl

theorem foldl_poorer_mem (buckets : GoMap String Time) (keys : List String)
    (found : String × Time) : (keys.foldl (poorer buckets) found).1 ∈ found.1 :: keys := by
  induction keys generalizing found with
  | nil => simp
  | cons key keys ih =>
    rw [foldl_cons]
    have := ih (poorer buckets found key)
    rcases poorer_fst buckets found key with hkey | hfn
    · rw [hkey] at this
      exact mem_cons_of_mem _ this
    · rw [hfn] at this ⊢
      rcases mem_cons.mp this with heq | hmem
      · exact mem_cons.mpr (.inl heq)
      · exact mem_cons_of_mem _ (mem_cons_of_mem _ hmem)

theorem poorest_mem (buckets : GoMap String Time) {keys : List String} (h : keys ≠ []) :
    poorest buckets keys ∈ keys := by
  obtain ⟨key, keys, rfl⟩ := exists_cons_of_ne_nil h
  have hfr : poorer buckets ("", 0) key = (key, (buckets.lookup key).getD 0) := by
    simp [poorer]
  exact foldl_poorer_mem buckets keys _

variable {maxKeys : ℤ} {buckets : GoMap String Time} {t now : Time}

theorem length_dropPoorest_lt (hpos : 0 < maxKeys) (passes : ℕ) (buckets : GoMap String Time)
    (hps : buckets.keys.length ≤ passes) :
    ((dropPoorest r maxKeys passes buckets).keys.length : ℤ) < maxKeys := by
  induction passes generalizing buckets with
  | zero =>
    unfold dropPoorest
    omega
  | succ passes ih =>
    unfold dropPoorest
    split_ifs with hrm
    · exact hrm
    · apply ih
      have hpr := r.visits buckets.keys
      have hlen := hpr.length_eq
      have hne : r.order buckets.keys ≠ [] := by
        intro hnil
        rw [hnil, length_nil] at hlen
        omega
      have hmem := hpr.mem_iff.mp (poorest_mem buckets hne)
      rw [AList.keys_erase, length_erase_of_mem hmem]
      omega

theorem length_evict_lt (buckets : GoMap String Time) :
    ((l.evict r buckets).keys.length : ℤ) < l.cfg.maxKeys := by
  unfold evict
  split_ifs with hrm
  · exact hrm
  · exact length_dropPoorest_lt r (LimiterConfig.pos_of_validate l.valid).2.2 _ _ le_rfl

variable {l r key}

theorem lookup_of_dropPoorest {passes : ℕ}
    (h : (dropPoorest r maxKeys passes buckets).lookup key = some t) :
    buckets.lookup key = some t := by
  induction passes generalizing buckets with
  | zero => exact h
  | succ passes ih =>
    unfold dropPoorest at h
    split_ifs at h
    · exact h
    · exact (AList.lookup_erase_eq_some.mp (ih h)).2

theorem lookup_of_evict (h : (l.evict r buckets).lookup key = some t) :
    buckets.lookup key = some t := by
  unfold evict at h
  split_ifs at h
  · exact h
  · exact (AList.lookup_restrict_eq_some.mp (lookup_of_dropPoorest h)).1

theorem cfg_bucket : (l.bucket key r).2.cfg = l.cfg := by
  unfold bucket
  split <;> rfl

theorem cfg_peek : (l.peek key r).2.cfg = l.cfg := cfg_bucket

theorem cfg_allow : (l.allow key r).2.cfg = l.cfg := by
  unfold allow
  dsimp only
  split_ifs <;> exact cfg_bucket

theorem cfg_refund : (l.refund key r).cfg = l.cfg := by
  unfold refund
  split <;> rfl

/-! ### Debts -/

/-- Each key owes at most its number of attempts. -/
def Owing (l : Limiter) (debt : String → ℕ) (now : Time) : Prop :=
  ∀ key restoredAt, l.buckets.lookup key = some restoredAt →
    Bucket.Owes l.cfg.refill (debt key) restoredAt now

theorem refill_pos (l : Limiter) : 0 < l.cfg.refill := (LimiterConfig.pos_of_validate l.valid).2.1

variable {debt : String → ℕ}

theorem Owing.mono {now' : Time} (h : l.Owing debt now) (hle : now ≤ now') :
    l.Owing debt now' := fun key t hkey => (h key t hkey).mono hle

theorem Owing.bucket (h : l.Owing debt r.now) :
    (l.bucket key r).2.Owing debt r.now ∧
      Bucket.Owes l.cfg.refill (debt key) (l.bucket key r).1 r.now := by
  unfold Limiter.bucket
  split
  · rename_i t hkey
    exact ⟨h, h key t hkey⟩
  · refine ⟨fun other t hot => ?_, Bucket.owes_now l.refill_pos _ _⟩
    rcases AList.lookup_insert_eq_some.mp hot with ⟨rfl, rfl⟩ | ⟨-, hot⟩
    · exact Bucket.owes_now l.refill_pos _ _
    · exact h other t (lookup_of_evict hot)

theorem Owing.peek (h : l.Owing debt r.now) : (l.peek key r).2.Owing debt r.now := h.bucket.1

theorem Owing.peek_ok (h : l.Owing debt r.now) (hdb : (debt key : ℤ) < l.cfg.burst) :
    (l.peek key r).1.1 = true := by
  unfold Limiter.peek wait
  simp only [cfg_bucket, decide_eq_true_eq]
  exact h.bucket.2.wait_nonpos l.refill_pos hdb

def charge (debt : String → ℕ) (key : String) : String → ℕ :=
  update debt key (debt key + 1)

theorem le_charge (debt : String → ℕ) (key other : String) :
    debt other ≤ charge debt key other := by
  unfold charge
  rw [update_apply]
  split_ifs with heq
  · subst heq
    omega
  · rfl

theorem Owing.of_le {debt' : String → ℕ} (h : l.Owing debt now)
    (hle : ∀ key, debt key ≤ debt' key) : l.Owing debt' now :=
  fun key t hkey => (h key t hkey).of_le l.refill_pos (hle key)

theorem Owing.allow (h : l.Owing debt r.now) :
    (l.allow key r).2.Owing (charge debt key) r.now := by
  obtain ⟨how, hos⟩ := h.bucket
  unfold Limiter.allow
  dsimp only
  split_ifs
  · exact how.of_le (le_charge debt key)
  · intro other t hot
    rcases AList.lookup_insert_eq_some.mp hot with ⟨rfl, rfl⟩ | ⟨hne, hot⟩
    · simpa [charge, cfg_bucket] using hos.spend l.refill_pos
    · simpa [charge, hne] using how other t hot

theorem Owing.refund (h : l.Owing (charge debt key) r.now) : (l.refund key r).Owing debt r.now := by
  unfold Limiter.refund
  split
  · rename_i hnn
    intro other t hot
    have hne : other ≠ key := by
      rintro rfl
      rw [hnn] at hot
      cases hot
    simpa [charge, hne] using h other t hot
  · rename_i restoredAt hkey
    intro other t hot
    rcases AList.lookup_insert_eq_some.mp hot with ⟨rfl, rfl⟩ | ⟨hne, hot⟩
    · have how := h other restoredAt hkey
      rw [charge, update_self] at how
      exact how.refund l.refill_pos
    · simpa [charge, hne] using h other t hot

end Limiter

/-! ## Both dimensions -/

/-- What attempts are counted by. -/
inductive Dimension
  | account
  | address
  deriving DecidableEq

structure Attempt where
  (account address : String)

def Attempt.key (a : Attempt) : Dimension → String
  | .account => a.account
  | .address => a.address

structure AttemptLimiter where
  limiter : Dimension → Limiter
  reads : ℕ

def newAttemptLimiter (account address : LimiterConfig) :
    Except (Dimension × InvalidLimit) AttemptLimiter :=
  match newLimiter account with
  | .error reason => .error (.account, reason)
  | .ok byAccount =>
    match newLimiter address with
    | .error reason => .error (.address, reason)
    | .ok byAddress =>
      .ok ⟨fun d => match d with | .account => byAccount | .address => byAddress, 0⟩

namespace AttemptLimiter

variable (env : ℕ → Reading)

def call {α : Type} (f : Limiter → Reading → α × Limiter) (d : Dimension) (l : AttemptLimiter) :
    α × AttemptLimiter :=
  let answer := f (l.limiter d) (env l.reads)
  (answer.1, ⟨update l.limiter d answer.2, l.reads + 1⟩)

/-- One call for each key the attempt has, the account first, and the longest wait among refusals.
-/
def each (f : Limiter → String → Reading → (Bool × ℤ) × Limiter) (a : Attempt)
    (l : AttemptLimiter) : ℤ × AttemptLimiter :=
  [Dimension.account, Dimension.address].foldl (fun acc d =>
    if a.key d = "" then acc
    else
      let answer := call env (fun l r => f l (a.key d) r) d acc.2
      (if answer.1.1 then acc.1 else max acc.1 answer.1.2, answer.2)) (0, l)

/-- Both dimensions are asked before either is spent, and what spending says is not looked at. -/
def allow (a : Attempt) (l : AttemptLimiter) : (Bool × ℤ) × AttemptLimiter :=
  let (wait, l) := each env Limiter.peek a l
  if 0 < wait then ((false, wait), l) else ((true, 0), (each env Limiter.allow a l).2)

def succeed (a : Attempt) (l : AttemptLimiter) : AttemptLimiter :=
  (each env (fun l key r => ((true, 0), l.refund key r)) a l).2

/-! ### Debts -/

theorem each_spec (f : Limiter → String → Reading → (Bool × ℤ) × Limiter) (a : Attempt)
    (l : AttemptLimiter) :
    l.reads ≤ (each env f a l).2.reads ∧
    (∀ d, a.key d = "" → (each env f a l).2.limiter d = l.limiter d) ∧
    (∀ d, a.key d ≠ "" → ∃ n, l.reads ≤ n ∧ n < (each env f a l).2.reads ∧
      (each env f a l).2.limiter d = (f (l.limiter d) (a.key d) (env n)).2) ∧
    ((∀ d, a.key d ≠ "" → ∀ n, l.reads ≤ n → (f (l.limiter d) (a.key d) (env n)).1.1 = true) →
      (each env f a l).1 = 0) := by
  unfold each call
  by_cases hacc : a.key .account = "" <;> by_cases had : a.key .address = ""
  · simp only [foldl_cons, foldl_nil, hacc, had, if_true]
    refine ⟨le_rfl, fun _ _ => trivial, fun d hd => ?_, fun _ => trivial⟩
    cases d <;> contradiction
  · simp only [foldl_cons, foldl_nil, hacc, had, if_true, if_false]
    refine ⟨by omega, fun d hd => ?_, fun d hd => ?_, fun hok => ?_⟩
    · cases d
      · rfl
      · contradiction
    · cases d
      · contradiction
      · exact ⟨l.reads, le_rfl, by omega, by simp⟩
    · simp [hok .address had l.reads le_rfl]
  · simp only [foldl_cons, foldl_nil, hacc, had, if_true, if_false]
    refine ⟨by omega, fun d hd => ?_, fun d hd => ?_, fun hok => ?_⟩
    · cases d
      · contradiction
      · rfl
    · cases d
      · exact ⟨l.reads, le_rfl, by omega, by simp⟩
      · contradiction
    · simp [hok .account hacc l.reads le_rfl]
  · simp only [foldl_cons, foldl_nil, hacc, had, if_false]
    refine ⟨by omega, fun d hd => ?_, fun d hd => ?_, fun hok => ?_⟩
    · cases d <;> contradiction
    · cases d
      · exact ⟨l.reads, le_rfl, by omega, by simp⟩
      · exact ⟨l.reads + 1, by omega, by omega, by simp⟩
    · simp [hok .account hacc l.reads le_rfl, hok .address had (l.reads + 1) (by omega)]

variable {f : Limiter → String → Reading → (Bool × ℤ) × Limiter}

theorem cfg_each (hf : ∀ l key r, (f l key r).2.cfg = l.cfg) (a : Attempt) (l : AttemptLimiter)
    (d : Dimension) : ((each env f a l).2.limiter d).cfg = (l.limiter d).cfg := by
  obtain ⟨-, hem, hkey, -⟩ := each_spec env f a l
  by_cases hd : a.key d = ""
  · rw [hem d hd]
  · obtain ⟨n, -, -, hlm⟩ := hkey d hd
    rw [hlm, hf]

theorem cfg_allow (a : Attempt) (l : AttemptLimiter) (d : Dimension) :
    ((l.allow env a).2.limiter d).cfg = (l.limiter d).cfg := by
  have hpk := cfg_each env (f := Limiter.peek) (fun _ _ _ => Limiter.cfg_peek) a l d
  unfold allow
  dsimp only
  split_ifs
  · exact hpk
  · exact (cfg_each env (f := Limiter.allow) (fun _ _ _ => Limiter.cfg_allow) a _ d).trans hpk

theorem cfg_succeed (a : Attempt) (l : AttemptLimiter) (d : Dimension) :
    ((l.succeed env a).limiter d).cfg = (l.limiter d).cfg :=
  cfg_each env (fun _ _ _ => Limiter.cfg_refund) a l d

variable {env}

/-- The keys owe at most these numbers of attempts when the clock is read next. -/
def Owing (env : ℕ → Reading) (l : AttemptLimiter) (debt : Dimension → String → ℕ) : Prop :=
  ∀ d, (l.limiter d).Owing (debt d) (env l.reads).now

def charge (a : Attempt) (debt : Dimension → String → ℕ) (d : Dimension) : String → ℕ :=
  if a.key d = "" then debt d else Limiter.charge (debt d) (a.key d)

variable {l : AttemptLimiter} {a : Attempt} {debt debt' : Dimension → String → ℕ}

section

variable (hcl : Monotone fun n => (env n).now) (h : Owing env l debt)
include hcl h

theorem Owing.each (hsk : ∀ d, a.key d = "" → debt d = debt' d)
    (hf : ∀ d r, a.key d ≠ "" → (l.limiter d).Owing (debt d) r.now →
      (f (l.limiter d) (a.key d) r).2.Owing (debt' d) r.now) :
    Owing env (each env f a l).2 debt' := by
  obtain ⟨hrd, hem, hkey, -⟩ := each_spec env f a l
  intro d
  by_cases hd : a.key d = ""
  · rw [hem d hd, ← hsk d hd]
    exact (h d).mono (hcl hrd)
  · obtain ⟨n, hfr, hls, hlm⟩ := hkey d hd
    rw [hlm]
    exact (hf d (env n) hd ((h d).mono (hcl hfr))).mono (hcl hls.le)

theorem Owing.peek : Owing env (AttemptLimiter.each env Limiter.peek a l).2 debt :=
  h.each hcl (fun _ _ => rfl) fun _ _ _ hd => hd.peek

theorem Owing.spend : Owing env (AttemptLimiter.each env Limiter.allow a l).2 (charge a debt) := by
  refine h.each hcl (fun d hd => ?_) fun d r hd how => ?_
  · rw [charge, if_pos hd]
  · rw [charge, if_neg hd]
    exact how.allow

end

theorem Owing.succeed (hcl : Monotone fun n => (env n).now)
    (h : Owing env l (charge a debt)) : Owing env (l.succeed env a) debt := by
  refine h.each hcl (fun d hd => ?_) fun d r hd how => ?_
  · rw [charge, if_pos hd]
  · rw [charge, if_neg hd] at how
    exact how.refund

theorem Owing.of_le (h : Owing env l debt) (hle : ∀ d key, debt d key ≤ debt' d key) :
    Owing env l debt' := fun d => (h d).of_le (hle d)

theorem Owing.allow_cases (hcl : Monotone fun n => (env n).now) (h : Owing env l debt) :
    (∃ wait l', l.allow env a = ((false, wait), l') ∧ Owing env l' debt) ∨
      ∃ l', l.allow env a = ((true, 0), l') ∧ Owing env l' (charge a debt) := by
  unfold AttemptLimiter.allow
  dsimp only
  split_ifs with hwt
  · exact .inl ⟨_, _, rfl, h.peek hcl⟩
  · exact .inr ⟨_, rfl, (h.peek hcl).spend hcl⟩

theorem Owing.allow_ok (hcl : Monotone fun n => (env n).now) (h : Owing env l debt)
    (hdb : ∀ d, a.key d ≠ "" → (debt d (a.key d) : ℤ) < (l.limiter d).cfg.burst) :
    (l.allow env a).1.1 = true := by
  obtain ⟨-, -, -, hnn⟩ := each_spec env Limiter.peek a l
  have hwt := hnn fun d hd n hn => ((h d).mono (hcl hn)).peek_ok (hdb d hd)
  unfold AttemptLimiter.allow
  simp only [hwt, lt_irrefl, if_false]

end AttemptLimiter

end Trove.Authn
