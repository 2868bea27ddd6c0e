import Trove.Authn.Login
import Trove.Authn.Ratelimit

/-!
# Rate limiting and correct credentials

Password logins and robot secrets are checked behind one limiter. A right password takes its attempt
back, a right robot secret does not: so as long as every attempt is right, a key owes only the robot
attempts made with it.

Attempts are made one after another, and the store answers every call.
-/

namespace Trove.Authn

open Meta Lib

inductive SubjectKind
  | user
  | robot
  | anonymous
  deriving DecidableEq

/-- What an authentication reads of a subject. -/
structure Subject where
  id : String
  kind : SubjectKind

/-- The keyed digest of a secret, and its expiry. -/
structure RobotCredential (M : Type) where
  secretHash : M
  expiresAt : Time

structure Robots (M : Type) where
  getSubject : String → Option Subject
  credentials : String → Option (RobotCredential M)
  verifyMAC : String → String → M → Bool

def Robots.getRobotCredential {M : Type} (robots : Robots M) (name : String) (now : Time) :
    Option (RobotCredential M) :=
  (robots.credentials name).filter fun cred => now < cred.expiresAt

def robotSecretPrefix : String := "trove_r_"

/-- `Verify` behind the limiter. -/
def Robots.checkSecret {M : Type} (robots : Robots M) (now : Time) (name presented : String) :
    Except LoginError Unit :=
  if Strings.hasPrefix presented robotSecretPrefix then
    match robots.getSubject name with
    | none => .error .badCredentials
    | some subject =>
      if subject.kind = .robot then
        match robots.getRobotCredential name now with
        | none => .error .badCredentials
        | some cred =>
          if robots.verifyMAC presented ("robot-secret:" ++ subject.id) cred.secretHash then .ok ()
          else .error .badCredentials
      else .error .badCredentials
  else .error .badCredentials

inductive AuthError
  /-- `RateLimitedError`. -/
  | rateLimited (retryAfter : ℤ)
  | refused (err : LoginError)
  deriving DecidableEq

/-- The limiter both paths share, and the credentials. -/
structure Gateway (H : Type) where
  limiter : AttemptLimiter
  users : GoMap String (UserCredential H)

variable {H M : Type} (c : Scheme H) (params : Params) (robots : Robots M) (env : ℕ → Reading)

def Gateway.authenticate (g : Gateway H) (username password source : String)
    (random : List UInt8) : Except AuthError Unit × Gateway H :=
  match g.limiter.allow env ⟨username, source⟩ with
  | ((false, wait), limiter) => (.error (.rateLimited wait), { g with limiter := limiter })
  | ((true, _), limiter) =>
    if username = "" ∨ password = "" then
      (.error (.refused .badCredentials), { g with limiter := limiter })
    else
      match checkCredential c params (g.users.lookup username) random password with
      | .error err => (.error (.refused err), { g with limiter := limiter })
      | .ok rehashed =>
        (.ok (), {
          limiter := limiter.succeed env ⟨username, source⟩
          users := rehashed.elim g.users fun cred => g.users.insert username cred })

def Gateway.verify (g : Gateway H) (name presented source : String) :
    Except AuthError Unit × Gateway H :=
  match g.limiter.allow env ⟨name, source⟩ with
  | ((false, wait), limiter) => (.error (.rateLimited wait), { g with limiter := limiter })
  | ((true, _), limiter) =>
    ((robots.checkSecret (env limiter.reads).now name presented).mapError .refused,
      { g with limiter := { limiter with reads := limiter.reads + 1 } })

/-! ## Sequences of attempts -/

/-- What a caller presents. -/
inductive Presented
  | password (username password source : String) (random : List UInt8)
  | robotSecret (name presented source : String)

def Presented.attempt : Presented → Attempt
  | .password username _ source _ => ⟨username, source⟩
  | .robotSecret name _ source => ⟨name, source⟩

def Presented.isRobot : Presented → Bool
  | .password .. => false
  | .robotSecret .. => true

/-- The attempt, by its path. -/
def Gateway.present (g : Gateway H) : Presented → Except AuthError Unit × Gateway H
  | .password username password source random =>
    g.authenticate c params env username password source random
  | .robotSecret name presented source => g.verify robots env name presented source

/-- The secret is the right one of a live account. -/
def Gateway.Right (g : Gateway H) : Presented → Prop
  | .password username password _ random => username ≠ "" ∧ password ≠ "" ∧
      (checkCredential c params (g.users.lookup username) random password).isOk
  | .robotSecret name presented source =>
      (robots.checkSecret (env (g.limiter.allow env ⟨name, source⟩).2.reads).now name
        presented).isOk

instance (g : Gateway H) (p : Presented) : Decidable (g.Right c params robots env p) := by
  cases p <;> dsimp only [Gateway.Right] <;> infer_instance

/-- The robot attempts made with the key. -/
def robotAttempts (d : Dimension) (key : String) (ps : List Presented) : ℕ :=
  ps.countP fun p => p.isRobot && p.attempt.key d == key

variable {c params robots env}

variable {p : Presented} {debt : Dimension → String → ℕ} {g : Gateway H}

theorem charge_le_robotAttempts (debt : Dimension → String → ℕ) (hrb : p.isRobot = true)
    (d : Dimension) (key : String) :
    AttemptLimiter.charge p.attempt debt d key ≤ debt d key + robotAttempts d key [p] := by
  unfold AttemptLimiter.charge Limiter.charge robotAttempts
  split_ifs with hem
  · omega
  · rw [Function.update_apply]
    split_ifs with heq
    · simp [heq, hrb]
    · omega

theorem Gateway.present_owing (hcl : Monotone fun n => (env n).now)
    (h : AttemptLimiter.Owing env g.limiter debt) (hrg : g.Right c params robots env p) :
    AttemptLimiter.Owing env (g.present c params robots env p).2.limiter
      fun d key => debt d key + robotAttempts d key [p] := by
  have hle : ∀ d key, debt d key ≤ debt d key + robotAttempts d key [p] := by
    omega
  cases p with
  | password username password source random =>
    obtain ⟨hus, hps, hok⟩ := hrg
    unfold Gateway.present Gateway.authenticate
    rcases h.allow_cases (a := ⟨username, source⟩) hcl with
      ⟨wait, l', hal, how⟩ | ⟨l', hal, how⟩
    · simp only [hal]
      exact how.of_le hle
    · cases hch : checkCredential c params (g.users.lookup username) random password with
      | error err =>
        rw [hch] at hok
        cases hok
      | ok rehashed =>
        simp only [hal, hch, hus, hps, or_self, if_false]
        exact (how.succeed hcl).of_le hle
  | robotSecret name presented source =>
    unfold Gateway.present Gateway.verify
    rcases h.allow_cases (a := ⟨name, source⟩) hcl with
      ⟨wait, l', hal, how⟩ | ⟨l', hal, how⟩
    · simp only [hal]
      exact how.of_le hle
    · simp only [hal]
      intro d
      exact ((how d).mono (hcl (Nat.le_succ _))).of_le
        (charge_le_robotAttempts debt (p := .robotSecret name presented source) rfl d)

theorem Gateway.cfg_present (g : Gateway H) (p : Presented) (d : Dimension) :
    ((g.present c params robots env p).2.limiter.limiter d).cfg = (g.limiter.limiter d).cfg := by
  have hcfg := AttemptLimiter.cfg_allow env p.attempt g.limiter d
  obtain ⟨⟨⟨ok, wait⟩, l'⟩, hal⟩ : ∃ answer, g.limiter.allow env p.attempt = answer := ⟨_, rfl⟩
  rw [hal] at hcfg
  cases p with
  | password username password source random =>
    change g.limiter.allow env ⟨username, source⟩ = _ at hal
    simp only [present, authenticate, hal]
    cases ok
    · exact hcfg
    · dsimp only
      split_ifs
      · exact hcfg
      · split
        · exact hcfg
        · exact (AttemptLimiter.cfg_succeed env _ _ d).trans hcfg
  | robotSecret name presented source =>
    change g.limiter.allow env ⟨name, source⟩ = _ at hal
    simp only [present, verify, hal]
    cases ok <;> exact hcfg

/-! ## Whole sequences -/

def Gateway.step (c : Scheme H) (params : Params) (robots : Robots M) (env : ℕ → Reading)
    (g : Gateway H) (p : Presented) : Option (Gateway H) :=
  some (g.present c params robots env p).2

theorem robotAttempts_cons (d : Dimension) (key : String) (p : Presented) (ps : List Presented) :
    robotAttempts d key (p :: ps) = robotAttempts d key [p] + robotAttempts d key ps := by
  unfold robotAttempts
  rw [← List.countP_append]
  rfl

theorem Gateway.owing_of_run (hcl : Monotone fun n => (env n).now) {g' : Gateway H}
    {ps : List Presented} (h : AttemptLimiter.Owing env g.limiter debt)
    (hrg : Along (step c params robots env) (Right c params robots env) g ps)
    (hrun : exec (step c params robots env) g ps = some g') :
    (AttemptLimiter.Owing env g'.limiter fun d key => debt d key + robotAttempts d key ps) ∧
      ∀ d, (g'.limiter.limiter d).cfg = (g.limiter.limiter d).cfg := by
  induction ps generalizing g debt with
  | nil =>
    obtain rfl : g = g' := by simpa [exec] using hrun
    exact ⟨h, fun _ => rfl⟩
  | cons p ps ih =>
    obtain ⟨g₁, hg₁, hrun⟩ := exec_cons_eq_some.mp hrun
    have hrs := hrg.2 g₁ hg₁
    cases hg₁
    obtain ⟨how, hcfg⟩ := ih (present_owing hcl h hrg.1) hrs hrun
    refine ⟨how.of_le fun d key => ?_, fun d => (hcfg d).trans (cfg_present g p d)⟩
    rw [robotAttempts_cons d key p ps]
    omega

/-- **Correct credentials and the limiter.** From a state with no outstanding debt, under a clock
that never goes back, after attempts that all presented the right secret of a live account, the next
one is not rate limited as long as fewer robot attempts than the burst were made with its account
and from its address; in particular if all were password logins. -/
theorem not_rateLimited_of_run (c : Scheme H) (params : Params) (robots : Robots M)
    (env : ℕ → Reading) (hclock : Monotone fun n => (env n).now) (g g' : Gateway H)
    (ps : List Presented) (next : Presented)
    (hstart : AttemptLimiter.Owing env g.limiter fun _ _ => 0)
    (hright : Along (Gateway.step c params robots env) (Gateway.Right c params robots env) g ps)
    (hrun : exec (Gateway.step c params robots env) g ps = some g')
    (hfew : ∀ d, next.attempt.key d ≠ "" →
      (robotAttempts d (next.attempt.key d) ps : ℤ) < (g.limiter.limiter d).cfg.burst) :
    ∀ wait, (g'.present c params robots env next).1 ≠ .error (.rateLimited wait) := by
  obtain ⟨how, hcfg⟩ := Gateway.owing_of_run hclock hstart hright hrun
  have hal : (g'.limiter.allow env next.attempt).1.1 = true := by
    refine how.allow_ok hclock fun d hd => ?_
    rw [hcfg d]
    simpa using hfew d hd
  obtain ⟨⟨⟨ok, after⟩, l'⟩, heq⟩ : ∃ answer, g'.limiter.allow env next.attempt = answer := ⟨_, rfl⟩
  rw [heq] at hal
  obtain rfl : ok = true := hal
  cases next with
  | password username password source random =>
    change g'.limiter.allow env ⟨username, source⟩ = _ at heq
    simp only [Gateway.present, Gateway.authenticate, heq]
    split_ifs
    · simp
    · split <;> simp
  | robotSecret name presented source =>
    change g'.limiter.allow env ⟨name, source⟩ = _ at heq
    simp only [Gateway.present, Gateway.verify, heq]
    cases robots.checkSecret _ name presented <;> simp [Except.mapError]

/-! ## A robot that authenticates often -/

def freshGateway : Gateway (Params × List UInt8 × List UInt8) where
  limiter := {
    limiter := fun d => match d with
      | .account => ⟨defaultAccountLimit, by decide, ∅⟩
      | .address => ⟨defaultAddressLimit, by decide, ∅⟩
    reads := 0 }
  users := AList.singleton "alice"
    ⟨(defaultParams, [], plainScheme.derive "wonderland" [] defaultParams), false, 0⟩

/-- One robot, whose digest is its secret. -/
def ciRobot : Robots String where
  getSubject name := if name = "robot$ci" then some ⟨"7", .robot⟩ else none
  credentials name := if name = "robot$ci" then some ⟨"trove_r_7_secret", 100 * second⟩ else none
  verifyMAC presented context digest := context = "robot-secret:7" && presented = digest

/-- No time passes. -/
def stopped : ℕ → Reading := fun _ => ⟨second, id, fun _ => .refl _⟩

/-- The robot presents its right secret eleven times at once, and the eleventh is rate limited. -/
theorem right_secret_rateLimited :
    let present : Presented := .robotSecret "robot$ci" "trove_r_7_secret" "203.0.113.7"
    Along (Gateway.step plainScheme defaultParams ciRobot stopped)
      (Gateway.Right plainScheme defaultParams ciRobot stopped) freshGateway
      (List.replicate 11 present) ∧
    ∃ g ∈ exec (Gateway.step plainScheme defaultParams ciRobot stopped) freshGateway
        (List.replicate 10 present),
      (g.present plainScheme defaultParams ciRobot stopped present).1 =
        .error (.rateLimited (10 * second)) := by
  decide +kernel

/-- Nine attempts of the robot, twelve logins of a user behind its address, and the robot's tenth.
-/
theorem not_rateLimited_of_run_tenth :
    let robot : Presented := .robotSecret "robot$ci" "trove_r_7_secret" "203.0.113.7"
    let login : Presented := .password "alice" "wonderland" "203.0.113.7" []
    ∃ g, exec (Gateway.step plainScheme defaultParams ciRobot stopped) freshGateway
        (List.replicate 9 robot ++ List.replicate 12 login) = some g ∧
      ∀ wait, (g.present plainScheme defaultParams ciRobot stopped robot).1 ≠
        .error (.rateLimited wait) := by
  intro robot login
  refine ⟨_, rfl, ?_⟩
  refine not_rateLimited_of_run plainScheme defaultParams ciRobot stopped monotone_const
    freshGateway _ (List.replicate 9 robot ++ List.replicate 12 login) robot ?_ (by decide +kernel)
    rfl ?_
  · intro d key t hkey
    cases d <;> cases hkey
  · intro d hd
    cases d <;> decide +kernel

end Trove.Authn
