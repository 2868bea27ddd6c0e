import Trove.Authn.Password
import Trove.Lib.Run
import Trove.Meta.Types

/-!
# Logins and password changes

A login reads the credential, checks the password and may write the credential back at a higher
cost; a password change is a login with the current password, followed by the write of the new one
and the end of the old sessions. Both are threads whose steps are store calls on the one credential
row of the user. An attempt the rate limiter refuses takes no step.
-/

namespace Trove.Authn

open Meta

/-- The one user's credential. -/
structure UserCredential (H : Type) where
  hash : H
  mustRotate : Bool
  rotatedAt : Time
  deriving DecidableEq

/-- Why a login failed. -/
inductive LoginError
  | badCredentials
  /-- The stored verifier cannot be read: a server problem. -/
  | corrupt (detail : String)
  deriving DecidableEq

variable {H : Type} (c : Scheme H) (params : Params)

/-- The credential to write back, if any: the one that was read with only its hash replaced. -/
def upgrade (cred : UserCredential H) (random : List UInt8) (password : String) :
    Option (UserCredential H) :=
  match needsRehash c cred.hash params with
  | .ok true =>
    match hash c params random password with
    | .ok encoded => some { cred with hash := encoded }
    | .error _ => none
  | _ => none

def checkCredential (read : Option (UserCredential H)) (random : List UInt8) (password : String) :
    Except LoginError (Option (UserCredential H)) :=
  match read with
  | none => .error .badCredentials
  | some cred =>
    match verify c cred.hash password with
    | .error .mismatch => .error .badCredentials
    | .error (.invalidHash detail) => .error (.corrupt detail)
    | .ok () => .ok (upgrade c params cred random password)

/-- Where an `Authenticate` stands; `upgrade` holds what was read and what is to be written. -/
inductive AuthPhase (H : Type)
  | read
  | upgrade (read new : UserCredential H)
  | done (result : Except LoginError Unit)

/-- A login in flight. -/
structure Authenticate (H : Type) where
  password : String
  random : List UInt8
  phase : AuthPhase H

/-- The next store call of an `Authenticate`. An empty password is refused without one. -/
def Authenticate.step (row : Option (UserCredential H)) (a : Authenticate H) :
    Option (Option (UserCredential H) × Authenticate H) :=
  match a.phase with
  | .read =>
    if a.password = "" then some (row, { a with phase := .done (.error .badCredentials) })
    else
      match row, checkCredential c params row a.random a.password with
      | _, .error err => some (row, { a with phase := .done (.error err) })
      | some cred, .ok (some new) => some (row, { a with phase := .upgrade cred new })
      | _, .ok _ => some (row, { a with phase := .done (.ok ()) })
  | .upgrade _ new => some (some new, { a with phase := .done (.ok ()) })
  | .done _ => none

/-! ## Password changes -/

def minPasswordLength : ℕ := 8

inductive ChangeResponse
  | badRequest (detail : String)
  | internal
  | noContent

inductive ChangePhase (H : Type)
  | start
  | authenticate (auth : Authenticate H)
  | store (encoded : H)
  | endSessions
  | done (response : ChangeResponse)

structure Change (H : Type) where
  (current new : String)
  (randomUpgrade randomNew : List UInt8)
  phase : ChangePhase H

def Change.step (now : Time) (row : Option (UserCredential H)) (ch : Change H) :
    Option (Option (UserCredential H) × Change H) :=
  let goto (phase : ChangePhase H) : Change H := { ch with phase := phase }
  match ch.phase with
  | .start =>
    if Lib.Strings.len ch.new < minPasswordLength then
      some (row, goto (.done (.badRequest "the new password must be at least 8 characters")))
    else if ch.new = ch.current then
      some (row, goto (.done (.badRequest "the new password must differ from the current one")))
    else some (row, goto (.authenticate ⟨ch.current, ch.randomUpgrade, .read⟩))
  | .authenticate auth =>
    match auth.phase with
    | .done (.error .badCredentials) =>
      some (row, goto (.done (.badRequest "the current password is incorrect")))
    | .done (.error (.corrupt _)) => some (row, goto (.done .internal))
    | .done (.ok ()) =>
      match hash c params ch.randomNew ch.new with
      | .error _ => some (row, goto (.done .internal))
      | .ok encoded => some (row, goto (.store encoded))
    | _ => (auth.step c params row).map fun r => (r.1, goto (.authenticate r.2))
  | .store encoded => some (some ⟨encoded, false, now⟩, goto .endSessions)
  | .endSessions => some (row, goto (.done .noContent))
  | .done _ => none

/-! ## Rehashing -/

/-- A login with the cost configured at that time; the randomness suffices for a salt. -/
structure LoginCall where
  params : Params
  random : List UInt8
  password : String
  valid : params.validate = .ok ()
  drawn : params.saltLength ≤ random.length

def login (cred : UserCredential H) (l : LoginCall) : Option (UserCredential H) :=
  if l.password = "" then none
  else
    match checkCredential c l.params (some cred) l.random l.password with
    | .error _ => none
    | .ok new => some (new.getD cred)

def costOf (cred : UserCredential H) : Option Params :=
  match c.decode cred.hash with
  | .ok (p, _, _) => some p
  | .error _ => none

/-- No part of the cost is higher than the other's. -/
def Params.AtMost (a b : Params) : Prop :=
  a.memory ≤ b.memory ∧ a.iterations ≤ b.iterations ∧ a.parallelism ≤ b.parallelism ∧
    a.saltLength ≤ b.saltLength

variable {c}

variable {p : Params} {cred : UserCredential H}

section

variable (h : costOf c cred = some p)
include h

theorem needsRehash_of_costOf (want : Params) : ∃ needs, needsRehash c cred.hash want = .ok needs ∧
      (needs = false ↔ want.AtMost p) := by
  unfold costOf at h
  unfold needsRehash
  split at h <;> cases h
  rename_i hdc
  refine ⟨_, by rw [hdc], ?_⟩
  simp only [Params.AtMost, Bool.or_eq_false_iff, decide_eq_false_iff_not, Nat.not_lt,
    Fin.not_lt]
  tauto

theorem upgrade_eq_none {want : Params} (hle : want.AtMost p)
    (random : List UInt8) (password : String) : upgrade c want cred random password = none := by
  obtain ⟨needs, hnd, hiff⟩ := needsRehash_of_costOf h want
  rw [upgrade, hnd, hiff.mpr hle]

theorem costOf_upgrade (l : LoginCall) (hps : l.password ≠ "") (hlow : ¬l.params.AtMost p) :
    ∃ new, upgrade c l.params cred l.random l.password = some new ∧
      costOf c new = some l.params := by
  obtain ⟨needs, hnd, hiff⟩ := needsRehash_of_costOf h l.params
  obtain rfl : needs = true := by simpa using hiff.not.mpr hlow
  have hsl : (l.random.take l.params.saltLength).length = l.params.saltLength := by
    rw [List.length_take, min_eq_left l.drawn]
  rw [upgrade, hnd, hash, if_neg hps, l.valid]
  simp only [if_neg (not_lt.mpr l.drawn)]
  exact ⟨_, rfl, by simp only [costOf, c.decode_encode l.password _ _ l.valid hsl]⟩

/-- What a login leaves is at least as costly as configured, and as what was stored exactly if the
two costs are comparable. -/
theorem login_raises {cred' : UserCredential H} {l : LoginCall}
    (hlg : login c cred l = some cred') :
    ∃ p', costOf c cred' = some p' ∧ l.params.AtMost p' ∧
      (p.AtMost p' ↔ p.AtMost l.params ∨ l.params.AtMost p) := by
  have hrf : ∀ q : Params, q.AtMost q := fun q => ⟨le_rfl, le_rfl, Fin.le_refl _, le_rfl⟩
  unfold login checkCredential at hlg
  split_ifs at hlg with hps
  cases hvr : verify c cred.hash l.password with
  | error err => cases err <;> simp [hvr] at hlg
  | ok u =>
    simp only [hvr, Option.some.injEq] at hlg
    by_cases hle : l.params.AtMost p
    · rw [upgrade_eq_none h hle] at hlg
      exact ⟨p, hlg ▸ h, hle, iff_of_true (hrf p) (.inr hle)⟩
    · obtain ⟨new, hnew, hcs⟩ := costOf_upgrade h l hps hle
      rw [hnew] at hlg
      exact ⟨_, hlg ▸ hcs, hrf _, (or_iff_left hle).symm⟩

end

/-- **Rehashing.** Each successful login leaves a verifier at least as costly in every part, and a
second one under the same configuration writes nothing, exactly if at none of them the configured
cost is above the stored one in one part and below it in another. -/
theorem rehash_raises (c : Scheme H) (cred : UserCredential H) (hcred : ∃ p, costOf c cred = some p)
    (logins : List LoginCall) :
    Lib.Along (login c) (fun cred l => ∀ cred', login c cred l = some cred' →
      ∀ p, costOf c cred = some p → p.AtMost l.params ∨ l.params.AtMost p) cred logins ↔
    Lib.Along (login c) (fun cred l => ∀ cred', login c cred l = some cred' →
      (∃ p p', costOf c cred = some p ∧ costOf c cred' = some p' ∧ p.AtMost p') ∧
      ∀ random password, upgrade c l.params cred' random password = none) cred logins := by
  induction logins generalizing cred with
  | nil => exact Iff.rfl
  | cons l logins ih =>
    obtain ⟨p, hp⟩ := hcred
    refine and_congr (forall₂_congr fun cred' hlg => ?_) (forall₂_congr fun cred' hlg => ?_)
    · obtain ⟨p', hp', hcn, hiff⟩ := login_raises hp hlg
      constructor
      · intro hcm
        exact ⟨⟨p, p', hp, hp', hiff.mpr (hcm p hp)⟩, fun _ _ => upgrade_eq_none hp' hcn ..⟩
      · rintro ⟨⟨q, q', hq, hq', hle⟩, -⟩ q₁ hq₁
        cases hp.symm.trans hq
        cases hp'.symm.trans hq'
        cases hp.symm.trans hq₁
        exact hiff.mp hle
    · obtain ⟨p', hp', -⟩ := login_raises hp hlg
      exact ih cred' ⟨p', hp'⟩

def loginAt (p : Params) (hvalid : p.validate = .ok ()) : LoginCall :=
  ⟨p, List.replicate p.saltLength 0, "x", hvalid, by simp⟩

def storedAt (p : Params) : UserCredential (Params × List UInt8 × List UInt8) :=
  ⟨(p, List.replicate p.saltLength 0, [120]), false, 0⟩

theorem rehash_raises_memory :
    Lib.Along (login plainScheme) (fun cred l => ∀ cred', login plainScheme cred l = some cred' →
      (∃ p p', costOf plainScheme cred = some p ∧ costOf plainScheme cred' = some p' ∧
        p.AtMost p') ∧
      ∀ random password, upgrade plainScheme l.params cred' random password = none)
      (storedAt defaultParams) [loginAt ⟨65536, 2, 1, 16, 32⟩ (by decide)] :=
  (rehash_raises plainScheme _ ⟨_, rfl⟩ _).mp ⟨fun _ _ p hp => .inl (by
    obtain rfl := Option.some.inj hp
    exact ⟨by decide, by decide, by decide, by decide⟩), fun _ _ => trivial⟩

/-- More memory and fewer iterations configured than stored: the login lowers the iterations. -/
theorem rehash_lowers :
    ((login plainScheme (storedAt ⟨19456, 3, 1, 16, 32⟩)
      (loginAt ⟨65536, 2, 1, 16, 32⟩ (by decide))).bind (costOf plainScheme)).map
        Params.iterations = some 2 := by
  decide

end Trove.Authn
