import Trove.Authn.Attempts
import Trove.Meta.Identity
import Trove.Secretbox.Rotation

/-!
# Robot secrets

A robot's secret is shown once, when it is minted, and stored as a digest bound to the robot's id.
Minting reads the subject and writes the digest in two calls, so anything can happen in between.
`World.live` is what the digests stand for: the secret written last for a name, until it is revoked.
-/

namespace Trove.Authn.Robot

open Lib Lib.Strings Secretbox List
open Meta (Time second Identity)

variable {C : Crypto}

def defaultRobotTTL : ℤ := 90 * 24 * 3600 * second

/-- `RobotSecret`, the context a robot's digest is bound to. -/
def contextOf (id : String) : Context := "robot-secret:" ++ id

structure Minted where
  (id secret : String)
  row : Meta.RobotCredential
  deriving DecidableEq

/-- Why no secret was minted. -/
inductive MintError
  | resolve (name : String) (err : Meta.Error)
  | notRobot (name : String) (kind : Meta.SubjectKind)
  | notInFuture (expiresAt : Time)
  | random (err : String)
  | digest (err : BoxError)

/-- The zero time asks for the default. -/
def expiryOf (expiresAt now : Time) : Time :=
  if expiresAt = 0 then now + defaultRobotTTL else expiresAt

/-- `Mint` up to its write. -/
def prepare (s : Identity) (ring : Keyring C) (name : String) (expiresAt now : Time)
    (random : Except String String) : Except MintError Minted :=
  match s.subjects.lookup name with
  | none => .error (.resolve name (.notFound "subject" name))
  | some subject =>
    if subject.kind ≠ .robot then .error (.notRobot name subject.kind)
    else if expiryOf expiresAt now ≤ now then .error (.notInFuture (expiryOf expiresAt now))
    else
      match random with
      | .error err => .error (.random err)
      | .ok random =>
        let secret := robotSecretPrefix ++ subject.id ++ "_" ++ random
        match mac (some ring) (bytes secret) (contextOf subject.id) with
        | .error err => .error (.digest err)
        | .ok digest =>
          .ok ⟨subject.id, secret, ⟨name, digest, expiryOf expiresAt now, now⟩⟩

def kindOf : Meta.SubjectKind → SubjectKind
  | .robot => .robot
  | .anonymous => .anonymous
  | .user | .unknown _ => .user

/-- What `Verify` asks of the store and of the keyring. -/
def robots (s : Identity) (ring : Keyring C) : Robots Bytes where
  getSubject name := (s.subjects.lookup name).map fun x => ⟨x.id, kindOf x.kind⟩
  credentials name := (s.robotCredentials.lookup name).map fun x => ⟨x.secretHash, x.expiresAt⟩
  verifyMAC presented ctx digest := verifyMAC (some ring) (bytes presented) ctx digest

structure World (C : Crypto) where
  store : Identity
  ring : Keyring C
  pending : List Minted
  live : String → Option Minted

/-- A step of the system. -/
inductive Step (C : Crypto)
  | prepare (name : String) (expiresAt now : Time) (random : Except String String)
  /-- The write of a mint that is under way. -/
  | write (i : ℕ)
  | store (op : Identity.Op)
  | keyring (step : Secretbox.Step C)

def revoked : Identity.Op → Option String
  | .deleteSubject name | .deleteRobotCredential name => some name
  | _ => none

def World.step (quote : String → String) (w : World C) : Step C → World C
  | .prepare name expiresAt now random =>
    match prepare w.store w.ring name expiresAt now random with
    | .error _ => w
    | .ok m => { w with pending := w.pending ++ [m] }
  | .write i =>
    match w.pending[i]? with
    | none => w
    | some m =>
      match w.store.putRobotCredential m.row with
      | .error _ => { w with pending := w.pending.eraseIdx i }
      | .ok s => { w with
          store := s
          pending := w.pending.eraseIdx i
          live := Function.update w.live m.row.subject (some m) }
  | .store op =>
    match w.store.apply quote op with
    | .error _ => w
    | .ok s => { w with
        store := s
        live := fun name => if revoked op = some name then none else w.live name }
  | .keyring step => { w with ring := advance w.ring step }

def run (quote : String → String) (ring : Keyring C) (steps : List (Step C)) : World C :=
  steps.foldl (World.step quote) ⟨.new, ring, [], fun _ => none⟩

/-! ## What the digests stand for -/

def Made (ring : Keyring C) (m : Minted) : Prop :=
  validate (contextOf m.id) = .ok () ∧ hasPrefix m.secret robotSecretPrefix = true ∧
    ∃ k ∈ ring.entries, m.row.secretHash = digestAs k (bytes m.secret) (contextOf m.id)

/-- What every step preserves. -/
structure World.Sound (w : World C) : Prop where
  built : Built w.ring
  pending : ∀ m ∈ w.pending, Made w.ring m
  live : ∀ name, w.store.robotCredentials.lookup name = (w.live name).map Minted.row
  made : ∀ name, ∀ m ∈ w.live name, Made w.ring m

variable {quote : String → String} {s s' : Identity} {w : World C} {m : Minted}

variable {ring : Keyring C}

theorem made_of_prepare {name : String} {expiresAt now : Time} {random : Except String String}
    (h : prepare s ring name expiresAt now random = .ok m) : Made ring m := by
  unfold prepare at h
  split at h
  · cases h
  · split_ifs at h
    split at h
    · cases h
    · dsimp only at h
      split at h
      · cases h
      · rename_i digest hmac
        obtain ⟨hctx, k, hk, rfl⟩ := mac_eq_ok.mp hmac
        cases h
        refine ⟨hctx, hasPrefix_iff.mpr ?_, k, mem_of_head? hk, rfl⟩
        rw [String.append_assoc, String.append_assoc, String.toList_append]
        exact prefix_append _ _

theorem Made.mono {ring' : Keyring C} (h : Made ring m)
    (hsb : ∀ k ∈ ring.entries, k ∈ ring'.entries) : Made ring' m := by
  obtain ⟨hctx, hpr, k, hk, hrow⟩ := h
  exact ⟨hctx, hpr, k, hsb k hk, hrow⟩

open Meta.Identity in
theorem lookup_robotCredentials {op : Identity.Op} (hok : s.apply quote op = .ok s')
    (hop : ∀ row, op ≠ .putRobotCredential row) (name : String) :
    s'.robotCredentials.lookup name =
      if revoked op = some name then none else s.robotCredentials.lookup name := by
  cases op with
  | putRobotCredential row => exact absurd rfl (hop row)
  | deleteSubject other =>
    obtain ⟨subject, -, -, rfl⟩ := deleteSubject_ok hok
    rw [revoked, Table.lookup_erase]
    simp only [Option.some.injEq, eq_comm]
  | deleteRobotCredential other =>
    simp only [apply, deleteRobotCredential] at hok
    split_ifs at hok
    cases hok
    rw [revoked, Table.lookup_erase]
    simp only [Option.some.injEq, eq_comm]
  | _ =>
    -- no other operation touches the table
    simp only [apply, createSubject, setSubjectDisabled, createGroup, deleteGroup, dropBindings,
      addGroupMember, removeGroupMember, putBuiltinRole, createRole, updateRoleVerbs, deleteRole,
      createBinding, deleteBinding, putUserCredential, deleteUserCredential, createAccessToken,
      touchAccessToken, deleteAccessToken, createSession, refreshSession, deleteSession,
      deleteSubjectSessions, deleteExpiredSessions] at hok
    (repeat' split at hok) <;> cases hok <;> rfl

theorem putRobotCredential_ok {row : Meta.RobotCredential} (h : s.putRobotCredential row = .ok s') :
    s' = { s with robotCredentials := s.robotCredentials.insert row } := by
  unfold Identity.putRobotCredential at h
  split_ifs at h
  split at h
  · cases h
  · split_ifs at h
    exact (Except.ok.inj h).symm

theorem World.Sound.step (h : w.Sound) (step : Step C)
    (hop : ∀ row, step ≠ .store (.putRobotCredential row)) : (w.step quote step).Sound := by
  cases step with
  | prepare name expiresAt now random =>
    simp only [World.step]
    split
    · exact h
    · rename_i m hm
      exact { h with pending := forall_mem_concat h.pending (made_of_prepare hm) }
  | write i =>
    simp only [World.step]
    split
    · exact h
    · rename_i m hi
      have hpn : ∀ m' ∈ w.pending.eraseIdx i, Made w.ring m' :=
        fun m' hm' => h.pending m' (mem_of_mem_eraseIdx hm')
      split
      · exact { h with pending := hpn }
      · rename_i s hput
        obtain rfl := putRobotCredential_ok hput
        refine ⟨h.built, hpn, fun name => ?_, fun name m' hm' => ?_⟩
        · rw [Table.lookup_insert]
          dsimp only
          rw [Function.update_apply]
          split_ifs
          · rfl
          · exact h.live name
        · dsimp only at hm'
          rw [Function.update_apply] at hm'
          split_ifs at hm'
          · rw [← Option.mem_some_iff.mp hm']
            exact h.pending m (mem_of_getElem? hi)
          · exact h.made name m' hm'
  | store op =>
    simp only [World.step]
    split
    · exact h
    · rename_i s hok
      refine ⟨h.built, h.pending, fun name => ?_, fun name m hm => ?_⟩
      · rw [lookup_robotCredentials hok (fun row heq => hop row (by rw [heq])) name, h.live name]
        dsimp only
        split_ifs <;> rfl
      · dsimp only at hm
        split_ifs at hm
        · cases hm
        · exact h.made name m hm
  | keyring step =>
    obtain ⟨hbl, hsf⟩ := advance_spec h.built step
    have hsb : ∀ k ∈ w.ring.entries, k ∈ (advance w.ring step).entries := fun k hk => hsf.subset hk
    exact ⟨hbl, fun m hm => (h.pending m hm).mono hsb, h.live,
      fun name m hm => (h.made name m hm).mono hsb⟩

theorem sound_run {keys : List (Key C)} (hring : newKeyring keys = .ok ring) {steps : List (Step C)}
    (hop : ∀ row, .store (.putRobotCredential row) ∉ steps) : (run quote ring steps).Sound := by
  refine List.foldlRecOn steps _ ?_ fun w h step hmem => h.step step fun row heq => ?_
  · exact ⟨built_of_newKeyring hring, by simp, fun _ => rfl, by simp⟩
  · exact hop row (heq ▸ hmem)

/-! ## Verifying -/

theorem checkSecret_eq_ok {name presented : String} {now : Time} :
    (robots s ring).checkSecret now name presented = .ok () ↔
      hasPrefix presented robotSecretPrefix = true ∧
      ∃ subject row, s.subjects.lookup name = some subject ∧ subject.kind = .robot ∧
        s.robotCredentials.lookup name = some row ∧ now < row.expiresAt ∧
        verifyMAC (some ring) (bytes presented) (contextOf subject.id) row.secretHash = true := by
  have hkn : ∀ kind : Meta.SubjectKind, kindOf kind = .robot ↔ kind = .robot := by
    intro kind
    cases kind <;> simp [kindOf]
  unfold Robots.checkSecret Robots.getRobotCredential robots
  cases hasPrefix presented robotSecretPrefix with
  | false => simp
  | true =>
    cases hsb : s.subjects.lookup name with
    | none => simp [hsb]
    | some subject =>
      by_cases hkd : subject.kind = .robot
      · cases hrow : s.robotCredentials.lookup name with
        | none => simp [hsb, hrow, hkn, hkd]
        | some row =>
          by_cases hlv : now < row.expiresAt <;>
            simp [hsb, hrow, hkn, hkd, hlv, contextOf, Option.filter]
      · simp [hsb, hkn, hkd]

/-- No key of the ring gives the minted secret and the presented one the same hash. -/
def Apart (ring : Keyring C) (m : Minted) (id presented : String) : Prop :=
  ∀ k ∈ ring.entries,
    computeMAC k (contextOf m.id) (bytes m.secret) = computeMAC k (contextOf id) (bytes presented) →
      macInput (bytes (contextOf m.id)) (bytes m.secret) =
        macInput (bytes (contextOf id)) (bytes presented)

def World.NoCollision (w : World C) (name presented : String) : Prop :=
  ∀ m ∈ w.live name, ∀ subject ∈ w.store.subjects.lookup name, Apart w.ring m subject.id presented

theorem macInput_inj {ctx ctx' value value' : String}
    (h : macInput (bytes ctx) (bytes value) = macInput (bytes ctx') (bytes value')) :
    ctx = ctx' ∧ value = value' := by
  simp only [macInput, append_assoc] at h
  obtain ⟨hln, hrs⟩ := uvarint_append_inj h
  obtain ⟨hctx, hvl⟩ := append_inj hrs hln
  exact ⟨bytes_injective hctx, bytes_injective hvl⟩

theorem Made.verifyMAC_iff (h : Made ring m) (hbl : Built ring) {id presented : String}
    (hhash : Apart ring m id presented) :
    verifyMAC (some ring) (bytes presented) (contextOf id) m.row.secretHash = true ↔
      id = m.id ∧ presented = m.secret := by
  obtain ⟨hctx, -, k, hk, hdg⟩ := h
  rw [hdg]
  constructor
  · intro hvf
    cases hvl : validate (contextOf id) with
    | error reason =>
      rw [verifyMAC, hvl] at hvf
      cases hvf
    | ok _ =>
      rw [verifyMAC_digestAs (hbl.valid.named k hk) hvl, hbl.valid.find_entry hk] at hvf
      obtain ⟨hct, hsc⟩ := macInput_inj (hhash k hk (of_decide_eq_true hvf))
      exact ⟨((String.append_right_inj _).mp hct).symm, hsc.symm⟩
  · rintro ⟨rfl, rfl⟩
    rw [verifyMAC_digestAs (hbl.valid.named k hk) hctx, hbl.valid.find_entry hk]
    exact decide_eq_true rfl

/-- **Robot secrets.** However mints, their writes, other changes of the store and rotations of the
keyring interleave, a secret verifies exactly when it is the one written last for the name and not
revoked since, has not expired, and was minted for the robot that has the name now. -/
theorem robot_secret_exact {keys : List (Key C)} {ring : Keyring C}
    (hring : newKeyring keys = .ok ring) (quote : String → String) (steps : List (Step C))
    (hmints : ∀ row, .store (.putRobotCredential row) ∉ steps) (name presented : String)
      (now : Time)
    (hhash : (run quote ring steps).NoCollision name presented) :
    let w := run quote ring steps
    (robots w.store w.ring).checkSecret now name presented = .ok () ↔
      ∃ m subject, w.live name = some m ∧ m.secret = presented ∧ now < m.row.expiresAt ∧
        w.store.subjects.lookup name = some subject ∧ subject.kind = .robot ∧
          subject.id = m.id := by
  intro w
  have h : w.Sound := sound_run hring hmints
  rw [checkSecret_eq_ok]
  constructor
  · rintro ⟨-, subject, row, hsb, hkn, hrow, hlv, hvf⟩
    rw [h.live] at hrow
    obtain ⟨m, hm, rfl⟩ := Option.map_eq_some_iff.mp hrow
    obtain ⟨hid, rfl⟩ := ((h.made name m hm).verifyMAC_iff h.built (hhash m hm subject hsb)).mp hvf
    exact ⟨m, subject, hm, rfl, hlv, hsb, hkn, hid⟩
  · rintro ⟨m, subject, hm, rfl, hlv, hsb, hkn, hid⟩
    have hmd := h.made name m hm
    have hrow : w.store.robotCredentials.lookup name = some m.row := by
      rw [h.live, hm]
      rfl
    exact ⟨hmd.2.1, subject, m.row, hsb, hkn, hrow, hlv,
      (hmd.verifyMAC_iff h.built (hhash m hm subject hsb)).mpr ⟨hid, rfl⟩⟩

def ciSteps : List (Step transparent) := [
  .store (.createSubject ⟨"7", .robot, "robot$ci", false, 0⟩),
  .prepare "robot$ci" 0 100 (.ok "old"), .write 0,
  .prepare "robot$ci" 0 200 (.ok "new"), .keyring (.rotate freshKey), .write 0, .keyring .reload]

theorem robot_secret_exact_ci :
    (run id oldRing ciSteps).NoCollision "robot$ci" "trove_r_7_new" ∧
      (robots (run id oldRing ciSteps).store (run id oldRing ciSteps).ring).checkSecret 300
        "robot$ci" "trove_r_7_new" = .ok () := by
  have hmints : ∀ row, .store (.putRobotCredential row) ∉ ciSteps := by
    simp [ciSteps]
  have hlv : (run id oldRing ciSteps).live "robot$ci" = some ⟨"7", "trove_r_7_new",
      "robot$ci", digestAs oldKey (bytes "trove_r_7_new") (contextOf "7"),
      200 + defaultRobotTTL, 200⟩ := by decide +kernel
  have hsb : (run id oldRing ciSteps).store.subjects.lookup "robot$ci" =
      some ⟨"7", .robot, "robot$ci", false, 0⟩ := by decide +kernel
  have hnc : (run id oldRing ciSteps).NoCollision "robot$ci" "trove_r_7_new" := by
    intro m hm subject hsubject k _ _
    obtain rfl := Option.some.inj (hlv.symm.trans hm)
    obtain rfl := Option.some.inj (hsb.symm.trans hsubject)
    rfl
  have hring : newKeyring [oldKey] = .ok oldRing := rfl
  exact ⟨hnc, (robot_secret_exact hring id ciSteps hmints _ _ 300 hnc).mpr
    ⟨_, _, hlv, rfl, by decide, hsb, rfl, rfl⟩⟩

end Trove.Authn.Robot
