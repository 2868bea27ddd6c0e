import Trove.Authn.Login

/-!
# Password rotation under concurrent logins

A login that re-hashes writes back the credential it read, and a password change writes a new one;
neither looks at what the row holds by then. A change is in force from its acknowledgement until a
later one is stored.
-/

namespace Trove.Authn

open Meta Lib List

variable {H : Type}

/-- The credential, and the requests in flight. -/
structure Accounts (H : Type) where
  row : Option (UserCredential H)
  clock : Time
  logins : List (Authenticate H)
  changes : List (Change H)
  /-- The last acknowledged change, the old password and the new, while no later one is stored. -/
  acked : Option (String × String)

/-- A request arrives, or goes on. -/
inductive Action
  | tick (by_ : ℕ)
  | login (password : String) (random : List UInt8)
  | change (current new : String) (randomUpgrade randomNew : List UInt8)
  | stepLogin (i : ℕ)
  | stepChange (i : ℕ)

def Change.acks (ch : Change H) (acked : Option (String × String)) : Option (String × String) :=
  match ch.phase with
  | .store _ => none
  | .endSessions => some (ch.current, ch.new)
  | _ => acked

variable (c : Scheme H) (params : Params)

/-- One store call, or an arrival. -/
def Accounts.step (w : Accounts H) : Action → Option (Accounts H)
  | .tick n => some { w with clock := w.clock + n }
  | .login password random => some { w with logins := w.logins ++ [⟨password, random, .read⟩] }
  | .change current new randomUpgrade randomNew =>
    some { w with changes := w.changes ++ [⟨current, new, randomUpgrade, randomNew, .start⟩] }
  | .stepLogin i =>
    (advance (Authenticate.step c params) w.row w.logins i).map fun r =>
      { w with row := r.1, logins := r.2 }
  | .stepChange i =>
    (advance (Change.step c params w.clock) w.row w.changes i).map fun r =>
      { w with
        row := r.1
        changes := r.2
        acked := w.changes[i]?.elim w.acked fun ch => ch.acks w.acked }

def Authenticate.writesOver (a : Authenticate H) : Option (UserCredential H) :=
  match a.phase with
  | .upgrade read _ => some read
  | _ => none

/-- The same of a change. -/
def Change.writesOver (ch : Change H) : Option (UserCredential H) :=
  match ch.phase with
  | .authenticate auth => auth.writesOver
  | _ => none

def Change.stores (ch : Change H) : Bool :=
  match ch.phase with
  | .store _ => true
  | _ => false

def Change.unacked (ch : Change H) : Bool :=
  match ch.phase with
  | .endSessions => true
  | _ => false

/-- A re-hash is written over what was read, and no change is stored before an earlier one is
acknowledged. -/
def KeepsRotation (w : Accounts H) : Action → Prop
  | .stepLogin i => ∀ a ∈ w.logins[i]?, ∀ read ∈ a.writesOver, w.row = some read
  | .stepChange i => ∀ ch ∈ w.changes[i]?, (∀ read ∈ ch.writesOver, w.row = some read) ∧
      (ch.stores = true → ∀ other ∈ w.changes, other.unacked = false)
  | _ => True

instance [DecidableEq H] (w : Accounts H) (a : Action) : Decidable (KeepsRotation w a) := by
  cases a <;> dsimp only [KeepsRotation] <;> infer_instance

/-! ## One thread -/

/-- The password fits what was read, and what is written is that with a hash of the password. -/
structure UpgradeOf (read new : UserCredential H) (password : String) : Prop where
  fits : verify c read.hash password = .ok ()
  hashed : HashOf c new.hash password
  flag : new.mustRotate = read.mustRotate

variable {read new : UserCredential H} {password : String} {row : Option (UserCredential H)}
  {used : String → Prop} {w w' : Accounts H}

theorem upgradeOf_checkCredential {c : Scheme H} {params : Params} {random : List UInt8}
    (h : checkCredential c params (some read) random password = .ok (some new)) :
    UpgradeOf c read new password := by
  unfold checkCredential at h
  simp only at h
  split at h
  · cases h
  · cases h
  · rename_i hvr
    have hup := Except.ok.inj h
    unfold upgrade at hup
    split at hup
    · split at hup
      · rename_i encoded hhs
        cases hup
        exact ⟨hvr, hashOf_hash hhs, rfl⟩
      · cases hup
    · cases hup

def Authenticate.Ok (a : Authenticate H) : Prop :=
  ∀ read new, a.phase = .upgrade read new → UpgradeOf c read new a.password

/-- A change's own part. -/
structure Change.Ok (ch : Change H) : Prop where
  differs : ch.phase ≠ .start → (∀ r, ch.phase ≠ .done r) → ch.new ≠ ch.current
  auth : ∀ a, ch.phase = .authenticate a → a.Ok c ∧ a.password = ch.current
  hashed : ∀ encoded, ch.phase = .store encoded → HashOf c encoded ch.new

variable {c params}

variable {row' : Option (UserCredential H)} {ch : Change H}

theorem Authenticate.step_cases {a a' : Authenticate H} (ha : a.Ok c)
    (h : a.step c params row = some (row', a')) :
    a'.Ok c ∧ a'.password = a.password ∧
      (row' = row ∨ ∃ read new, a.phase = .upgrade read new ∧ row' = some new) := by
  obtain ⟨password, random, phase⟩ := a
  cases phase with
  | read =>
    simp only [step] at h
    split_ifs at h
    · cases h
      exact ⟨fun _ _ hph => (by cases hph), rfl, .inl rfl⟩
    · split at h
      · cases h
        exact ⟨fun _ _ hph => (by cases hph), rfl, .inl rfl⟩
      · rename_i cred new hch
        cases h
        refine ⟨fun read new' hph => ?_, rfl, .inl rfl⟩
        cases hph
        exact upgradeOf_checkCredential hch
      · cases h
        exact ⟨fun _ _ hph => (by cases hph), rfl, .inl rfl⟩
  | upgrade read new =>
    cases h
    exact ⟨fun _ _ hph => (by cases hph), rfl, .inr ⟨read, new, rfl, rfl⟩⟩
  | done r => cases h

theorem Change.ok_done {r : ChangeResponse} (h : ch.phase = .done r) : ch.Ok c where
  differs _ hdn := absurd h (hdn r)
  auth a ha := by simp [h] at ha
  hashed e he := by simp [h] at he

theorem Change.step_cases {now : Time} {ch' : Change H} (hch : ch.Ok c)
    (h : ch.step c params now row = some (row', ch')) :
    ch'.Ok c ∧ ch'.current = ch.current ∧ ch'.new = ch.new ∧
      ((row' = row ∧ ch.stores = false ∧ ch'.unacked = false) ∨
        (∃ a read new, ch.phase = .authenticate a ∧ a.phase = .upgrade read new ∧
          row' = some new ∧ ch.stores = false ∧ ch'.unacked = false) ∨
        (∃ encoded, ch.phase = .store encoded ∧ row' = some ⟨encoded, false, now⟩)) := by
  obtain ⟨current, new, randomUpgrade, randomNew, phase⟩ := ch
  cases phase with
  | start =>
    simp only [step] at h
    split_ifs at h with hlen hsm
    · cases h
      exact ⟨Change.ok_done rfl, rfl, rfl, .inl ⟨rfl, rfl, rfl⟩⟩
    · cases h
      exact ⟨Change.ok_done rfl, rfl, rfl, .inl ⟨rfl, rfl, rfl⟩⟩
    · cases h
      refine ⟨⟨fun _ _ => hsm, fun a ha => ?_, by simp⟩, rfl, rfl, .inl ⟨rfl, rfl, rfl⟩⟩
      cases ha
      exact ⟨fun _ _ hph => (by cases hph), rfl⟩
  | authenticate auth =>
    have hdf : new ≠ current := hch.differs (by simp) (by simp)
    obtain ⟨hat, hps⟩ := hch.auth auth rfl
    simp only [step] at h
    split at h
    · cases h
      exact ⟨Change.ok_done rfl, rfl, rfl, .inl ⟨rfl, rfl, rfl⟩⟩
    · cases h
      exact ⟨Change.ok_done rfl, rfl, rfl, .inl ⟨rfl, rfl, rfl⟩⟩
    · split at h
      · cases h
        exact ⟨Change.ok_done rfl, rfl, rfl, .inl ⟨rfl, rfl, rfl⟩⟩
      · rename_i encoded hhs
        cases h
        refine ⟨⟨fun _ _ => hdf, by simp, fun e he => ?_⟩, rfl, rfl, .inl ⟨rfl, rfl, rfl⟩⟩
        cases he
        exact hashOf_hash hhs
    · obtain ⟨⟨row₁, auth'⟩, hst, heq⟩ := Option.map_eq_some_iff.mp h
      cases heq
      obtain ⟨hat', hsm, hrow⟩ := Authenticate.step_cases hat hst
      refine ⟨⟨fun _ _ => hdf, fun a ha => ?_, by simp⟩, rfl, rfl, ?_⟩
      · cases ha
        exact ⟨hat', hsm.trans hps⟩
      · rcases hrow with rfl | ⟨read, new', hph, rfl⟩
        · exact .inl ⟨rfl, rfl, rfl⟩
        · exact .inr (.inl ⟨auth, read, new', rfl, hph, rfl, rfl, rfl⟩)
  | store encoded =>
    have hdf : new ≠ current := hch.differs (by simp) (by simp)
    cases h
    exact ⟨⟨fun _ _ => hdf, by simp, by simp⟩, rfl, rfl, .inr (.inr ⟨encoded, rfl, rfl⟩)⟩
  | endSessions =>
    cases h
    exact ⟨Change.ok_done rfl, rfl, rfl, .inl ⟨rfl, rfl, rfl⟩⟩
  | done r => cases h

/-! ## The invariant -/

variable (c)

def Holds (row : Option (UserCredential H)) (password : String) : Prop :=
  ∃ cred, row = some cred ∧ HashOf c cred.hash password ∧ cred.mustRotate = false

/-- What every step preserves. -/
structure Rotated (used : String → Prop) (w : Accounts H) : Prop where
  logins : ∀ a ∈ w.logins, used a.password ∧ a.Ok c
  changes : ∀ ch ∈ w.changes, used ch.current ∧ used ch.new ∧ ch.Ok c
  stored : ∀ ch ∈ w.changes, ch.unacked = true → Holds c w.row ch.new
  acked : ∀ p q, w.acked = some (p, q) → used p ∧ used q ∧ q ≠ p ∧ Holds c w.row q

variable {c}

theorem Holds.upgrade (hfr : CollisionFree c used) {held : String} (h : Holds c (some read) held)
    (hhl : used held) (hps : used password) (hup : UpgradeOf c read new password) :
    Holds c (some new) held := by
  obtain ⟨cred, hcr, hhs, hfl⟩ := h
  obtain rfl := Option.some.inj hcr
  obtain rfl : password = held := hhs.eq_of_verify hfr hhl hps hup.fits
  exact ⟨new, rfl, hup.hashed, hup.flag.trans hfl⟩

theorem Rotated.upgrade (hfr : CollisionFree c used) (h : Rotated c used w)
    (hrow : w.row = some read) (hps : used password) (hup : UpgradeOf c read new password) :
    (∀ ch ∈ w.changes, ch.unacked = true → Holds c (some new) ch.new) ∧
      ∀ p q, w.acked = some (p, q) → used p ∧ used q ∧ q ≠ p ∧ Holds c (some new) q := by
  constructor
  · intro ch hch hun
    exact (hrow ▸ h.stored ch hch hun).upgrade hfr (h.changes ch hch).2.1 hps hup
  · intro p q hac
    obtain ⟨hp, hq, hne, hhl⟩ := h.acked p q hac
    exact ⟨hp, hq, hne, (hrow ▸ hhl).upgrade hfr hq hps hup⟩

def Action.Uses (used : String → Prop) : Action → Prop
  | .login password _ => used password
  | .change current new _ _ => used current ∧ used new
  | _ => True

section

variable (hfr : CollisionFree c used) (h : Rotated c used w)
include hfr h

theorem Rotated.stepLogin {i : ℕ}
    (hsf : KeepsRotation w (.stepLogin i)) (hst : w.step c params (.stepLogin i) = some w') :
    Rotated c used w' := by
  obtain ⟨⟨row, pool⟩, hadv, rfl⟩ := Option.map_eq_some_iff.mp hst
  obtain ⟨a, a', ha, hat, rfl⟩ := advance_eq_some hadv
  obtain ⟨hus, hok⟩ := h.logins a (mem_of_getElem? ha)
  obtain ⟨hok', hps, hrow⟩ := Authenticate.step_cases hok hat
  have hlg := forall_mem_set (i := i) h.logins (show used a'.password ∧ a'.Ok c from
    ⟨hps ▸ hus, hok'⟩)
  rcases hrow with rfl | ⟨read, new, hph, rfl⟩
  · exact ⟨hlg, h.changes, h.stored, h.acked⟩
  · have hrd : w.row = some read := hsf a ha read (by simp [Authenticate.writesOver, hph])
    obtain ⟨hsr, hac⟩ := h.upgrade hfr hrd hus (hok read new hph)
    exact ⟨hlg, h.changes, hsr, hac⟩

theorem Rotated.stepChange {i : ℕ}
    (hsf : KeepsRotation w (.stepChange i)) (hst : w.step c params (.stepChange i) = some w') :
    Rotated c used w' := by
  obtain ⟨⟨row, pool⟩, hadv, rfl⟩ := Option.map_eq_some_iff.mp hst
  obtain ⟨ch, ch', hch, hcn, rfl⟩ := advance_eq_some hadv
  have hmem := mem_of_getElem? hch
  obtain ⟨hcr, hnew, hok⟩ := h.changes ch hmem
  obtain ⟨hok', hsm, hsm', hcs⟩ := Change.step_cases hok hcn
  have hcg := forall_mem_set (i := i) h.changes
    (show used ch'.current ∧ used ch'.new ∧ ch'.Ok c from
      ⟨hsm ▸ hcr, hsm' ▸ hnew, hok'⟩)
  obtain ⟨hrd, hal⟩ := hsf ch hch
  -- the acknowledgement comes from the thread that stored last
  have hac : ∀ row', Holds c row' ch.new ∨ ch.unacked = false →
      (ch.stores = false → ∀ p q, w.acked = some (p, q) →
        used p ∧ used q ∧ q ≠ p ∧ Holds c row' q) →
      ∀ p q, ch.acks w.acked = some (p, q) → used p ∧ used q ∧ q ≠ p ∧ Holds c row' q := by
    intro row' hhl hrs p q hak
    obtain ⟨current, new, randomUpgrade, randomNew, phase⟩ := ch
    cases phase with
    | store encoded => cases hak
    | endSessions =>
      cases hak
      refine ⟨hcr, hnew, hok.differs (by simp) (by simp), ?_⟩
      exact hhl.resolve_right (by simp [Change.unacked])
    | start | authenticate a | done r => exact hrs rfl p q hak
  rcases hcs with ⟨rfl, hsr, huc⟩ |
    ⟨a, read, new, hph, hap, rfl, hsr, huc⟩ | ⟨encoded, hph, rfl⟩
  · refine ⟨h.logins, hcg, forall_mem_set h.stored (by simp [huc]), ?_⟩
    rw [hch]
    refine hac _ ?_ fun _ => h.acked
    cases hun : ch.unacked with
    | true => exact .inl (h.stored ch hmem hun)
    | false => exact .inr rfl
  · have hrow : w.row = some read :=
      hrd read (by simp [Change.writesOver, hph, Authenticate.writesOver, hap])
    obtain ⟨hat, hps⟩ := hok.auth a hph
    obtain ⟨hsd, hak⟩ := h.upgrade hfr hrow (hps ▸ hcr) (hat read new hap)
    refine ⟨h.logins, hcg, forall_mem_set hsd (by simp [huc]), ?_⟩
    rw [hch]
    exact hac _ (.inr (by simp [Change.unacked, hph])) fun _ => hak
  · have hhd : Holds c (some ⟨encoded, false, w.clock⟩) ch.new :=
      ⟨_, rfl, hok.hashed encoded hph, rfl⟩
    have hnn := hal (by simp [Change.stores, hph])
    refine ⟨h.logins, hcg, forall_mem_set (fun other hot hun => ?_) fun _ => ?_, ?_⟩
    · rw [hnn other hot] at hun
      cases hun
    · rw [hsm']
      exact hhd
    · rw [hch]
      intro p q hak
      simp [Change.acks, hph] at hak

theorem Rotated.step {a : Action}
    (hsf : KeepsRotation w a) (hus : a.Uses used) (hst : w.step c params a = some w') :
    Rotated c used w' := by
  cases a with
  | tick n =>
    cases hst
    exact ⟨h.logins, h.changes, h.stored, h.acked⟩
  | login password random =>
    cases hst
    exact ⟨forall_mem_concat h.logins ⟨hus, fun _ _ hph => (by cases hph)⟩, h.changes, h.stored,
      h.acked⟩
  | change current new randomUpgrade randomNew =>
    cases hst
    refine ⟨h.logins, forall_mem_concat h.changes ?_, forall_mem_concat h.stored ?_, h.acked⟩
    · exact ⟨hus.1, hus.2, ⟨fun hsr => absurd rfl hsr, by simp, by simp⟩⟩
    · intro hun
      cases hun
  | stepLogin i => exact h.stepLogin hfr hsf hst
  | stepChange i => exact h.stepChange hfr hsf hst

end

/-! ## The flag -/

def Cleared (row : Option (UserCredential H)) : Prop := ∀ cred ∈ row, cred.mustRotate = false

theorem Cleared.upgrade (h : Cleared row) (hrow : row = some read)
    (hup : UpgradeOf c read new password) : Cleared (some new) := by
  intro cred hcr
  obtain rfl := Option.some.inj hcr
  exact hup.flag.trans (h read hrow)

theorem Cleared.step {a : Action} (h : Cleared w.row) (hrt : Rotated c used w)
    (hsf : KeepsRotation w a) (hst : w.step c params a = some w') : Cleared w'.row := by
  cases a with
  | stepLogin i =>
    obtain ⟨⟨row, pool⟩, hadv, rfl⟩ := Option.map_eq_some_iff.mp hst
    obtain ⟨a, a', ha, hat, rfl⟩ := advance_eq_some hadv
    obtain ⟨-, hok⟩ := hrt.logins a (mem_of_getElem? ha)
    rcases (Authenticate.step_cases hok hat).2.2 with rfl | ⟨read, new, hph, rfl⟩
    · exact h
    · exact h.upgrade (hsf a ha read (by simp [Authenticate.writesOver, hph]))
        (hok read new hph)
  | stepChange i =>
    obtain ⟨⟨row, pool⟩, hadv, rfl⟩ := Option.map_eq_some_iff.mp hst
    obtain ⟨ch, ch', hch, hcn, rfl⟩ := advance_eq_some hadv
    obtain ⟨-, -, hok⟩ := hrt.changes ch (mem_of_getElem? hch)
    obtain ⟨-, -, -, ⟨rfl, -⟩ | ⟨a, read, new, hph, hap, rfl, -⟩ | ⟨encoded, -, rfl⟩⟩ :=
      Change.step_cases hok hcn
    · exact h
    · exact h.upgrade ((hsf ch hch).1 read
        (by simp [Change.writesOver, hph, Authenticate.writesOver, hap]))
        ((hok.auth a hph).1 read new hap)
    · intro cred hcr
      obtain rfl := Option.some.inj hcr
      rfl
  | tick n | login password random | change current new randomUpgrade randomNew =>
    cases hst
    exact h

/-! ## Whole runs -/

/-- Nobody is in flight. -/
def Accounts.start (row : Option (UserCredential H)) (clock : Time) : Accounts H :=
  ⟨row, clock, [], [], none⟩

theorem rotated_start (used : String → Prop) (row : Option (UserCredential H)) (clock : Time) :
    Rotated c used (Accounts.start row clock) := by
  constructor <;> simp [Accounts.start]

/-- **A rotation is final.** In every run of logins and changes in which a re-hash is only written
over the credential its login read and no change is stored between the store and the acknowledgement
of another: while the last acknowledged change, of `p` to `q`, is in force, the stored verifier
accepts `q`, not `p`, and need not be rotated; and a cleared flag stays cleared. The passwords are
assumed not to collide. -/
theorem rotation_of_run (c : Scheme H) (params : Params) (used : String → Prop)
    (hfree : CollisionFree c used) (row : Option (UserCredential H)) (clock : Time)
    (as bs : List Action) (w w' : Accounts H) (hused : ∀ a ∈ as ++ bs, a.Uses used)
    (hsafe : Along (Accounts.step c params) KeepsRotation (.start row clock) (as ++ bs))
    (hrun : exec (Accounts.step c params) (.start row clock) (as ++ bs) = some w')
    (hmid : exec (Accounts.step c params) (.start row clock) as = some w) :
    (∀ p q, w'.acked = some (p, q) → ∃ cred, w'.row = some cred ∧
      verify c cred.hash q = .ok () ∧ verify c cred.hash p ≠ .ok () ∧ cred.mustRotate = false) ∧
    (Cleared w.row → Cleared w'.row) := by
  obtain ⟨hfr, hrs, hrun'⟩ := run_append (hsafe.and hused) hrun hmid
  have hw : Rotated c used w := exec_invariant
    (fun _ _ _ h hok hs => h.step hfree hok.1 hok.2 hs) (rotated_start used row clock) hfr hmid
  constructor
  · have hw' : Rotated c used w' := exec_invariant
      (fun _ _ _ h hok hs => h.step hfree hok.1 hok.2 hs) hw hrs hrun'
    intro p q hac
    obtain ⟨hp, hq, hne, cred, hrow, hhs, hfl⟩ := hw'.acked p q hac
    exact ⟨cred, hrow, hhs.verify,
      fun hvr => hne (hhs.eq_of_verify hfree hq hp hvr).symm, hfl⟩
  · intro hcl
    have hinv (v : Accounts H) (a : Action) (v' : Accounts H)
        (h : Rotated c used v ∧ Cleared v.row) (hok : KeepsRotation v a ∧ a.Uses used)
        (hs : v.step c params a = some v') : Rotated c used v' ∧ Cleared v'.row :=
      ⟨h.1.step hfree hok.1 hok.2 hs, h.2.step h.1 hok.1 hs⟩
    exact (exec_invariant hinv ⟨hw, hcl⟩ hrs hrun').2

/-! ## A login over a change -/

def bootstrapParams : Params :=
  { defaultParams with memory := 8, iterations := 1, saltLength := 8, keyLength := 16 }

def bootstrapCredential : UserCredential (Params × List UInt8 × List UInt8) :=
  ⟨(bootstrapParams, List.replicate 8 0, plainScheme.derive "bootstrap" [] bootstrapParams),
    true, 0⟩

def changeAlone : List Action :=
  .change "bootstrap" "chosen-by-me" (List.replicate 8 1) (List.replicate 8 2) ::
    List.replicate 6 (.stepChange 0)

/-- A login with the bootstrap password reads the credential before the change and writes its
re-hash after the acknowledgement: the old password is back, and so is the flag. -/
theorem rotation_undone :
    let login : Action := .login "bootstrap" (List.replicate 8 3)
    let start := Accounts.start (some bootstrapCredential) 0
    let step := Accounts.step plainScheme ⟨16, 1, 1, 8, 16⟩
    (∃ w ∈ exec step start ([login, .stepLogin 0] ++ changeAlone),
      w.acked = some ("bootstrap", "chosen-by-me") ∧
      ∃ cred ∈ w.row, verify plainScheme cred.hash "chosen-by-me" = .ok () ∧
        cred.mustRotate = false) ∧
    ∃ w' ∈ exec step start ([login, .stepLogin 0] ++ changeAlone ++ [.stepLogin 0]),
      w'.acked = some ("bootstrap", "chosen-by-me") ∧
      ∃ cred ∈ w'.row, verify plainScheme cred.hash "bootstrap" = .ok () ∧
        verify plainScheme cred.hash "chosen-by-me" ≠ .ok () ∧ cred.mustRotate = true := by
  decide

/-- The change while the login has not read yet. -/
theorem rotation_of_run_change_first :
    ∃ w', exec (Accounts.step plainScheme ⟨16, 1, 1, 8, 16⟩)
        (.start (some bootstrapCredential) 0)
        (changeAlone ++ [.login "bootstrap" (List.replicate 8 3), .stepLogin 0]) = some w' ∧
      w'.acked = some ("bootstrap", "chosen-by-me") ∧
      ∃ cred, w'.row = some cred ∧ verify plainScheme cred.hash "chosen-by-me" = .ok () ∧
        verify plainScheme cred.hash "bootstrap" ≠ .ok () ∧ cred.mustRotate = false := by
  have hfr : CollisionFree plainScheme (fun p => p = "bootstrap" ∨ p = "chosen-by-me") := by
    rintro p q (rfl | rfl) (rfl | rfl) salt params h
    · rfl
    · simp [plainScheme] at h
    · simp [plainScheme] at h
    · rfl
  obtain ⟨w, hmid, w', hrun, hac⟩ : ∃ w ∈ exec (Accounts.step plainScheme ⟨16, 1, 1, 8, 16⟩)
        (.start (some bootstrapCredential) 0) changeAlone,
      ∃ w' ∈ exec (Accounts.step plainScheme ⟨16, 1, 1, 8, 16⟩)
        (.start (some bootstrapCredential) 0)
        (changeAlone ++ [.login "bootstrap" (List.replicate 8 3), .stepLogin 0]),
      w'.acked = some ("bootstrap", "chosen-by-me") := by decide
  refine ⟨w', hrun, hac, ?_⟩
  exact (rotation_of_run plainScheme ⟨16, 1, 1, 8, 16⟩ _ hfr (some bootstrapCredential) 0
    changeAlone [.login "bootstrap" (List.replicate 8 3), .stepLogin 0] w w'
    (by simp [changeAlone, Action.Uses]) (by decide) hrun hmid).1 _ _ hac

end Trove.Authn
