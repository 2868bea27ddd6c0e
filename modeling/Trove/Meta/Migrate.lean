import Trove.Lib.Except
import Trove.Lib.Map
import Trove.Lib.Program
import Trove.Lib.Sort
import Trove.Lib.Strings

/-!
# Schema migrations

Numbered, forward-only migrations over a database that is reached by calls. A call can fail without
having done anything or after it was done, and the program can be cut short between any two calls;
what a transaction did is there only after its commit. A run goes on where the ledger ends in its
own list: `pending` refuses a ledger that is not an initial segment of it.
-/

namespace Trove.Meta.Migrate

open Lib Lib.Strings List

/-- One schema step. -/
structure Migration where
  version : ℤ
  (name sql : String)
  deriving DecidableEq

/-! ## Loading -/

structure DirEntry where
  name : String
  isDir : Bool
  body : Except String String

inductive LoadError
  | readDir (err : String)
  | notSql (filename : String)
  | badShape (filename : String)
  | badVersion (filename : String)
  | sharedVersion (previous filename : String) (version : ℤ)
  | readFile (filename err : String)
  | noMigrations
  deriving DecidableEq

def parseName (filename : String) : Except LoadError (ℤ × String) :=
  match cutSuffix filename ".sql" with
  | none => .error (.notSql filename)
  | some base =>
    match cut base '_' with
    | (_, none) => .error (.badShape filename)
    | (number, some name) =>
      if name = "" then .error (.badShape filename)
      else
        match parseInt number with
        | none => .error (.badVersion filename)
        | some version =>
          if version ≤ 0 then .error (.badVersion filename) else .ok (version, name)

def loadEntries : List DirEntry → GoMap ℤ String → Except LoadError (List Migration)
  | [], _ => .ok []
  | entry :: entries, seen =>
    if entry.isDir then loadEntries entries seen
    else do
      let (version, name) ← parseName entry.name
      match seen.lookup version with
      | some previous => .error (.sharedVersion previous entry.name version)
      | none =>
        match entry.body with
        | .error err => .error (.readFile entry.name err)
        | .ok sql =>
          let rest ← loadEntries entries (seen.insert version entry.name)
          .ok (⟨version, name, sql⟩ :: rest)

def load (dir : Except String (List DirEntry)) : Except LoadError (List Migration) :=
  match dir with
  | .error err => .error (.readDir err)
  | .ok entries => do
    let out ← loadEntries entries ∅
    if out.length = 0 then .error .noMigrations else .ok (sortBy Migration.version out)

/-! ## The database -/

/-- The calls made to the database. `exec` runs the script of a migration. -/
inductive DbCall
  | createLedger
  | selectVersions
  | scanVersions
  | rowsErr
  | begin
  | exec (m : Migration)
  | insertVersion (version appliedAt : ℤ)
  | commit
  | rollback

def DbCall.Answer : DbCall → Type
  | .scanVersions => List ℤ
  | _ => Unit

abbrev DbCall.Reply (c : DbCall) : Type := Except String c.Answer

/-- A row of the ledger. -/
structure Row where
  (version appliedAt : ℤ)

structure Tx where
  ran : List Migration := []
  rows : List Row := []

/-- The database: the scripts that were started, the migrations its schema has been through, in the
order they were committed, and the rows of the ledger. -/
@[ext] structure Db where
  started : List Migration := []
  ran : List Migration := []
  ledger : List Row := []
  tx : Option Tx := none

def Db.versions (db : Db) : List ℤ := db.ledger.map Row.version

/-- What a call does. A commit makes the migration and its row last together. -/
def DbCall.effect : DbCall → Db → Db
  | .createLedger, db => db
  | .selectVersions, db => db
  | .scanVersions, db => db
  | .rowsErr, db => db
  | .begin, db => { db with tx := some {} }
  | .exec m, db =>
    { db with
      started := db.started ++ [m]
      tx := db.tx.map fun tx => { tx with ran := tx.ran ++ [m] } }
  | .insertVersion version appliedAt, db =>
    { db with tx := db.tx.map fun tx => { tx with rows := tx.rows ++ [⟨version, appliedAt⟩] } }
  | .commit, db =>
    match db.tx with
    | none => db
    | some tx => { db with ran := db.ran ++ tx.ran, ledger := db.ledger ++ tx.rows, tx := none }
  | .rollback, db => { db with tx := none }

def DbCall.answer : (c : DbCall) → Db → c.Answer
  | .createLedger, _ => ()
  | .selectVersions, _ => ()
  | .scanVersions, db => sortBy id db.versions
  | .rowsErr, _ => ()
  | .begin, _ => ()
  | .exec _, _ => ()
  | .insertVersion _ _, _ => ()
  | .commit, _ => ()
  | .rollback, _ => ()

/-- How a call turns out: it works, fails, or is done and reported as failed. -/
inductive Fate
  | works
  | fails (err : String)
  | failsAfter (err : String)

def handle (c : DbCall) (fate : Fate) (db : Db) : c.Reply × Db :=
  match fate with
  | .works => (.ok (c.answer db), c.effect db)
  | .fails err => (.error err, db)
  | .failsAfter err => (.error err, c.effect db)

/-! ## Applying -/

inductive StepError
  | begin (err : String)
  | exec (err : String)
  | recordVersion (err : String)
  | commit (err : String)
  deriving DecidableEq

/-- Why an application stopped. `ahead` wraps the sentinel for an older binary. -/
inductive ApplyError
  | createLedger (err : String)
  | readLedger (err : String)
  | scanVersion (err : String)
  | ahead (version : ℤ)
  | skipped (m : Migration) (highest : ℤ)
  | step (version : ℤ) (name : String) (err : StepError)
  deriving DecidableEq

/-- `Applied`. The rows are scanned until one fails, and are then asked why they ended. -/
def applied : Program DbCall.Reply (Except ApplyError (List ℤ)) := do
  match ← Program.perform .createLedger with
  | .error err => return .error (.createLedger err)
  | .ok _ =>
    match ← Program.perform .selectVersions with
    | .error err => return .error (.readLedger err)
    | .ok _ =>
      match ← Program.perform DbCall.scanVersions with
      | .error err => return .error (.scanVersion err)
      | .ok versions =>
        match ← Program.perform .rowsErr with
        | .error err => return .error (.readLedger err)
        | .ok _ => return .ok versions

def highest (applied : List ℤ) : ℤ := applied.foldl (fun high v => if v > high then v else high) 0

def pendingFrom (applied : List ℤ) (highest : ℤ) :
    List Migration → Except ApplyError (List Migration)
  | [] => .ok []
  | m :: all =>
    if m.version ∈ applied then pendingFrom applied highest all
    else if m.version < highest then .error (.skipped m highest)
    else do
      let rest ← pendingFrom applied highest all
      .ok (m :: rest)

def pending (applied : List ℤ) (all : List Migration) : Except ApplyError (List Migration) :=
  match applied.find? fun v => v ∉ all.map Migration.version with
  | some v => .error (.ahead v)
  | none => pendingFrom applied (highest applied) all

def inTx (m : Migration) (now : ℤ) : Program DbCall.Reply (Except StepError Unit) := do
  match ← Program.perform (.exec m) with
  | .error err => return .error (.exec err)
  | .ok _ =>
    match ← Program.perform (.insertVersion m.version now) with
    | .error err => return .error (.recordVersion err)
    | .ok _ =>
      match ← Program.perform .commit with
      | .error err => return .error (.commit err)
      | .ok _ => return .ok ()

/-- `applyOne`. The rollback is deferred, and does nothing behind a commit. -/
def applyOne (m : Migration) (now : ℤ) : Program DbCall.Reply (Except StepError Unit) := do
  match ← Program.perform .begin with
  | .error err => return .error (.begin err)
  | .ok _ =>
    let result ← inTx m now
    let _ ← Program.perform .rollback
    return result

/-- The loop of `Apply`. -/
def applyAll (now : ℤ) : List Migration → List ℤ →
    Program DbCall.Reply (List ℤ × Option ApplyError)
  | [], done => return (done, none)
  | m :: todo, done => do
    match ← applyOne m now with
    | .error err => return (done, some (.step m.version m.name err))
    | .ok () => applyAll now todo (done ++ [m.version])

/-- The versions it applied, and why it stopped when it did. -/
def apply (all : List Migration) (now : ℤ) :
    Program DbCall.Reply (List ℤ × Option ApplyError) := do
  match ← applied with
  | .error err => return ([], some err)
  | .ok versions =>
    match pending versions all with
    | .error err => return ([], some err)
    | .ok todo => applyAll now todo []

/-! ## What is loaded -/

theorem parseName_pos {filename name : String} {version : ℤ}
    (h : parseName filename = .ok (version, name)) : 0 < version := by
  unfold parseName at h
  split at h
  · cases h
  · split at h
    · cases h
    · split_ifs at h
      split at h
      · cases h
      · split_ifs at h with hpos
        obtain ⟨rfl, -⟩ := Prod.mk.inj (Except.ok.inj h)
        omega

theorem loadEntries_spec {entries : List DirEntry} {seen : GoMap ℤ String} {out : List Migration}
    (h : loadEntries entries seen = .ok out) :
    (∀ m ∈ out, 0 < m.version ∧ seen.lookup m.version = none) ∧
      (out.map Migration.version).Nodup := by
  induction entries generalizing seen out with
  | nil =>
    obtain rfl := Except.ok.inj h
    simp
  | cons entry entries ih =>
    rw [loadEntries] at h
    split_ifs at h
    · exact ih h
    · obtain ⟨⟨version, name⟩, hnm, h⟩ := bind_eq_ok.mp h
      cases hsn : seen.lookup version with
      | some previous => simp [hsn] at h
      | none =>
        simp only [hsn] at h
        cases hbd : entry.body with
        | error err => simp [hbd] at h
        | ok sql =>
          simp only [hbd] at h
          obtain ⟨rest, hrs, h⟩ := bind_eq_ok.mp h
          obtain rfl := Except.ok.inj h
          obtain ⟨hfr, hnd⟩ := ih hrs
          have hnew : ∀ m ∈ rest, seen.lookup m.version = none ∧ m.version ≠ version := by
            intro m hm
            have hlk := (hfr m hm).2
            by_cases heq : m.version = version
            · rw [heq, AList.lookup_insert] at hlk
              cases hlk
            · rw [AList.lookup_insert_ne heq] at hlk
              exact ⟨hlk, heq⟩
          refine ⟨forall_mem_cons.mpr ⟨⟨parseName_pos hnm, hsn⟩, fun m hm =>
            ⟨(hfr m hm).1, (hnew m hm).1⟩⟩, nodup_cons.mpr ⟨fun hmem => ?_, hnd⟩⟩
          obtain ⟨m, hm, heq⟩ := mem_map.mp hmem
          exact (hnew m hm).2 heq

variable {all todo : List Migration} {db db' : Db}

theorem increasing_of_load {dir : Except String (List DirEntry)} (h : load dir = .ok all) :
    Increasing Migration.version all := by
  unfold load at h
  split at h
  · cases h
  · obtain ⟨out, hout, h⟩ := bind_eq_ok.mp h
    split_ifs at h
    obtain rfl := Except.ok.inj h
    exact increasing_sortBy (loadEntries_spec hout).2

/-! ## What is pending -/

theorem le_foldl_highest (applied : List ℤ) (high : ℤ) :
    high ≤ applied.foldl (fun high v => if v > high then v else high) high ∧
      ∀ v ∈ applied, v ≤ applied.foldl (fun high v => if v > high then v else high) high := by
  induction applied generalizing high with
  | nil => simp
  | cons v applied ih =>
    obtain ⟨hhg, hall⟩ := ih (if v > high then v else high)
    refine ⟨le_trans ?_ hhg, forall_mem_cons.mpr ⟨le_trans ?_ hhg, hall⟩⟩ <;>
      split_ifs <;> omega

theorem pendingFrom_eq_ok {applied : List ℤ} {high : ℤ} :
    pendingFrom applied high all = .ok todo ↔
      (∀ m ∈ all, m.version ∉ applied → high ≤ m.version) ∧
        todo = all.filter fun m => m.version ∉ applied := by
  induction all generalizing todo with
  | nil => simp [pendingFrom, eq_comm]
  | cons m all ih =>
    rw [pendingFrom]
    by_cases hmem : m.version ∈ applied
    · simp [hmem, ih]
    · by_cases hlow : m.version < high
      · simp [hmem, hlow]
      · rw [if_neg hmem, if_neg hlow, bind_eq_ok]
        simp only [ih, forall_mem_cons, filter_cons, hmem, not_false_eq_true, decide_true,
          if_true, forall_const, not_lt.mp hlow, true_and]
        constructor
        · rintro ⟨_, ⟨hall, rfl⟩, h⟩
          exact ⟨hall, (Except.ok.inj h).symm⟩
        · rintro ⟨hall, rfl⟩
          exact ⟨_, ⟨hall, rfl⟩, rfl⟩

theorem pending_eq_ok {versions : List ℤ} (hvr : Increasing id versions)
    (hall : Increasing Migration.version all) (h : pending versions all = .ok todo) :
    all.map Migration.version = versions ++ todo.map Migration.version ∧ todo.Sublist all := by
  unfold pending at h
  split at h
  · cases h
  · rename_i hfn
    rw [List.find?_eq_none] at hfn
    obtain ⟨hhg, rfl⟩ := pendingFrom_eq_ok.mp h
    refine ⟨hall.map_eq_append hvr (fun v hv => ?_) fun m hm hnot v hv => ?_,
      filter_sublist⟩
    · simpa using hfn v hv
    · have hle := (le_foldl_highest versions 0).2 v hv
      have hlow := hhg m hm hnot
      have hne : v ≠ m.version := fun heq => hnot (heq ▸ hv)
      unfold highest at hlow
      omega

theorem pending_refuses {versions : List ℤ} (h : (∃ v ∈ versions, v ∉ all.map Migration.version) ∨
      ∃ m ∈ all, m.version ∉ versions ∧ ∃ v ∈ versions, m.version < v) :
    ∃ err, pending versions all = .error err := by
  unfold pending
  cases hfn : versions.find? fun v => v ∉ all.map Migration.version with
  | some v => exact ⟨_, rfl⟩
  | none =>
    rw [List.find?_eq_none] at hfn
    rcases h with ⟨v, hv, hun⟩ | ⟨m, hm, hnot, v, hv, hlt⟩
    · exact absurd (decide_eq_true hun) (hfn v hv)
    · cases hpn : pendingFrom versions (highest versions) all with
      | error err => exact ⟨err, rfl⟩
      | ok todo =>
        have hle := (pendingFrom_eq_ok.mp hpn).1 m hm hnot
        have hhg := (le_foldl_highest versions 0).2 v hv
        unfold highest at hle
        omega

/-! ## One step, and all of them -/

/-- The database has been through the migrations since, each with its row. -/
structure Grown (now : ℤ) (db : Db) (done : List Migration) (db' : Db) : Prop where
  ran : db'.ran = db.ran ++ done
  ledger : db'.ledger = db.ledger ++ done.map fun m => ⟨m.version, now⟩

variable {now : ℤ}

theorem Grown.refl (hran : db'.ran = db.ran) (hld : db'.ledger = db.ledger) :
    Grown now db [] db' := ⟨by simp [hran], by simp [hld]⟩

theorem Grown.trans {db'' : Db} {m : Migration} {done : List Migration} (h : Grown now db [m] db')
    (h' : Grown now db' done db'') : Grown now db (m :: done) db'' := by
  refine ⟨?_, ?_⟩
  · rw [h'.ran, h.ran, append_assoc, singleton_append]
  · rw [h'.ledger, h.ledger, append_assoc, map_cons]
    rfl

theorem applyOne_meets (m : Migration) (db : Db) :
    (applyOne m now).Meets handle (fun db' => Grown now db [] db' ∨ Grown now db [m] db')
      (fun result db' => (Grown now db [] db' ∨ Grown now db [m] db') ∧
        (result = .ok () → Grown now db [m] db')) db := by
  have hnn : ∀ {db' : Db}, db'.ran = db.ran → db'.ledger = db.ledger →
      Grown now db [] db' ∨ Grown now db [m] db' := fun hran hld => .inl (.refl hran hld)
  -- the deferred rollback, behind each way out of the transaction
  have hrl : ∀ (result : Except StepError Unit) (db' : Db),
      (Grown now db [] db' ∨ Grown now db [m] db') →
      (result = .ok () → Grown now db [m] db') →
      (Program.perform (ρ := DbCall.Reply) .rollback >>= fun _ =>
        (pure result : Program DbCall.Reply _)).Meets handle
        (fun db' => Grown now db [] db' ∨ Grown now db [m] db')
        (fun result db' => (Grown now db [] db' ∨ Grown now db [m] db') ∧
          (result = .ok () → Grown now db [m] db')) db' := by
    intro result db' hgr hok
    refine ⟨hgr, fun fate => ?_⟩
    have hkp : ∀ done, Grown now db done db' → Grown now db done { db' with tx := none } :=
      fun done h => ⟨h.ran, h.ledger⟩
    cases fate with
    | fails err => exact ⟨hgr, hok⟩
    | works | failsAfter err => exact ⟨hgr.imp (hkp _) (hkp _), fun h => hkp _ (hok h)⟩
  have her : ∀ {err : StepError} {db' : Db}, (Except.error err : Except StepError Unit) = .ok () →
      Grown now db [m] db' := fun h => by cases h
  refine ⟨hnn rfl rfl, fun fate => ?_⟩
  cases fate with
  | fails err | failsAfter err => exact ⟨hnn rfl rfl, her⟩
  | works =>
    refine Program.Meets.bind ⟨hnn rfl rfl, fun fate => ?_⟩
    cases fate with
    | fails err | failsAfter err => exact hrl _ _ (hnn rfl rfl) her
    | works =>
      refine ⟨hnn rfl rfl, fun fate => ?_⟩
      cases fate with
      | fails err | failsAfter err => exact hrl _ _ (hnn rfl rfl) her
      | works =>
        refine ⟨hnn rfl rfl, fun fate => ?_⟩
        cases fate with
        | fails err => exact hrl _ _ (hnn rfl rfl) her
        | failsAfter err => exact hrl _ _ (.inr ⟨rfl, rfl⟩) her
        | works => exact hrl _ _ (.inr ⟨rfl, rfl⟩) fun _ => ⟨rfl, rfl⟩

theorem applyAll_meets (todo : List Migration) (done : List ℤ) (db : Db) :
    (applyAll now todo done).Meets handle
      (fun db' => ∃ front, front <+: todo ∧ Grown now db front db')
      (fun result db' => ∃ front, front <+: todo ∧ Grown now db front db' ∧
        (result.2 = none → front = todo ∧ result.1 = done ++ todo.map Migration.version)) db := by
  induction todo generalizing done db with
  | nil => exact ⟨[], nil_prefix, .refl rfl rfl, fun _ => ⟨rfl, by simp⟩⟩
  | cons m todo ih =>
    have hfr : ∀ db', Grown now db [] db' ∨ Grown now db [m] db' →
        ∃ front, front <+: m :: todo ∧ Grown now db front db' := by
      rintro db' (h | h)
      · exact ⟨[], nil_prefix, h⟩
      · exact ⟨[m], cons_prefix_cons.mpr ⟨rfl, nil_prefix⟩, h⟩
    refine Program.Meets.bind ((applyOne_meets m db).mono hfr fun result db' h => ?_)
    obtain ⟨hgr, hok⟩ := h
    cases result with
    | error err =>
      obtain ⟨front, hpr, hfr⟩ := hfr db' hgr
      refine ⟨front, hpr, hfr, fun h => ?_⟩
      cases h
    | ok _ =>
      have hm := hok rfl
      refine (ih (done ++ [m.version]) db').mono ?_ ?_
      · rintro db'' ⟨front, hpr, hfr⟩
        exact ⟨m :: front, cons_prefix_cons.mpr ⟨rfl, hpr⟩, hm.trans hfr⟩
      · rintro result db'' ⟨front, hpr, hfr, hrs⟩
        refine ⟨m :: front, cons_prefix_cons.mpr ⟨rfl, hpr⟩, hm.trans hfr, fun h => ?_⟩
        obtain ⟨rfl, hdn⟩ := hrs h
        exact ⟨rfl, by rw [hdn, map_cons, append_assoc, singleton_append]⟩

def Left (now : ℤ) (all : List Migration) (db db' : Db) : Prop :=
  db' = db ∨ ∃ todo front, pending (sortBy id db.versions) all = .ok todo ∧ front <+: todo ∧
    Grown now db front db'

theorem Left.close (h : Left now all db db') (hcl : db.tx = none) :
    Left now all db { db' with tx := none } := by
  rcases h with rfl | ⟨todo, front, hpn, hpr, hgr⟩
  · exact .inl (Db.ext rfl rfl rfl hcl.symm)
  · exact .inr ⟨todo, front, hpn, hpr, hgr.ran, hgr.ledger⟩

theorem apply_meets (now : ℤ) (all : List Migration) (db : Db) :
    (apply all now).Meets handle (Left now all db)
      (fun result db' => Left now all db db' ∧
        (result.2 = none → ∃ todo, pending (sortBy id db.versions) all = .ok todo ∧
          Grown now db todo db' ∧ result.1 = todo.map Migration.version)) db := by
  have hsm : Left now all db db := .inl rfl
  have her : ∀ err : ApplyError, Left now all db db ∧
      ((([], some err) : List ℤ × Option ApplyError).2 = none →
        ∃ todo, pending (sortBy id db.versions) all = .ok todo ∧ Grown now db todo db ∧
          [] = todo.map Migration.version) :=
    fun err => ⟨hsm, fun h => by cases h⟩
  refine Program.Meets.bind ⟨hsm, fun fate => ?_⟩
  cases fate with
  | fails err | failsAfter err => exact her _
  | works =>
    refine ⟨hsm, fun fate => ?_⟩
    cases fate with
    | fails err | failsAfter err => exact her _
    | works =>
      refine ⟨hsm, fun fate => ?_⟩
      cases fate with
      | fails err | failsAfter err => exact her _
      | works =>
        refine ⟨hsm, fun fate => ?_⟩
        cases fate with
        | fails err | failsAfter err => exact her _
        | works =>
          show Program.Meets handle _ _ (match pending (sortBy id db.versions) all with
            | .error err => pure ([], some err)
            | .ok todo => applyAll now todo []) db
          cases hpn : pending (sortBy id db.versions) all with
          | error err => exact ⟨hsm, fun h => by cases h⟩
          | ok todo =>
            refine (applyAll_meets todo [] db).mono ?_ ?_
            · rintro db' ⟨front, hpr, hgr⟩
              exact .inr ⟨todo, front, hpn, hpr, hgr⟩
            · rintro result db' ⟨front, hpr, hgr, hrs⟩
              refine ⟨.inr ⟨todo, front, hpn, hpr, hgr⟩, fun h => ?_⟩
              obtain ⟨rfl, hdn⟩ := hrs h
              exact ⟨front, rfl, hgr, by simpa using hdn⟩

/-! ## Histories -/

/-- One run: the list its binary carries, when it was made, and how its calls turned out. -/
structure Run where
  dir : Except String (List DirEntry)
  all : List Migration
  loaded : load dir = .ok all
  now : ℤ
  fates : List Fate

def Run.outcome (run : Run) (db : Db) : Option (List ℤ × Option ApplyError) × Db :=
  (apply run.all run.now).runWith handle run.fates db

/-- The database the next run finds. A transaction does not outlive its run. -/
def Run.next (run : Run) (db : Db) : Db := { (run.outcome db).2 with tx := none }

def afterRuns (history : List Run) : Db := history.foldl (fun db run => run.next db) {}

/-- What every history leaves. -/
structure Db.Sound (db : Db) : Prop where
  closed : db.tx = none
  ledger_eq : db.versions = db.ran.map Migration.version
  increasing : Increasing id db.versions

theorem Db.Sound.sorted (h : db.Sound) : sortBy id db.versions = db.versions := by
  have hnd : (db.versions.map id).Nodup := by
    rw [map_id]
    exact h.increasing.nodup
  exact (increasing_sortBy hnd).eq_of_mem_iff h.increasing fun v => mem_sortBy

theorem Run.next_spec (run : Run) (h : db.Sound) :
    Left run.now run.all db (run.next db) ∧
    ∀ versions, (run.outcome db).1 = some (versions, none) →
      ∃ todo, pending db.versions run.all = .ok todo ∧ Grown run.now db todo (run.next db) ∧
        versions = todo.map Migration.version := by
  have hmt := (apply_meets run.now run.all db).runWith run.fates
  rw [h.sorted] at hmt
  obtain ⟨hps, hcut⟩ := hmt
  cases hrs : (run.outcome db).1 with
  | none =>
    refine ⟨(hcut hrs).close h.closed, fun versions h => ?_⟩
    cases h
  | some result =>
    obtain ⟨hlf, hok⟩ := hps result hrs
    refine ⟨hlf.close h.closed, fun versions h => ?_⟩
    obtain rfl := Option.some.inj h
    obtain ⟨todo, hpn, hgr, hvr⟩ := hok rfl
    exact ⟨todo, hpn, ⟨hgr.ran, hgr.ledger⟩, hvr⟩

theorem Grown.versions {done : List Migration} (h : Grown now db done db') :
    db'.versions = db.versions ++ done.map Migration.version := by
  rw [Db.versions, h.ledger, map_append, map_map]
  rfl

theorem versions_begin {run : Run} (h : db.Sound) {front : List Migration}
    (hpn : pending db.versions run.all = .ok todo) (hfr : front <+: todo) :
    db.versions ++ front.map Migration.version <+: run.all.map Migration.version ∧
      front.Sublist run.all := by
  obtain ⟨heq, hsub⟩ := pending_eq_ok h.increasing (increasing_of_load run.loaded) hpn
  refine ⟨?_, hfr.sublist.trans hsub⟩
  rw [heq, prefix_append_right_inj]
  exact hfr.map Migration.version

theorem Run.next_sound (run : Run) (h : db.Sound) : (run.next db).Sound := by
  have hlf := (run.next_spec h).1
  rw [Left, h.sorted] at hlf
  rcases hlf with heq | ⟨todo, front, hpn, hpr, hgr⟩
  · rwa [heq]
  · have hall : Increasing id (run.all.map Migration.version) :=
      pairwise_map.mpr (increasing_of_load run.loaded)
    refine ⟨rfl, ?_, ?_⟩
    · rw [hgr.versions, hgr.ran, h.ledger_eq, map_append]
    · rw [hgr.versions]
      exact hall.sublist (versions_begin h hpn hpr).1.sublist

theorem afterRuns_sound (history : List Run) : (afterRuns history).Sound := by
  have hrun : ∀ db : Db, db.Sound → (history.foldl (fun db run => run.next db) db).Sound := by
    induction history with
    | nil => exact fun _ => id
    | cons run history ih => exact fun db h => ih _ (run.next_sound h)
  exact hrun {} ⟨rfl, rfl, List.Pairwise.nil⟩

/-- **The ledger's discipline.** After every history of runs, each with a list that loads and cut
short or failing anywhere, no version was run twice and the ledger is the versions that were run.
The next run, however it turns out, runs versions of its list in increasing order and skips none;
when it reports success the ledger is its list's versions. A list without a version of the ledger,
or with a new version below its highest, does not as much as start a script. -/
theorem ledger_discipline (history : List Run) :
    ((afterRuns history).ran.map Migration.version).Nodup ∧
    (afterRuns history).versions = (afterRuns history).ran.map Migration.version ∧
    ∀ run : Run,
      (∃ done, (run.next (afterRuns history)).ran = (afterRuns history).ran ++ done ∧
        done.Sublist run.all ∧ Increasing Migration.version done ∧
        (done ≠ [] → (run.next (afterRuns history)).ran.map Migration.version <+:
          run.all.map Migration.version)) ∧
      (∀ versions, (run.outcome (afterRuns history)).1 = some (versions, none) →
        (run.next (afterRuns history)).versions = run.all.map Migration.version ∧
        (run.next (afterRuns history)).versions = (afterRuns history).versions ++ versions) ∧
      ((∃ v ∈ (afterRuns history).versions, v ∉ run.all.map Migration.version) ∨
        (∃ m ∈ run.all, m.version ∉ (afterRuns history).versions ∧
          ∃ v ∈ (afterRuns history).versions, m.version < v) →
        run.next (afterRuns history) = afterRuns history) := by
  have hsn := afterRuns_sound history
  refine ⟨?_, hsn.ledger_eq, fun run => ?_⟩
  · rw [← hsn.ledger_eq]
    exact hsn.increasing.nodup
  · obtain ⟨hlf, hsc⟩ := run.next_spec hsn
    have hnx := run.next_sound hsn
    rw [Left, hsn.sorted] at hlf
    refine ⟨?_, fun versions h => ?_, fun hrf => ?_⟩
    · rcases hlf with heq | ⟨todo, front, hpn, hpr, hgr⟩
      · exact ⟨[], by rw [heq, append_nil], nil_sublist _, List.Pairwise.nil,
          fun h => absurd rfl h⟩
      · obtain ⟨hvr, hsub⟩ := versions_begin hsn hpn hpr
        refine ⟨front, hgr.ran, hsub, (increasing_of_load run.loaded).sublist hsub, fun _ => ?_⟩
        rw [← hnx.ledger_eq, hgr.versions]
        exact hvr
    · obtain ⟨todo, hpn, hgr, rfl⟩ := hsc versions h
      have heq := (pending_eq_ok hsn.increasing (increasing_of_load run.loaded) hpn).1
      exact ⟨by rw [hgr.versions, heq], hgr.versions⟩
    · obtain ⟨err, herr⟩ := pending_refuses hrf
      refine hlf.resolve_right ?_
      rintro ⟨todo, front, hpn, -⟩
      rw [herr] at hpn
      cases hpn

/-- A binary with two migrations. -/
def twoSteps (fates : List Fate) : Run where
  dir := .ok [⟨"0002_tags.sql", false, .ok "b"⟩, ⟨"0001_blobs.sql", false, .ok "a"⟩]
  all := [⟨1, "blobs", "a"⟩, ⟨2, "tags", "b"⟩]
  loaded := by decide +kernel
  now := 7
  fates := fates

/-- The first run is cut short in its second migration; the next one goes on there. -/
theorem ledger_discipline_resumed :
    ((twoSteps (.replicate 9 .works)).next
      (afterRuns [twoSteps (.replicate 11 .works)])).versions = [1, 2] :=
  (((ledger_discipline [twoSteps (.replicate 11 .works)]).2.2 (twoSteps (.replicate 9 .works))).2.1
    [2] (by decide +kernel)).1

end Trove.Meta.Migrate
