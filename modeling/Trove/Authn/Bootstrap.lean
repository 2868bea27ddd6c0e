import Trove.Authz.Roles
import Trove.Lib.Program
import Trove.Meta.Listing

/-!
# Bootstrap

What a boot does to the metadata store before the first login: it brings the built-in roles to their
definitions, and creates the admin when nobody could log in otherwise. A boot reaches the store by
calls and can crash after any of them. The credential is written last.
-/

namespace Trove.Bootstrap

open Lib Meta

def adminName : String := "admin"
def adminID : String := "admin"

def adminSystemBindingID : String := "bootstrap-admin-system"
def adminAllBindingID : String := "bootstrap-admin-all"

/-! ## The store -/

/-- A call of the store. -/
inductive Call
  | getRole (name : String)
  | putBuiltinRole (role : Meta.Role)
  | listSubjects (opts : ListOptions)
  | createSubject (subject : Subject)
  | getUserCredential (subject : String)
  | putUserCredential (cred : UserCredential)
  | createBinding (binding : Meta.Binding)

def Call.Answer : Call → Type
  | .getRole _ => Meta.Role
  | .listSubjects _ => Page Subject String
  | .getUserCredential _ => UserCredential
  | _ => Unit

abbrev Call.Reply (c : Call) : Type := Except Meta.Error c.Answer

def Call.writesIdentity : Call → Bool
  | .createSubject _ => true
  | .putUserCredential _ => true
  | .createBinding _ => true
  | _ => false

def settle (s : Identity) : Except Meta.Error Identity → Except Meta.Error Unit × Identity
  | .ok s' => (.ok (), s')
  | .error err => (.error err, s)

/-- The call on the store. -/
def Call.perform (quote : String → String) : (c : Call) → Identity → c.Reply × Identity
  | .getRole name, s => (s.getRole name, s)
  | .putBuiltinRole role, s => settle s (s.putBuiltinRole role)
  | .listSubjects opts, s => (s.listSubjects opts, s)
  | .createSubject subject, s => settle s (s.createSubject quote subject)
  | .getUserCredential subject, s => (s.getUserCredential subject, s)
  | .putUserCredential cred, s => settle s (s.putUserCredential cred)
  | .createBinding binding, s => settle s (s.createBinding quote binding)

/-- The store, and the calls made to it. -/
structure World where
  store : Identity
  calls : List Call := []

def handle (quote : String → String) (c : Call) (_ : Unit) (w : World) : c.Reply × World :=
  ((c.perform quote w.store).1, ⟨(c.perform quote w.store).2, w.calls ++ [c]⟩)

/-! ## The boot -/

/-- The step that failed, and why. -/
inductive BootError
  | readRole (name : String) (err : Meta.Error)
  | seedRole (name : String) (err : Meta.Error)
  | listSubjects (err : Meta.Error)
  | notUser (kind : SubjectKind)
  | readCredential (err : Meta.Error)
  | password (err : String)
  | hash (err : String)
  | createSubject (err : Meta.Error)
  | bind (scope : String) (err : Meta.Error)
  | storeCredential (err : Meta.Error)
  /-- The listing did not end within the pages looked at. -/
  | unfinished

/-- What a boot draws on besides the store. -/
structure Host where
  pages : ℕ
  random : Except String (List UInt8)
  encode : List UInt8 → String
  hash : String → Except String String
  now : ℕ → Time

/-- A boot, and after how many store calls it crashes if it has not returned by then. -/
structure Boot where
  host : Host
  calls : ℕ

/-- As many, and each of `b` in `a`. -/
def sameVerbSet (a b : List String) : Bool :=
  decide (a.length = b.length) && b.all fun verb => decide (verb ∈ a)

/-- The put of `SeedBuiltinRoles`. -/
def putRole (role : Authz.Role) : Program Call.Reply (Except BootError Unit) := do
  match ← Program.perform (.putBuiltinRole ⟨role.name, true, role.verbs.map Authz.Verb.text⟩) with
  | .error err => return .error (.seedRole role.name err)
  | .ok _ => return .ok ()

/-- The body of its loop. -/
def seedRole (role : Authz.Role) : Program Call.Reply (Except BootError Unit) := do
  match ← Program.perform (Call.getRole role.name) with
  | .error (.notFound _ _) => putRole role
  | .error err => return .error (.readRole role.name err)
  | .ok stored =>
    if stored.builtin && sameVerbSet stored.verbs (role.verbs.map Authz.Verb.text) then
      return .ok ()
    else putRole role

/-- Its loop over the roles. -/
def seedRoles : List Authz.Role → Program Call.Reply (Except BootError Unit)
  | [] => return .ok ()
  | role :: roles => do
    match ← seedRole role with
    | .error err => return .error err
    | .ok _ => seedRoles roles

def seedBuiltinRoles : Program Call.Reply (Except BootError Unit) := seedRoles Authz.builtinRoles

/-- Whether there is a user, and the admin. -/
structure Tally where
  hasUser : Bool := false
  admin : Option Subject := none

/-- One subject of a page. -/
def Tally.add (t : Tally) (subject : Subject) : Tally :=
  { hasUser := if subject.kind = .user then true else t.hasUser
    admin := if subject.name = adminName then some subject else t.admin }

/-- The loop of `adminNeeded` over the pages. -/
def tallySubjects : ℕ → String → Tally → Program Call.Reply (Except BootError Tally)
  | 0, _, _ => return .error .unfinished
  | pages + 1, cursor, t => do
    match ← Program.perform (Call.listSubjects ⟨visibleTo [], maxPageSize, cursor⟩) with
    | .error err => return .error (.listSubjects err)
    | .ok page =>
      let t := page.rows.foldl Tally.add t
      if page.next = "" then return .ok t else tallySubjects pages page.next t

def adminNeeded (pages : ℕ) : Program Call.Reply (Except BootError Bool) := do
  match ← tallySubjects pages "" {} with
  | .error err => return .error err
  | .ok t =>
    match t.admin with
    | some admin =>
      if admin.kind ≠ .user then
        if t.hasUser then return .ok false else return .error (.notUser admin.kind)
      else if !t.hasUser then return .ok true
      else
        match ← Program.perform (Call.getUserCredential adminName) with
        | .error (.notFound _ _) => return .ok true
        | .error err => return .error (.readCredential err)
        | .ok _ => return .ok false
    | none => return .ok (!t.hasUser)

/-- Random bytes, as text. -/
def Host.generatePassword (host : Host) : Except BootError String :=
  match host.random with
  | .error err => .error (.password err)
  | .ok raw => .ok (host.encode raw)

/-- The subject that is created. -/
def adminSubject (createdAt : Time) : Subject := ⟨adminID, .user, adminName, false, createdAt⟩

def adminBinding (id scope : String) (createdAt : Time) : Meta.Binding :=
  ⟨id, .subject, adminID, Authz.roleAdmin, scope, createdAt⟩

def systemBinding (createdAt : Time) : Meta.Binding :=
  adminBinding adminSystemBindingID "system" createdAt

def allBinding (createdAt : Time) : Meta.Binding := adminBinding adminAllBindingID "*" createdAt

def bindAdmin : List Meta.Binding → Program Call.Reply (Except BootError Unit)
  | [] => return .ok ()
  | binding :: bindings => do
    match ← Program.perform (Call.createBinding binding) with
    | .error (.conflict _ _) => bindAdmin bindings
    | .error err => return .error (.bind binding.scope err)
    | .ok _ => bindAdmin bindings

/-- What a boot reports. -/
structure BootstrapResult where
  adminCreated : Bool := false
  password : String := ""

def finishAdmin (host : Host) (password hash : String) :
    Program Call.Reply (Except BootError BootstrapResult) := do
  match ← bindAdmin [systemBinding (host.now 1), allBinding (host.now 2)] with
  | .error err => return .error err
  | .ok _ =>
    match ← Program.perform (.putUserCredential ⟨adminName, hash, true, 0⟩) with
    | .error err => return .error (.storeCredential err)
    | .ok _ => return .ok ⟨true, password⟩

def createAdmin (host : Host) : Program Call.Reply (Except BootError BootstrapResult) := do
  match host.generatePassword with
  | .error err => return .error err
  | .ok password =>
    match host.hash password with
    | .error err => return .error (.hash err)
    | .ok hash =>
      match ← Program.perform (Call.createSubject (adminSubject (host.now 0))) with
      | .error (.conflict _ _) => finishAdmin host password hash
      | .error err => return .error (.createSubject err)
      | .ok _ => finishAdmin host password hash

def bootstrap (host : Host) : Program Call.Reply (Except BootError BootstrapResult) := do
  match ← seedBuiltinRoles with
  | .error err => return .error err
  | .ok _ =>
    match ← adminNeeded host.pages with
    | .error err => return .error err
    | .ok false => return .ok {}
    | .ok true => createAdmin host

def Boot.run (quote : String → String) (b : Boot) (s : Identity) :
    Option (Except BootError BootstrapResult) × World :=
  (bootstrap b.host).runWith (handle quote) (List.replicate b.calls ()) { store := s }

end Trove.Bootstrap
