import Trove.Lib.Sort
import Trove.Meta.Types

/-!
# The in-memory metadata store: identities

Subjects, their groups, roles, the bindings that grant a role to a subject or a group within a
scope, and what subjects authenticate with. `apply` is every operation that changes the store, and
`run` a sequence of them from the store as it is made; one that fails changes nothing.
-/

namespace Trove.Meta

open Lib

inductive SubjectKind
  | user
  | robot
  | anonymous
  | unknown (text : String)
  deriving DecidableEq

def SubjectKind.text : SubjectKind → String
  | .user => "user"
  | .robot => "robot"
  | .anonymous => "anonymous"
  | .unknown text => text

/-- A known kind. -/
def SubjectKind.valid : SubjectKind → Bool
  | .unknown _ => false
  | _ => true

def anonymousSubjectName : String := "anonymous"

/-- A user, a robot, or the anonymous one. -/
structure Subject where
  id : String
  kind : SubjectKind
  name : String
  disabled : Bool
  createdAt : Time
  deriving DecidableEq

/-- A group of subjects. -/
structure SubjectGroup where
  (id name : String)
  createdAt : Time
  deriving DecidableEq

/-- A subject is in a group; both are named. -/
structure Membership where
  (group subject : String)

/-- A role as it is stored. -/
structure Role where
  name : String
  builtin : Bool
  verbs : List String

/-- Whom a role is granted to. -/
inductive PrincipalKind
  | subject
  | group
  | unknown (text : String)
  deriving DecidableEq

def PrincipalKind.text : PrincipalKind → String
  | .subject => "subject"
  | .group => "group"
  | .unknown text => text

/-- A known kind. -/
def PrincipalKind.valid : PrincipalKind → Bool
  | .unknown _ => false
  | _ => true

/-- A role granted within a scope. -/
structure Binding where
  id : String
  principalKind : PrincipalKind
  (principalID role scope : String)
  createdAt : Time
  deriving DecidableEq

def Binding.sameGrant (a b : Binding) : Bool :=
  a.principalKind = b.principalKind && a.principalID = b.principalID && a.role = b.role &&
    a.scope = b.scope

theorem Binding.sameGrant_comm (a b : Binding) : a.sameGrant b = b.sameGrant a := by
  simp only [sameGrant, eq_comm]

structure EffectiveBinding where
  binding : Binding
  viaGroup : String

/-- A user's verifier. -/
structure UserCredential where
  (subject hash : String)
  mustRotate : Bool
  rotatedAt : Time

/-- A robot's digest, and when it expires. -/
structure RobotCredential where
  subject : String
  secretHash : List UInt8
  (expiresAt rotatedAt : Time)
  deriving DecidableEq

/-- A personal token, with its hash. -/
structure AccessToken where
  (id subject name : String)
  tokenHash : List UInt8
  (createdAt expiresAt lastUsedAt : Time)

/-- A session, with its two limits. -/
structure Session where
  (id subject csrfToken : String)
  (createdAt idleExpiresAt absoluteExpiresAt : Time)

def Session.expired (session : Session) (now : Time) : Bool :=
  !decide (now < session.idleExpiresAt) || !decide (now < session.absoluteExpiresAt)

/-- The identity side of the store. -/
structure Identity where
  subjects : Table Subject.name
  groups : Table SubjectGroup.name
  members : Table fun m : Membership => (m.group, m.subject)
  roles : Table Role.name
  bindings : Table Binding.id
  userCredentials : Table UserCredential.subject
  robotCredentials : Table RobotCredential.subject
  accessTokens : Table AccessToken.id
  sessions : Table Session.id

namespace Identity

def new : Identity where
  subjects := Table.empty.insert ⟨anonymousSubjectName, .anonymous, anonymousSubjectName, false, 0⟩
  groups := .empty
  members := .empty
  roles := .empty
  bindings := .empty
  userCredentials := .empty
  robotCredentials := .empty
  accessTokens := .empty
  sessions := .empty

variable (quote : String → String) (s : Identity)

/-! ## Subjects -/

def createSubject (subject : Subject) : Except Error Identity :=
  if subject.name = "" then .error (.invalid "name" "must not be empty")
  else if subject.id = "" then .error (.invalid "id" "must not be empty")
  else if subject.kind.valid = false then
    .error (.invalid "kind" ("unknown subject kind " ++ quote subject.kind.text))
  else if (s.subjects.lookup subject.name).isSome then .error (.conflict "subject" subject.name)
  else if s.subjects.values.any (·.id = subject.id) then .error (.conflict "subject id" subject.id)
  else .ok { s with subjects := s.subjects.insert subject }

def setSubjectDisabled (name : String) (disabled : Bool) : Except Error Identity :=
  match s.subjects.lookup name with
  | none => .error (.notFound "subject" name)
  | some subject =>
    .ok { s with subjects := s.subjects.insert { subject with disabled := disabled } }

/-- Those of the principal go. -/
def dropBindings (kind : PrincipalKind) (id : String) : Identity :=
  { s with
    bindings := s.bindings.restrict fun b => !(b.principalKind = kind && b.principalID = id) }

def deleteSubject (name : String) : Except Error Identity :=
  match s.subjects.lookup name with
  | none => .error (.notFound "subject" name)
  | some subject =>
    if subject.kind = .anonymous then
      .error (.invalid "subject"
        ("the anonymous subject cannot be deleted: every unauthenticated request resolves to it"))
    else
      let s := { s with
        subjects := s.subjects.erase name
        members := s.members.restrict (·.subject ≠ name) }
      let s := s.dropBindings .subject subject.id
      .ok { s with
        userCredentials := s.userCredentials.erase name
        robotCredentials := s.robotCredentials.erase name
        accessTokens := s.accessTokens.restrict (·.subject ≠ name)
        sessions := s.sessions.restrict (·.subject ≠ name) }

/-! ## Groups -/

/-- The name must be free. -/
def createGroup (group : SubjectGroup) : Except Error Identity :=
  if group.name = "" then .error (.invalid "name" "must not be empty")
  else if group.id = "" then .error (.invalid "id" "must not be empty")
  else if (s.groups.lookup group.name).isSome then .error (.conflict "group" group.name)
  else .ok { s with
    groups := s.groups.insert group
    -- its map of members is made anew
    members := s.members.restrict (·.group ≠ group.name) }

def deleteGroup (name : String) : Except Error Identity :=
  match s.groups.lookup name with
  | none => .error (.notFound "group" name)
  | some group =>
    let s := { s with
      groups := s.groups.erase name
      members := s.members.restrict (·.group ≠ name) }
    .ok (s.dropBindings .group group.id)

/-- Both must be there. -/
def addGroupMember (group subject : String) : Except Error Identity :=
  if (s.groups.lookup group).isNone then .error (.notFound "group" group)
  else if (s.subjects.lookup subject).isNone then .error (.notFound "subject" subject)
  else .ok { s with members := s.members.insert ⟨group, subject⟩ }

def removeGroupMember (group subject : String) : Except Error Identity :=
  if (s.groups.lookup group).isNone then .error (.notFound "group" group)
  else if (s.members.lookup (group, subject)).isNone then .error (.notFound "group member" subject)
  else .ok { s with members := s.members.erase (group, subject) }

/-! ## Roles -/

def storedRole (role : Role) : Role := { role with verbs := sortBy id role.verbs }

def putBuiltinRole (role : Role) : Except Error Identity :=
  if role.builtin = false then
    .error (.invalid "role" "only a built-in role may travel the seeding path")
  else if role.name = "" then .error (.invalid "name" "must not be empty")
  else if (s.roles.lookup role.name).any (!·.builtin) then .error (.conflict "role" role.name)
  else .ok { s with roles := s.roles.insert (storedRole role) }

/-- The name must be free. -/
def createRole (role : Role) : Except Error Identity :=
  if role.name = "" then .error (.invalid "name" "must not be empty")
  else if (s.roles.lookup role.name).isSome then .error (.conflict "role" role.name)
  else .ok { s with roles := s.roles.insert (storedRole role) }

def getRole (name : String) : Except Error Role :=
  match s.roles.lookup name with
  | none => .error (.notFound "role" name)
  | some role => .ok role

/-- A built-in role is read-only. -/
def updateRoleVerbs (name : String) (verbs : List String) : Except Error Identity :=
  match s.roles.lookup name with
  | none => .error (.notFound "role" name)
  | some role =>
    if role.builtin then
      .error (.invalid "role" ("built-in role " ++ quote name ++ " is read-only"))
    else .ok { s with roles := s.roles.insert (storedRole { role with verbs := verbs }) }

/-- The bindings that granted it go with it. -/
def deleteRole (name : String) : Except Error Identity :=
  match s.roles.lookup name with
  | none => .error (.notFound "role" name)
  | some role =>
    if role.builtin then
      .error (.invalid "role" ("built-in role " ++ quote name ++ " cannot be deleted"))
    else .ok { s with
      roles := s.roles.erase name
      bindings := s.bindings.restrict (·.role ≠ name) }

/-! ## Bindings -/

def principalExists (kind : PrincipalKind) (id : String) : Bool :=
  match kind with
  | .subject => s.subjects.values.any (·.id = id)
  | .group => s.groups.values.any (·.id = id)
  | .unknown _ => false

def createBinding (binding : Binding) : Except Error Identity :=
  if binding.id = "" then .error (.invalid "id" "must not be empty")
  else if binding.principalKind.valid = false then
    .error (.invalid "principal_kind"
      ("unknown principal kind " ++ quote binding.principalKind.text))
  else if binding.scope = "" then .error (.invalid "scope" "must not be empty")
  else if (s.bindings.lookup binding.id).isSome then .error (.conflict "binding" binding.id)
  else if (s.roles.lookup binding.role).isNone then .error (.notFound "role" binding.role)
  else if s.principalExists binding.principalKind binding.principalID = false then
    .error (.notFound binding.principalKind.text binding.principalID)
  else if s.bindings.values.any (·.sameGrant binding) then
    .error (.conflict "binding" (binding.principalKind.text ++ "/" ++ binding.principalID ++
      " -> " ++ binding.role ++ " @ " ++ binding.scope))
  else .ok { s with bindings := s.bindings.insert binding }

def deleteBinding (id : String) : Except Error Identity :=
  if (s.bindings.lookup id).isNone then .error (.notFound "binding" id)
  else .ok { s with bindings := s.bindings.erase id }

def groupIDs (subject : String) : GoMap String String :=
  (s.members.values.filter (·.subject = subject)).foldl
    (fun ids m => ids.insert ((s.groups.lookup m.group).elim "" SubjectGroup.id) m.group) ∅

def reached (subject : Subject) (b : Binding) : Option EffectiveBinding :=
  match b.principalKind with
  | .subject => if b.principalID = subject.id then some ⟨b, ""⟩ else none
  | .group => ((s.groupIDs subject.name).lookup b.principalID).map fun name => ⟨b, name⟩
  | .unknown _ => none

/-- A disabled subject holds nothing. -/
def listEffectiveBindings (name : String) : Except Error (List EffectiveBinding) :=
  match s.subjects.lookup name with
  | none => .error (.notFound "subject" name)
  | some subject =>
    if subject.disabled then .ok []
    else .ok (sortBy (·.binding.id) (s.bindings.values.filterMap (s.reached subject)))

/-! ## Credentials, tokens and sessions -/

/-- The subject must be there. -/
def putUserCredential (cred : UserCredential) : Except Error Identity :=
  if cred.hash = "" then .error (.invalid "hash" "must not be empty")
  else if (s.subjects.lookup cred.subject).isNone then .error (.notFound "subject" cred.subject)
  else .ok { s with userCredentials := s.userCredentials.insert cred }

def getUserCredential (subject : String) : Except Error UserCredential :=
  match s.userCredentials.lookup subject with
  | none => .error (.notFound "user credential" subject)
  | some cred => .ok cred

def deleteUserCredential (subject : String) : Except Error Identity :=
  if (s.userCredentials.lookup subject).isNone then .error (.notFound "user credential" subject)
  else .ok { s with userCredentials := s.userCredentials.erase subject }

def putRobotCredential (cred : RobotCredential) : Except Error Identity :=
  if cred.secretHash = [] then .error (.invalid "secret_hash" "must not be empty")
  else if cred.expiresAt = 0 then
    .error (.invalid "expires_at" "robot accounts must expire (ADR 0004)")
  else
    match s.subjects.lookup cred.subject with
    | none => .error (.notFound "subject" cred.subject)
    | some subject =>
      if subject.kind ≠ .robot then
        .error (.invalid "subject" "robot credentials belong to robot accounts")
      else .ok { s with robotCredentials := s.robotCredentials.insert cred }

def deleteRobotCredential (subject : String) : Except Error Identity :=
  if (s.robotCredentials.lookup subject).isNone then .error (.notFound "robot credential" subject)
  else .ok { s with robotCredentials := s.robotCredentials.erase subject }

def createAccessToken (token : AccessToken) : Except Error Identity :=
  if token.id = "" then .error (.invalid "id" "must not be empty")
  else if token.tokenHash = [] then .error (.invalid "token_hash" "must not be empty")
  else if (s.subjects.lookup token.subject).isNone then .error (.notFound "subject" token.subject)
  else if (s.accessTokens.lookup token.id).isSome then .error (.conflict "access token" token.id)
  else if s.accessTokens.values.any (·.tokenHash = token.tokenHash) then
    .error (.conflict "access token" "hash already registered")
  else .ok { s with accessTokens := s.accessTokens.insert token }

def touchAccessToken (id : String) (now : Time) : Except Error Identity :=
  match s.accessTokens.lookup id with
  | none => .error (.notFound "access token" id)
  | some token =>
    .ok { s with accessTokens := s.accessTokens.insert { token with lastUsedAt := now } }

def deleteAccessToken (id : String) : Except Error Identity :=
  if (s.accessTokens.lookup id).isNone then .error (.notFound "access token" id)
  else .ok { s with accessTokens := s.accessTokens.erase id }

/-- With both of its bounds. -/
def createSession (session : Session) : Except Error Identity :=
  if session.id = "" then .error (.invalid "id" "must not be empty")
  else if session.csrfToken = "" then .error (.invalid "csrf_token" "must not be empty")
  else if session.idleExpiresAt = 0 ∨ session.absoluteExpiresAt = 0 then
    .error (.invalid "expiry" "sessions need both an idle and an absolute bound")
  else if (s.subjects.lookup session.subject).isNone then
    .error (.notFound "subject" session.subject)
  else if (s.sessions.lookup session.id).isSome then .error (.conflict "session" session.id)
  else .ok { s with sessions := s.sessions.insert session }

/-- The idle bound only, and never past the absolute one. -/
def refreshSession (id : String) (idleExpiresAt : Time) : Except Error Identity :=
  match s.sessions.lookup id with
  | none => .error (.notFound "session" id)
  | some session =>
    .ok { s with sessions := s.sessions.insert { session with
      idleExpiresAt :=
        if session.absoluteExpiresAt < idleExpiresAt then session.absoluteExpiresAt
        else idleExpiresAt } }

def deleteSession (id : String) : Except Error Identity :=
  if (s.sessions.lookup id).isNone then .error (.notFound "session" id)
  else .ok { s with sessions := s.sessions.erase id }

/-- And how many there were. -/
def deleteSubjectSessions (subject : String) : ℕ × Identity :=
  ((s.sessions.values.filter (·.subject = subject)).length,
    { s with sessions := s.sessions.restrict (·.subject ≠ subject) })

/-- And how many there were. -/
def deleteExpiredSessions (before : Time) : ℕ × Identity :=
  ((s.sessions.values.filter (·.expired before)).length,
    { s with sessions := s.sessions.restrict (!·.expired before) })

/-! ## What a call that succeeds found and left -/

section Ok

variable {quote : String → String} {s s' : Identity}

theorem createSubject_ok {subject : Subject} (h : s.createSubject quote subject = .ok s') :
    s.subjects.lookup subject.name = none ∧ (∀ x ∈ s.subjects.values, x.id ≠ subject.id) ∧
      s' = { s with subjects := s.subjects.insert subject } := by
  unfold createSubject at h
  split_ifs at h with _ _ _ hnm hid
  exact ⟨by simpa using hnm, by simpa using hid, (Except.ok.inj h).symm⟩

variable {name : String}

theorem setSubjectDisabled_ok {disabled : Bool} (h : s.setSubjectDisabled name disabled = .ok s') :
    ∃ subject, s.subjects.lookup name = some subject ∧
      s' = { s with subjects := s.subjects.insert { subject with disabled := disabled } } := by
  unfold setSubjectDisabled at h
  split at h
  · cases h
  · rename_i subject hsb
    exact ⟨subject, hsb, (Except.ok.inj h).symm⟩

theorem deleteSubject_ok (h : s.deleteSubject name = .ok s') :
    ∃ subject, s.subjects.lookup name = some subject ∧ subject.kind ≠ .anonymous ∧
      s' = { s with
        subjects := s.subjects.erase name
        members := s.members.restrict (·.subject ≠ name)
        bindings := s.bindings.restrict fun b =>
          !(b.principalKind = .subject && b.principalID = subject.id)
        userCredentials := s.userCredentials.erase name
        robotCredentials := s.robotCredentials.erase name
        accessTokens := s.accessTokens.restrict (·.subject ≠ name)
        sessions := s.sessions.restrict (·.subject ≠ name) } := by
  unfold deleteSubject at h
  split at h
  · cases h
  · rename_i subject hsb
    split_ifs at h with hkn
    exact ⟨subject, hsb, hkn, (Except.ok.inj h).symm⟩

theorem createGroup_ok {group : SubjectGroup} (h : s.createGroup group = .ok s') :
    group.name ≠ "" ∧ s.groups.lookup group.name = none ∧ s' = { s with
      groups := s.groups.insert group
      members := s.members.restrict (·.group ≠ group.name) } := by
  unfold createGroup at h
  split_ifs at h with hnm _ hfr
  exact ⟨hnm, by simpa using hfr, (Except.ok.inj h).symm⟩

theorem deleteGroup_ok (h : s.deleteGroup name = .ok s') :
    ∃ group, s.groups.lookup name = some group ∧ s' = { s with
      groups := s.groups.erase name
      members := s.members.restrict (·.group ≠ name)
      bindings := s.bindings.restrict fun b =>
        !(b.principalKind = .group && b.principalID = group.id) } := by
  unfold deleteGroup at h
  split at h
  · cases h
  · rename_i group hgr
    exact ⟨group, hgr, (Except.ok.inj h).symm⟩

variable {group subject : String} {role : Role}

theorem addGroupMember_ok (h : s.addGroupMember group subject = .ok s') :
    s.groups.Has group ∧ s.subjects.Has subject ∧
      s' = { s with members := s.members.insert ⟨group, subject⟩ } := by
  unfold addGroupMember at h
  split_ifs at h with hgr hsb
  refine ⟨?_, ?_, (Except.ok.inj h).symm⟩
  · exact Table.has_of_not_isNone hgr
  · exact Table.has_of_not_isNone hsb

theorem removeGroupMember_ok (h : s.removeGroupMember group subject = .ok s') :
    s.groups.Has group ∧ s' = { s with members := s.members.erase (group, subject) } := by
  unfold removeGroupMember at h
  split_ifs at h with hgr
  refine ⟨?_, (Except.ok.inj h).symm⟩
  exact Table.has_of_not_isNone hgr

theorem putBuiltinRole_ok (h : s.putBuiltinRole role = .ok s') :
    s' = { s with roles := s.roles.insert (storedRole role) } := by
  unfold putBuiltinRole at h
  split_ifs at h
  exact (Except.ok.inj h).symm

theorem createRole_ok (h : s.createRole role = .ok s') :
    s' = { s with roles := s.roles.insert (storedRole role) } := by
  unfold createRole at h
  split_ifs at h
  exact (Except.ok.inj h).symm

theorem updateRoleVerbs_ok {verbs : List String} (h : s.updateRoleVerbs quote name verbs = .ok s') :
    ∃ role : Role, s' = { s with
      roles := s.roles.insert (storedRole { role with verbs := verbs }) } := by
  unfold updateRoleVerbs at h
  split at h
  · cases h
  · rename_i role _
    split_ifs at h
    exact ⟨role, (Except.ok.inj h).symm⟩

theorem deleteRole_ok (h : s.deleteRole quote name = .ok s') :
    s' = { s with
      roles := s.roles.erase name
      bindings := s.bindings.restrict (·.role ≠ name) } := by
  unfold deleteRole at h
  split at h
  · cases h
  · split_ifs at h
    exact (Except.ok.inj h).symm

theorem createBinding_ok {binding : Binding} (h : s.createBinding quote binding = .ok s') :
    s.roles.Has binding.role ∧
      s.principalExists binding.principalKind binding.principalID = true ∧
      (∀ b ∈ s.bindings.values, b.sameGrant binding = false) ∧
      s' = { s with bindings := s.bindings.insert binding } := by
  unfold createBinding at h
  split_ifs at h with _ _ _ _ hrl hpr hgr
  refine ⟨?_, by simpa using hpr, by simpa using hgr, (Except.ok.inj h).symm⟩
  exact Table.has_of_not_isNone hrl

theorem deleteBinding_ok {id : String} (h : s.deleteBinding id = .ok s') :
    s' = { s with bindings := s.bindings.erase id } := by
  unfold deleteBinding at h
  split_ifs at h
  exact (Except.ok.inj h).symm

end Ok

/-! ## Sequences of operations -/

/-- The operations that change the store. -/
inductive Op
  | createSubject (subject : Subject)
  | setSubjectDisabled (name : String) (disabled : Bool)
  | deleteSubject (name : String)
  | createGroup (group : SubjectGroup)
  | deleteGroup (name : String)
  | addGroupMember (group subject : String)
  | removeGroupMember (group subject : String)
  | putBuiltinRole (role : Role)
  | createRole (role : Role)
  | updateRoleVerbs (name : String) (verbs : List String)
  | deleteRole (name : String)
  | createBinding (binding : Binding)
  | deleteBinding (id : String)
  | putUserCredential (cred : UserCredential)
  | deleteUserCredential (subject : String)
  | putRobotCredential (cred : RobotCredential)
  | deleteRobotCredential (subject : String)
  | createAccessToken (token : AccessToken)
  | touchAccessToken (id : String) (now : Time)
  | deleteAccessToken (id : String)
  | createSession (session : Session)
  | refreshSession (id : String) (idleExpiresAt : Time)
  | deleteSession (id : String)
  | deleteSubjectSessions (subject : String)
  | deleteExpiredSessions (before : Time)

def apply : Op → Except Error Identity
  | .createSubject subject => s.createSubject quote subject
  | .setSubjectDisabled name disabled => s.setSubjectDisabled name disabled
  | .deleteSubject name => s.deleteSubject name
  | .createGroup group => s.createGroup group
  | .deleteGroup name => s.deleteGroup name
  | .addGroupMember group subject => s.addGroupMember group subject
  | .removeGroupMember group subject => s.removeGroupMember group subject
  | .putBuiltinRole role => s.putBuiltinRole role
  | .createRole role => s.createRole role
  | .updateRoleVerbs name verbs => s.updateRoleVerbs quote name verbs
  | .deleteRole name => s.deleteRole quote name
  | .createBinding binding => s.createBinding quote binding
  | .deleteBinding id => s.deleteBinding id
  | .putUserCredential cred => s.putUserCredential cred
  | .deleteUserCredential subject => s.deleteUserCredential subject
  | .putRobotCredential cred => s.putRobotCredential cred
  | .deleteRobotCredential subject => s.deleteRobotCredential subject
  | .createAccessToken token => s.createAccessToken token
  | .touchAccessToken id now => s.touchAccessToken id now
  | .deleteAccessToken id => s.deleteAccessToken id
  | .createSession session => s.createSession session
  | .refreshSession id idleExpiresAt => s.refreshSession id idleExpiresAt
  | .deleteSession id => s.deleteSession id
  | .deleteSubjectSessions subject => .ok (s.deleteSubjectSessions subject).2
  | .deleteExpiredSessions before => .ok (s.deleteExpiredSessions before).2

def after (op : Op) : Identity :=
  match s.apply quote op with
  | .ok s' => s'
  | .error _ => s

def run (ops : List Op) : Identity := ops.foldl (fun s op => s.after quote op) s

end Identity

end Trove.Meta
