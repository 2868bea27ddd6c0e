import Trove.Meta.Identity

/-!
# Identity integrity

What the identity store never loses: no row refers to one that is not there, the anonymous subject
is there, identifiers and grants are not shared, and a disabled subject holds nothing.
-/

namespace Trove.Meta

open Lib Table

namespace Identity

/-- No row refers to one that is not there. -/
structure Integrity (s : Identity) : Prop where
  bindingRole : ∀ b ∈ s.bindings.values, s.roles.Has b.role
  bindingPrincipal : ∀ b ∈ s.bindings.values,
    s.principalExists b.principalKind b.principalID = true
  grants : ∀ a ∈ s.bindings.values, ∀ b ∈ s.bindings.values, a.sameGrant b = true → a = b
  subjectIDs : ∀ x ∈ s.subjects.values, ∀ y ∈ s.subjects.values, x.id = y.id → x = y
  groupNames : ∀ g ∈ s.groups.values, g.name ≠ ""
  membership : ∀ m ∈ s.members.values, s.groups.Has m.group ∧ s.subjects.Has m.subject
  userCredential : ∀ c ∈ s.userCredentials.values, s.subjects.Has c.subject
  robotCredential : ∀ c ∈ s.robotCredentials.values, s.subjects.Has c.subject
  accessToken : ∀ t ∈ s.accessTokens.values, s.subjects.Has t.subject
  session : ∀ x ∈ s.sessions.values, s.subjects.Has x.subject
  anonymous : ∃ x ∈ s.subjects.values, x.name = anonymousSubjectName ∧ x.kind = .anonymous

variable {quote : String → String} {s s' : Identity}

theorem integrity_new : new.Integrity := by
  constructor <;> decide

/-! ## Principals -/

variable {id name subject : String}

theorem principalExists_subject :
    s.principalExists .subject id = true ↔ ∃ x ∈ s.subjects.values, x.id = id := by
  simp [principalExists]

theorem principalExists_group :
    s.principalExists .group id = true ↔ ∃ g ∈ s.groups.values, g.id = id := by
  simp [principalExists]

theorem principalExists_mono {kind : PrincipalKind} (h : s.principalExists kind id = true)
    (hsb : kind = .subject → ∀ x ∈ s.subjects.values, x.id = id →
      ∃ y ∈ s'.subjects.values, y.id = id)
    (hgr : kind = .group → ∀ x ∈ s.groups.values, x.id = id →
      ∃ y ∈ s'.groups.values, y.id = id) : s'.principalExists kind id = true := by
  cases kind with
  | subject =>
    obtain ⟨x, hx, hid⟩ := principalExists_subject.mp h
    exact principalExists_subject.mpr (hsb rfl x hx hid)
  | group =>
    obtain ⟨x, hx, hid⟩ := principalExists_group.mp h
    exact principalExists_group.mpr (hgr rfl x hx hid)
  | unknown text => cases h

/-! ## Subjects -/

section

variable (h : s.Integrity)
include h

theorem Integrity.subjects {subjects : Table Subject.name}
    (hnm : ∀ name, s.subjects.Has name → subjects.Has name)
    (hid : ∀ x ∈ s.subjects.values, ∃ y ∈ subjects.values, y.id = x.id)
    (hids : ∀ x ∈ subjects.values, ∀ y ∈ subjects.values, x.id = y.id → x = y)
    (han : ∃ x ∈ subjects.values, x.name = anonymousSubjectName ∧ x.kind = .anonymous) :
    { s with subjects := subjects }.Integrity :=
  { h with
    bindingPrincipal := by
      intro b hb
      refine principalExists_mono (h.bindingPrincipal b hb) (fun _ x hx hxid => ?_)
        (fun _ x hx hxid => ⟨x, hx, hxid⟩)
      obtain ⟨y, hy, hyid⟩ := hid x hx
      exact ⟨y, hy, hyid.trans hxid⟩
    subjectIDs := hids
    membership := fun m hm => ⟨(h.membership m hm).1, hnm _ (h.membership m hm).2⟩
    userCredential := fun c hc => hnm _ (h.userCredential c hc)
    robotCredential := fun c hc => hnm _ (h.robotCredential c hc)
    accessToken := fun t ht => hnm _ (h.accessToken t ht)
    session := fun x hx => hnm _ (h.session x hx)
    anonymous := han }

theorem Integrity.createSubject {subject : Subject}
    (hok : s.createSubject quote subject = .ok s') : s'.Integrity := by
  obtain ⟨hfr, hfs, rfl⟩ := createSubject_ok hok
  have hkp : ∀ x ∈ s.subjects.values, x ∈ (s.subjects.insert subject).values :=
    fun x hx => mem_values_insert.mpr (.inr ⟨key_ne_of_lookup hfr hx, hx⟩)
  refine h.subjects (fun name hnm => has_insert.mpr (.inr hnm))
    (fun x hx => ⟨x, hkp x hx, rfl⟩) ?_ ?_
  · intro x hx y hy hid
    rcases mem_values_insert.mp hx with hx | ⟨-, hx⟩
    · rcases mem_values_insert.mp hy with hy | ⟨-, hy⟩
      · exact hx.trans hy.symm
      · exact absurd (hid.symm.trans (congrArg Subject.id hx)) (hfs y hy)
    · rcases mem_values_insert.mp hy with hy | ⟨-, hy⟩
      · exact absurd (hid.trans (congrArg Subject.id hy)) (hfs x hx)
      · exact h.subjectIDs x hx y hy hid
  · obtain ⟨x, hx, han⟩ := h.anonymous
    exact ⟨x, hkp x hx, han⟩

theorem Integrity.setSubjectDisabled {disabled : Bool}
    (hok : s.setSubjectDisabled name disabled = .ok s') : s'.Integrity := by
  obtain ⟨subject, hrow, rfl⟩ := setSubjectDisabled_ok hok
  have hnm : subject.name = name := key_of_lookup hrow
  have hsb := mem_values_of_lookup hrow
  set disabled' : Subject := { subject with disabled := disabled } with hdef
  -- each row of the new table is one of the old, or the replaced one under its identifier
  have hold : ∀ x ∈ (s.subjects.insert disabled').values,
      x = disabled' ∨ (x ∈ s.subjects.values ∧ x.id ≠ subject.id) := by
    intro x hx
    rcases mem_values_insert.mp hx with hx | ⟨hne, hx⟩
    · exact .inl hx
    · refine .inr ⟨hx, fun hid => hne ?_⟩
      rw [h.subjectIDs x hx subject hsb hid]
  have hkp : ∀ x ∈ s.subjects.values, ∃ y ∈ (s.subjects.insert disabled').values,
      y.id = x.id ∧ y.name = x.name ∧ y.kind = x.kind := by
    intro x hx
    by_cases hx' : x.name = disabled'.name
    · obtain rfl := eq_of_lookup hrow hx (hx'.trans hnm)
      exact ⟨disabled', mem_values_insert.mpr (.inl rfl), rfl, rfl, rfl⟩
    · exact ⟨x, mem_values_insert.mpr (.inr ⟨hx', hx⟩), rfl, rfl, rfl⟩
  refine h.subjects (fun name hnm => has_insert.mpr (.inr hnm))
    (fun x hx => ?_) ?_ ?_
  · obtain ⟨y, hy, hid, -⟩ := hkp x hx
    exact ⟨y, hy, hid⟩
  · intro x hx y hy hid
    rcases hold x hx with rfl | ⟨hx, hxid⟩
    · rcases hold y hy with rfl | ⟨-, hyid⟩
      · rfl
      · exact absurd hid.symm hyid
    · rcases hold y hy with rfl | ⟨hy, -⟩
      · exact absurd hid hxid
      · exact h.subjectIDs x hx y hy hid
  · obtain ⟨x, hx, hxn, hxk⟩ := h.anonymous
    obtain ⟨y, hy, -, hyn, hyk⟩ := hkp x hx
    exact ⟨y, hy, hyn.trans hxn, hyk.trans hxk⟩

theorem Integrity.deleteSubject (hok : s.deleteSubject name = .ok s') : s'.Integrity := by
  obtain ⟨subject, hrow, hkn, rfl⟩ := deleteSubject_ok hok
  have hhas : ∀ {other}, other ≠ name → s.subjects.Has other → (s.subjects.erase name).Has other :=
    fun hne hot => has_erase.mpr ⟨hne, hot⟩
  constructor
  · exact forall_restrict _ h.bindingRole
  · intro b hb
    obtain ⟨hb, hkp⟩ := mem_values_restrict.mp hb
    refine principalExists_mono (h.bindingPrincipal b hb) (fun hk x hx hid => ⟨x, ?_, hid⟩)
      (fun _ x hx hid => ⟨x, hx, hid⟩)
    -- the binding of the deleted subject is gone, so this one's is another
    refine mem_values_erase.mpr ⟨fun hxm => ?_, hx⟩
    obtain rfl := eq_of_lookup hrow hx hxm
    simp [hk, hid] at hkp
  · exact fun a ha b hb => h.grants a (mem_values_restrict.mp ha).1 b
      (mem_values_restrict.mp hb).1
  · exact fun x hx y hy => h.subjectIDs x (mem_values_erase.mp hx).2 y
      (mem_values_erase.mp hy).2
  · exact h.groupNames
  · intro m hm
    obtain ⟨hm, hne⟩ := mem_values_restrict.mp hm
    exact ⟨(h.membership m hm).1, hhas (by simpa using hne) (h.membership m hm).2⟩
  · intro c hc
    obtain ⟨hne, hc⟩ := mem_values_erase.mp hc
    exact hhas hne (h.userCredential c hc)
  · intro c hc
    obtain ⟨hne, hc⟩ := mem_values_erase.mp hc
    exact hhas hne (h.robotCredential c hc)
  · intro t ht
    obtain ⟨ht, hne⟩ := mem_values_restrict.mp ht
    exact hhas (by simpa using hne) (h.accessToken t ht)
  · intro x hx
    obtain ⟨hx, hne⟩ := mem_values_restrict.mp hx
    exact hhas (by simpa using hne) (h.session x hx)
  · obtain ⟨x, hx, hxm, hxk⟩ := h.anonymous
    refine ⟨x, mem_values_erase.mpr ⟨fun hxn => hkn ?_, hx⟩, hxm, hxk⟩
    obtain rfl := eq_of_lookup hrow hx hxn
    exact hxk

/-! ## Groups -/

theorem Integrity.createGroup {group : SubjectGroup}
    (hok : s.createGroup group = .ok s') : s'.Integrity := by
  obtain ⟨hnm, hfr, rfl⟩ := createGroup_ok hok
  exact { h with
    bindingPrincipal := by
      intro b hb
      refine principalExists_mono (h.bindingPrincipal b hb) (fun _ x hx hid => ⟨x, hx, hid⟩)
        (fun _ x hx hid => ⟨x, ?_, hid⟩)
      exact mem_values_insert.mpr (.inr ⟨key_ne_of_lookup hfr hx, hx⟩)
    groupNames := forall_insert h.groupNames hnm
    membership := by
      intro m hm
      obtain ⟨hm, -⟩ := mem_values_restrict.mp hm
      exact ⟨has_insert.mpr (.inr (h.membership m hm).1), (h.membership m hm).2⟩ }

theorem Integrity.deleteGroup (hok : s.deleteGroup name = .ok s') : s'.Integrity := by
  obtain ⟨group, hrow, rfl⟩ := deleteGroup_ok hok
  exact { h with
    bindingRole := forall_restrict _ h.bindingRole
    bindingPrincipal := by
      intro b hb
      obtain ⟨hb, hkp⟩ := mem_values_restrict.mp hb
      refine principalExists_mono (h.bindingPrincipal b hb) (fun _ x hx hid => ⟨x, hx, hid⟩)
        (fun hk x hx hid => ⟨x, ?_, hid⟩)
      refine mem_values_erase.mpr ⟨fun hxn => ?_, hx⟩
      obtain rfl := eq_of_lookup hrow hx hxn
      simp [hk, hid] at hkp
    grants := fun a ha b hb => h.grants a (mem_values_restrict.mp ha).1 b
      (mem_values_restrict.mp hb).1
    groupNames := forall_erase _ h.groupNames
    membership := by
      intro m hm
      obtain ⟨hm, hne⟩ := mem_values_restrict.mp hm
      exact ⟨has_erase.mpr ⟨by simpa using hne, (h.membership m hm).1⟩,
        (h.membership m hm).2⟩ }

theorem Integrity.addGroupMember {group : String}
    (hok : s.addGroupMember group subject = .ok s') : s'.Integrity := by
  obtain ⟨hgr, hsb, rfl⟩ := addGroupMember_ok hok
  exact { h with membership := forall_insert h.membership ⟨hgr, hsb⟩ }

theorem Integrity.removeGroupMember {group : String}
    (hok : s.removeGroupMember group subject = .ok s') : s'.Integrity := by
  obtain ⟨-, rfl⟩ := removeGroupMember_ok hok
  exact { h with membership := forall_erase _ h.membership }

/-! ## Roles and bindings -/

theorem Integrity.insertRole (role : Role) : { s with roles := s.roles.insert role }.Integrity :=
  { h with bindingRole := fun b hb => has_insert.mpr (.inr (h.bindingRole b hb)) }

theorem Integrity.deleteRole (hok : s.deleteRole quote name = .ok s') : s'.Integrity := by
  obtain rfl := deleteRole_ok hok
  exact { h with
    bindingRole := by
      intro b hb
      obtain ⟨hb, hne⟩ := mem_values_restrict.mp hb
      exact has_erase.mpr ⟨by simpa using hne, h.bindingRole b hb⟩
    bindingPrincipal := forall_restrict _ h.bindingPrincipal
    grants := fun a ha b hb => h.grants a (mem_values_restrict.mp ha).1 b
      (mem_values_restrict.mp hb).1 }

theorem Integrity.createBinding {binding : Binding}
    (hok : s.createBinding quote binding = .ok s') : s'.Integrity := by
  obtain ⟨hrl, hpr, hfr, rfl⟩ := createBinding_ok hok
  exact { h with
    bindingRole := forall_insert h.bindingRole hrl
    bindingPrincipal := forall_insert h.bindingPrincipal hpr
    grants := by
      intro a ha b hb hsm
      rcases mem_values_insert.mp ha with ha | ⟨-, ha⟩
      · rcases mem_values_insert.mp hb with hb | ⟨-, hb⟩
        · exact ha.trans hb.symm
        · rw [ha, Binding.sameGrant_comm, hfr b hb] at hsm
          cases hsm
      · rcases mem_values_insert.mp hb with hb | ⟨-, hb⟩
        · rw [hb, hfr a ha] at hsm
          cases hsm
        · exact h.grants a ha b hb hsm }

theorem Integrity.deleteBinding (hok : s.deleteBinding id = .ok s') : s'.Integrity := by
  obtain rfl := deleteBinding_ok hok
  exact { h with
    bindingRole := forall_erase _ h.bindingRole
    bindingPrincipal := forall_erase _ h.bindingPrincipal
    grants := fun a ha b hb => h.grants a (mem_values_erase.mp ha).2 b
      (mem_values_erase.mp hb).2 }

/-! ## Credentials, tokens and sessions -/

theorem Integrity.putUserCredential {cred : UserCredential}
    (hok : s.putUserCredential cred = .ok s') : s'.Integrity := by
  unfold Identity.putUserCredential at hok
  split_ifs at hok with _ hsb
  cases hok
  refine { h with userCredential := forall_insert h.userCredential ?_ }
  exact has_of_not_isNone hsb

theorem Integrity.deleteUserCredential
    (hok : s.deleteUserCredential subject = .ok s') : s'.Integrity := by
  unfold Identity.deleteUserCredential at hok
  split_ifs at hok
  cases hok
  exact { h with userCredential := forall_erase _ h.userCredential }

theorem Integrity.putRobotCredential {cred : RobotCredential}
    (hok : s.putRobotCredential cred = .ok s') : s'.Integrity := by
  unfold Identity.putRobotCredential at hok
  split_ifs at hok
  split at hok
  · cases hok
  · rename_i subject hsb
    split_ifs at hok
    cases hok
    exact { h with robotCredential := forall_insert h.robotCredential ⟨subject, hsb⟩ }

theorem Integrity.deleteRobotCredential
    (hok : s.deleteRobotCredential subject = .ok s') : s'.Integrity := by
  unfold Identity.deleteRobotCredential at hok
  split_ifs at hok
  cases hok
  exact { h with robotCredential := forall_erase _ h.robotCredential }

theorem Integrity.createAccessToken {token : AccessToken}
    (hok : s.createAccessToken token = .ok s') : s'.Integrity := by
  unfold Identity.createAccessToken at hok
  split_ifs at hok with _ _ hsb
  cases hok
  refine { h with accessToken := forall_insert h.accessToken ?_ }
  exact has_of_not_isNone hsb

theorem Integrity.touchAccessToken {now : Time}
    (hok : s.touchAccessToken id now = .ok s') : s'.Integrity := by
  unfold Identity.touchAccessToken at hok
  split at hok
  · cases hok
  · rename_i token hrow
    cases hok
    exact { h with accessToken :=
      forall_insert h.accessToken (h.accessToken token (mem_values_of_lookup hrow)) }

theorem Integrity.deleteAccessToken (hok : s.deleteAccessToken id = .ok s') : s'.Integrity := by
  unfold Identity.deleteAccessToken at hok
  split_ifs at hok
  cases hok
  exact { h with accessToken := forall_erase _ h.accessToken }

theorem Integrity.createSession {session : Session}
    (hok : s.createSession session = .ok s') : s'.Integrity := by
  unfold Identity.createSession at hok
  split_ifs at hok with _ _ _ hsb
  cases hok
  refine { h with session := forall_insert h.session ?_ }
  exact has_of_not_isNone hsb

theorem Integrity.refreshSession {idleExpiresAt : Time}
    (hok : s.refreshSession id idleExpiresAt = .ok s') : s'.Integrity := by
  unfold Identity.refreshSession at hok
  split at hok
  · cases hok
  · rename_i session hrow
    cases hok
    exact { h with session :=
      forall_insert h.session (h.session session (mem_values_of_lookup hrow)) }

theorem Integrity.deleteSession (hok : s.deleteSession id = .ok s') : s'.Integrity := by
  unfold Identity.deleteSession at hok
  split_ifs at hok
  cases hok
  exact { h with session := forall_erase _ h.session }

/-! ## Sequences of operations -/

theorem Integrity.apply {op : Op} (hok : s.apply quote op = .ok s') : s'.Integrity := by
  cases op with
  | createSubject subject => exact h.createSubject hok
  | setSubjectDisabled name disabled => exact h.setSubjectDisabled hok
  | deleteSubject name => exact h.deleteSubject hok
  | createGroup group => exact h.createGroup hok
  | deleteGroup name => exact h.deleteGroup hok
  | addGroupMember group subject => exact h.addGroupMember hok
  | removeGroupMember group subject => exact h.removeGroupMember hok
  | putBuiltinRole role =>
    obtain rfl := putBuiltinRole_ok hok
    exact h.insertRole _
  | createRole role =>
    obtain rfl := createRole_ok hok
    exact h.insertRole _
  | updateRoleVerbs name verbs =>
    obtain ⟨role, rfl⟩ := updateRoleVerbs_ok hok
    exact h.insertRole _
  | deleteRole name => exact h.deleteRole hok
  | createBinding binding => exact h.createBinding hok
  | deleteBinding id => exact h.deleteBinding hok
  | putUserCredential cred => exact h.putUserCredential hok
  | deleteUserCredential subject => exact h.deleteUserCredential hok
  | putRobotCredential cred => exact h.putRobotCredential hok
  | deleteRobotCredential subject => exact h.deleteRobotCredential hok
  | createAccessToken token => exact h.createAccessToken hok
  | touchAccessToken id now => exact h.touchAccessToken hok
  | deleteAccessToken id => exact h.deleteAccessToken hok
  | createSession session => exact h.createSession hok
  | refreshSession id idleExpiresAt => exact h.refreshSession hok
  | deleteSession id => exact h.deleteSession hok
  | deleteSubjectSessions subject | deleteExpiredSessions before =>
    cases hok
    exact { h with session := forall_restrict _ h.session }

theorem Integrity.run (ops : List Op) : (s.run quote ops).Integrity := by
  induction ops generalizing s with
  | nil => exact h
  | cons op ops ih =>
    refine ih (s := s.after quote op) ?_
    unfold after
    split
    · rename_i s' hok
      exact h.apply hok
    · exact h

end

theorem listEffectiveBindings_of_disabled {subject : Subject} (h : subject ∈ s.subjects.values)
    (hds : subject.disabled = true) : s.listEffectiveBindings subject.name = .ok [] := by
  unfold listEffectiveBindings
  rw [mem_values.mp h]
  simp [hds]

/-- **Identity integrity.** After every sequence of operations no row of the store refers to one
that is not there, and a disabled subject has no effective bindings. -/
theorem run_integrity (quote : String → String) (ops : List Op) :
    (new.run quote ops).Integrity ∧
      ∀ subject ∈ (new.run quote ops).subjects.values, subject.disabled = true →
        (new.run quote ops).listEffectiveBindings subject.name = .ok [] :=
  ⟨integrity_new.run ops, fun _ hsb hds =>
    listEffectiveBindings_of_disabled hsb hds⟩

end Identity

end Trove.Meta
