import Trove.Authz.Lockout
import Trove.Meta.Integrity

/-!
# The bindings a request is decided on

`FetchBindings` turns the bindings that reach a subject into the values the decision takes, reading
each role once. The lockout check simulates a change on the lists fetched before it.
-/

namespace Trove.Server

open Lib Meta List Table Identity
open Authz (verbOf adminGrant ensureAdminRemains withoutBinding withoutRole withoutGroup)

/-- Which read failed, and how. -/
inductive FetchError
  | listBindings (subject : String) (err : Meta.Error)
  | readRole (role : String) (err : Meta.Error)
  deriving DecidableEq

/-- What the loop carries: the roles read so far, `none` for one that is not there, and the
bindings. -/
structure Fetch where
  verbs : GoMap String (Option (List Authz.Verb))
  out : List Authz.Binding

def bindingOf (e : EffectiveBinding) (verbs : List Authz.Verb) : Authz.Binding :=
  ⟨e.binding.id, e.binding.role, e.binding.scope, verbs, e.viaGroup⟩

variable (s : Identity)

/-- One round of the loop. -/
def Fetch.next (f : Fetch) (e : EffectiveBinding) : Except FetchError Fetch :=
  match f.verbs.lookup e.binding.role with
  | some none => .ok f
  | some (some verbs) => .ok { f with out := f.out ++ [bindingOf e verbs] }
  | none =>
    match s.getRole e.binding.role with
    | .error (.notFound _ _) => .ok { f with verbs := f.verbs.insert e.binding.role none }
    | .error err => .error (.readRole e.binding.role err)
    | .ok role =>
      .ok {
        verbs := f.verbs.insert e.binding.role (some (role.verbs.map verbOf))
        out := f.out ++ [bindingOf e (role.verbs.map verbOf)] }

def fetchBindings (subject : String) : Except FetchError (List Authz.Binding) :=
  match s.listEffectiveBindings subject with
  | .error err => .error (.listBindings subject err)
  | .ok effective =>
    match effective.foldlM (Fetch.next s) ⟨∅, []⟩ with
    | .error err => .error err
    | .ok f => .ok (sortBy Authz.Binding.id f.out)

/-! ## What is fetched -/

variable {s} {s' : Identity}

def expand (s : Identity) (e : EffectiveBinding) : Option Authz.Binding :=
  (s.roles.lookup e.binding.role).map fun role => bindingOf e (role.verbs.map verbOf)

/-- The roles read so far are as the store has them. -/
def Fetch.Faithful (s : Identity) (f : Fetch) : Prop :=
  ∀ name verbs, f.verbs.lookup name = some verbs →
    verbs = (s.roles.lookup name).map fun role => role.verbs.map verbOf

theorem Fetch.next_eq {f : Fetch} (h : f.Faithful s) (e : EffectiveBinding) :
    ∃ f', f.next s e = .ok f' ∧ f'.Faithful s ∧ f'.out = f.out ++ (expand s e).toList := by
  have hin : ∀ verbs, verbs = (s.roles.lookup e.binding.role).map
      (fun role => role.verbs.map verbOf) → ∀ out,
      Fetch.Faithful s ⟨f.verbs.insert e.binding.role verbs, out⟩ := by
    intro verbs hvr out name verbs' hrow
    rcases AList.lookup_insert_eq_some.mp hrow with ⟨rfl, rfl⟩ | ⟨-, hrow⟩
    · exact hvr
    · exact h name verbs' hrow
  unfold Fetch.next expand
  cases hrd : f.verbs.lookup e.binding.role with
  | some read =>
    have hrl := h _ _ hrd
    cases hlk : s.roles.lookup e.binding.role with
    | none =>
      rw [hlk] at hrl
      subst hrl
      exact ⟨f, rfl, h, by simp⟩
    | some role =>
      rw [hlk] at hrl
      subst hrl
      exact ⟨_, rfl, h, by simp⟩
  | none =>
    unfold Identity.getRole
    cases hlk : s.roles.lookup e.binding.role with
    | none | some role => exact ⟨_, rfl, hin _ (by rw [hlk]; rfl) _, by simp⟩

theorem Fetch.foldlM_next {f : Fetch} (h : f.Faithful s) (effective : List EffectiveBinding) :
    ∃ f', effective.foldlM (Fetch.next s) f = .ok f' ∧
      f'.out = f.out ++ effective.filterMap (expand s) := by
  induction effective generalizing f with
  | nil => exact ⟨f, rfl, by simp⟩
  | cons e effective ih =>
    obtain ⟨f₁, hnx, hft, hout⟩ := Fetch.next_eq h e
    obtain ⟨f₂, hrs, hout'⟩ := ih hft
    refine ⟨f₂, ?_, ?_⟩
    · rw [foldlM_cons, hnx]
      exact hrs
    · rw [hout', hout, append_assoc]
      cases hep : expand s e with
      | none | some b => simp [hep]

/-- What a binding of the store gives a subject. -/
def granted (s : Identity) (subject : Subject) (b : Binding) : Option Authz.Binding :=
  (s.reached subject b).bind (expand s)

variable {subject : Subject} {b : Binding} {a : Authz.Binding} {name : String}

theorem reached_id {e : EffectiveBinding} (h : s.reached subject b = some e) : e.binding = b := by
  unfold Identity.reached at h
  split at h
  · split_ifs at h
    cases h
    rfl
  · obtain ⟨name, -, rfl⟩ := Option.map_eq_some_iff.mp h
    rfl
  · cases h

theorem granted_id (h : granted s subject b = some a) : a.id = b.id := by
  obtain ⟨e, he, ha⟩ := Option.bind_eq_some_iff.mp h
  obtain ⟨role, -, rfl⟩ := Option.map_eq_some_iff.mp ha
  rw [← reached_id he]
  rfl

theorem nodup_granted (s : Identity) (subject : Subject) :
    ((s.bindings.values.filterMap (granted s subject)).map Authz.Binding.id).Nodup :=
  (map_filterMap_sublist (fun _ _ => granted_id) _).nodup s.bindings.nodup_map_key_values

/-- The list an enabled subject's request is decided on. -/
def heldBy (s : Identity) (subject : Subject) : List Authz.Binding :=
  sortBy Authz.Binding.id (s.bindings.values.filterMap (granted s subject))

theorem fetchBindings_eq (h : subject ∈ s.subjects.values) (hen : subject.disabled = false) :
    fetchBindings s subject.name = .ok (heldBy s subject) := by
  obtain ⟨f, hf, hout⟩ := Fetch.foldlM_next (s := s) (f := ⟨∅, []⟩)
    (by intro name verbs hrow; simp at hrow)
    (sortBy (·.binding.id) (s.bindings.values.filterMap (s.reached subject)))
  have hls : s.listEffectiveBindings subject.name =
      .ok (sortBy (·.binding.id) (s.bindings.values.filterMap (s.reached subject))) := by
    unfold Identity.listEffectiveBindings
    rw [mem_values.mp h]
    simp [hen]
  have hpr : f.out.Perm (s.bindings.values.filterMap (granted s subject)) := by
    rw [hout, nil_append]
    refine ((perm_sortBy _).filterMap _).trans ?_
    rw [filterMap_filterMap]
    exact .refl _
  unfold fetchBindings
  rw [hls]
  simp only [hf]
  unfold heldBy
  rw [sortBy_eq_of_perm ((hpr.map _).nodup_iff.mpr (nodup_granted s subject)) hpr]

theorem increasing_heldBy (s : Identity) (subject : Subject) :
    Increasing Authz.Binding.id (heldBy s subject) :=
  increasing_sortBy (nodup_granted s subject)

/-! ## How a binding reaches a subject -/

def UniqueGroupIDs (s : Identity) : Prop :=
  ∀ g ∈ s.groups.values, ∀ g' ∈ s.groups.values, g.id = g'.id → g = g'

instance : DecidablePred UniqueGroupIDs := fun s =>
  inferInstanceAs (Decidable (∀ g ∈ s.groups.values, ∀ g' ∈ s.groups.values, g.id = g'.id → g = g'))

/-- The binding is the subject's own, or that of the group `via` it is a member of. -/
def Reaches (s : Identity) (subject : Subject) (b : Binding) (via : String) : Prop :=
  (b.principalKind = .subject ∧ b.principalID = subject.id ∧ via = "") ∨
    (b.principalKind = .group ∧ s.members.Has (via, subject.name) ∧
      ∃ group, s.groups.lookup via = some group ∧ group.id = b.principalID)

/-- What the fetch and the lockout check rely on. -/
structure Sound (s : Identity) : Prop where
  integrity : s.Integrity
  groupIDs : UniqueGroupIDs s

theorem Sound.lookup_groupIDs (h : Sound s) {subject id via : String} :
    (s.groupIDs subject).lookup id = some via ↔
      s.members.Has (via, subject) ∧ ∃ group, s.groups.lookup via = some group ∧ group.id = id := by
  have hgr : ∀ m ∈ s.members.values, ∃ group, s.groups.lookup m.group = some group :=
    fun m hm => (h.integrity.membership m hm).1
  unfold Identity.groupIDs
  rw [AList.lookup_foldl_insert]
  · constructor
    · rintro ⟨m, hm, hid, rfl⟩
      obtain ⟨hm, hsb⟩ := mem_filter.mp hm
      obtain ⟨group, hrow⟩ := hgr m hm
      have hsb : m.subject = subject := by simpa using hsb
      rw [hrow] at hid
      refine ⟨⟨m, ?_⟩, group, hrow, hid⟩
      rw [← hsb]
      exact mem_values.mp hm
    · rintro ⟨⟨m, hm⟩, group, hrow, hid⟩
      have hkey := key_of_lookup hm
      have hvia : m.group = via := congrArg Prod.fst hkey
      refine ⟨m, mem_filter.mpr ⟨mem_values_of_lookup hm, ?_⟩, ?_, hvia⟩
      · simpa using congrArg Prod.snd hkey
      · rw [hvia, hrow]
        exact hid
  · intro a ha b hb hid
    obtain ⟨g, hg⟩ := hgr a (mem_filter.mp ha).1
    obtain ⟨g', hg'⟩ := hgr b (mem_filter.mp hb).1
    rw [hg, hg'] at hid
    have heq := h.groupIDs g (mem_values_of_lookup hg) g' (mem_values_of_lookup hg') hid
    rw [← key_of_lookup hg, ← key_of_lookup hg', heq]

theorem Sound.reached_eq_some (h : Sound s) {e : EffectiveBinding} :
    s.reached subject b = some e ↔ e.binding = b ∧ Reaches s subject b e.viaGroup := by
  unfold Identity.reached Reaches
  cases hkn : b.principalKind with
  | subject =>
    obtain ⟨binding, via⟩ := e
    by_cases hid : b.principalID = subject.id
    · simp [hid, eq_comm]
    · simp [hid]
  | group =>
    obtain ⟨binding, via⟩ := e
    simp only [Option.map_eq_some_iff, EffectiveBinding.mk.injEq, reduceCtorEq, false_and,
      true_and, false_or]
    constructor
    · rintro ⟨name, hnm, rfl, rfl⟩
      exact ⟨rfl, h.lookup_groupIDs.mp hnm⟩
    · rintro ⟨rfl, hvia⟩
      exact ⟨via, h.lookup_groupIDs.mpr hvia, rfl, rfl⟩
  | unknown text => simp

def Held (s : Identity) (subject : Subject) (a : Authz.Binding) : Prop :=
  ∃ b ∈ s.bindings.values, ∃ role, s.roles.lookup b.role = some role ∧
    Reaches s subject b a.viaGroup ∧ a = bindingOf ⟨b, a.viaGroup⟩ (role.verbs.map verbOf)

theorem Sound.mem_heldBy (h : Sound s) : a ∈ heldBy s subject ↔ Held s subject a := by
  unfold heldBy Held
  rw [mem_sortBy, mem_filterMap]
  refine exists_congr fun b => and_congr_right fun _ => ?_
  unfold granted expand
  rw [Option.bind_eq_some_iff]
  constructor
  · rintro ⟨e, he, ha⟩
    obtain ⟨role, hrl, rfl⟩ := Option.map_eq_some_iff.mp ha
    obtain ⟨rfl, hrc⟩ := h.reached_eq_some.mp he
    exact ⟨role, hrl, hrc, rfl⟩
  · rintro ⟨role, hrl, hrc, ha⟩
    refine ⟨⟨b, a.viaGroup⟩, h.reached_eq_some.mpr ⟨rfl, hrc⟩, ?_⟩
    exact Option.map_eq_some_iff.mpr ⟨role, hrl, ha.symm⟩

theorem Sound.heldBy_without (h : Sound s) (h' : Sound s') {drop : Authz.Binding → Bool}
    (hhl : ∀ a, Held s' subject a ↔ Held s subject a ∧ drop a = false) :
    heldBy s' subject = Authz.without (heldBy s subject) drop := by
  refine (increasing_heldBy s' subject).eq_of_mem_iff
    ((increasing_heldBy s subject).filter _) fun a => ?_
  rw [h'.mem_heldBy, hhl, Authz.without, mem_filter, h.mem_heldBy, Bool.not_eq_true']

theorem Sound.heldBy_same (h : Sound s) (h' : Sound s')
    (hhl : ∀ a, Held s' subject a ↔ Held s subject a) : heldBy s' subject = heldBy s subject :=
  (increasing_heldBy s' subject).eq_of_mem_iff (increasing_heldBy s subject) fun a => by
    rw [h'.mem_heldBy, hhl, h.mem_heldBy]

/-! ## The change and its simulation -/

inductive Change
  | deleteBinding (id : String)
  | deleteRole (name : String)
  | removeGroupMember (group subject : String)
  | deleteGroup (name : String)
  | disableSubject (name : String)
  | deleteSubject (name : String)

def Change.op : Change → Identity.Op
  | .deleteBinding id => .deleteBinding id
  | .deleteRole name => .deleteRole name
  | .removeGroupMember group subject => .removeGroupMember group subject
  | .deleteGroup name => .deleteGroup name
  | .disableSubject name => .setSubjectDisabled name true
  | .deleteSubject name => .deleteSubject name

/-- The change on the list fetched for a subject; `none` when the subject is omitted. -/
def Change.simulate : Change → String → List Authz.Binding → Option (List Authz.Binding)
  | .deleteBinding id, _, bindings => some (withoutBinding bindings id)
  | .deleteRole name, _, bindings => some (withoutRole bindings name)
  | .removeGroupMember group member, subject, bindings =>
    some (if subject = member then withoutGroup bindings group else bindings)
  | .deleteGroup name, _, bindings => some (withoutGroup bindings name)
  | .disableSubject name, subject, bindings => if subject = name then none else some bindings
  | .deleteSubject name, subject, bindings => if subject = name then none else some bindings

theorem Change.simulate_isSome (change : Change) {subject : String}
    {bindings after : List Authz.Binding} (h : change.simulate subject bindings = some after)
    (bindings' : List Authz.Binding) : (change.simulate subject bindings').isSome = true := by
  cases change with
  | disableSubject name | deleteSubject name =>
    have hne : subject ≠ name := by
      rintro rfl
      simp [simulate] at h
    simp [simulate, hne]
  | _ => rfl

def enabled (s : Identity) : List Subject := s.subjects.values.filter (!·.disabled)

def simulated (s : Identity) (change : Change) :
    Except FetchError (List (List Authz.Binding)) := do
  let lists ← (enabled s).mapM fun subject => do
    return (subject.name, ← fetchBindings s subject.name)
  return lists.filterMap fun fetched => change.simulate fetched.1 fetched.2

theorem mem_enabled :
    subject ∈ enabled s ↔ subject ∈ s.subjects.values ∧ subject.disabled = false := by
  simp [enabled]

theorem simulated_eq (s : Identity) (change : Change) :
    simulated s change = .ok ((enabled s).filterMap fun subject =>
      change.simulate subject.name (heldBy s subject)) := by
  have hls : ((enabled s).mapM fun subject => do
      return (subject.name, ← fetchBindings s subject.name)) =
      .ok ((enabled s).map fun subject => (subject.name, heldBy s subject)) := by
    refine mapM_eq_ok.mpr (List.forall₂_map_right_iff.mpr (List.forall₂_same.mpr ?_))
    intro subject hsb
    obtain ⟨hrow, hen⟩ := mem_enabled.mp hsb
    rw [fetchBindings_eq hrow hen]
    rfl
  unfold simulated
  rw [hls]
  show Except.ok _ = Except.ok _
  rw [filterMap_map]
  rfl

/-! ## What each change leaves a subject -/

variable {quote : String → String}

theorem held_deleteBinding {id : String} (hok : s.deleteBinding id = .ok s') :
    Held s' subject a ↔ Held s subject a ∧ decide (a.id = id) = false := by
  obtain rfl := deleteBinding_ok hok
  rw [decide_eq_false_iff_not]
  constructor
  · rintro ⟨b, hb, role, hrl, hrc, ha⟩
    obtain ⟨hne, hb⟩ := mem_values_erase.mp hb
    refine ⟨⟨b, hb, role, hrl, hrc, ha⟩, ?_⟩
    rw [ha]
    exact hne
  · rintro ⟨⟨b, hb, role, hrl, hrc, ha⟩, hne⟩
    refine ⟨b, mem_values_erase.mpr ⟨?_, hb⟩, role, hrl, hrc, ha⟩
    rw [ha] at hne
    exact hne

theorem held_deleteRole (hok : s.deleteRole quote name = .ok s') :
    Held s' subject a ↔ Held s subject a ∧ decide (a.role = name) = false := by
  obtain rfl := deleteRole_ok hok
  rw [decide_eq_false_iff_not]
  constructor
  · rintro ⟨b, hb, role, hrl, hrc, ha⟩
    obtain ⟨hb, -⟩ := mem_values_restrict.mp hb
    rw [lookup_erase] at hrl
    split_ifs at hrl with hne
    refine ⟨⟨b, hb, role, hrl, hrc, ha⟩, ?_⟩
    rw [ha]
    exact hne
  · rintro ⟨⟨b, hb, role, hrl, hrc, ha⟩, hne⟩
    rw [ha] at hne
    have hne : b.role ≠ name := hne
    refine ⟨b, mem_values_restrict.mpr ⟨hb, by simpa using hne⟩, role, ?_, hrc, ha⟩
    rw [lookup_erase, if_neg hne]
    exact hrl

theorem held_congr (hbn : s'.bindings = s.bindings) (hrl : s'.roles = s.roles)
    (hrc : ∀ b via, Reaches s' subject b via ↔ Reaches s subject b via) (a : Authz.Binding) :
    Held s' subject a ↔ Held s subject a := by
  unfold Held
  simp only [hbn, hrl, hrc]

theorem held_removeGroupMember (h : s.Integrity) {group member : String}
    (hok : s.removeGroupMember group member = .ok s') :
    Held s' subject a ↔
      Held s subject a ∧ ¬(subject.name = member ∧ a.viaGroup = group) := by
  obtain ⟨⟨row, hgr⟩, rfl⟩ := removeGroupMember_ok hok
  have hnm : group ≠ "" := by
    rw [← key_of_lookup hgr]
    exact h.groupNames row (mem_values_of_lookup hgr)
  have hrc : ∀ b via,
      Reaches { s with members := s.members.erase (group, member) } subject b via ↔
        Reaches s subject b via ∧ ¬(subject.name = member ∧ via = group) := by
    intro b via
    unfold Reaches
    rw [has_erase]
    constructor
    · rintro (⟨hkn, hid, rfl⟩ | ⟨hkn, ⟨hne, hmm⟩, hrow⟩)
      · exact ⟨.inl ⟨hkn, hid, rfl⟩, fun hbt => hnm hbt.2.symm⟩
      · exact ⟨.inr ⟨hkn, hmm, hrow⟩, fun hbt => hne (by rw [hbt.1, hbt.2])⟩
    · rintro ⟨⟨hkn, hid, rfl⟩ | ⟨hkn, hmm, hrow⟩, hne⟩
      · exact .inl ⟨hkn, hid, rfl⟩
      · refine .inr ⟨hkn, ⟨fun heq => hne ?_, hmm⟩, hrow⟩
        exact ⟨congrArg Prod.snd heq, congrArg Prod.fst heq⟩
  unfold Held
  simp only [hrc]
  constructor
  · rintro ⟨b, hb, role, hrl, ⟨hr, hne⟩, ha⟩
    exact ⟨⟨b, hb, role, hrl, hr, ha⟩, hne⟩
  · rintro ⟨⟨b, hb, role, hrl, hr, ha⟩, hne⟩
    exact ⟨b, hb, role, hrl, ⟨hr, hne⟩, ha⟩

theorem held_deleteGroup (h : Sound s) (hok : s.deleteGroup name = .ok s') :
    Held s' subject a ↔ Held s subject a ∧ decide (a.viaGroup = name) = false := by
  obtain ⟨group, hgr, rfl⟩ := deleteGroup_ok hok
  have hnm : name ≠ "" := by
    rw [← key_of_lookup hgr]
    exact h.integrity.groupNames group (mem_values_of_lookup hgr)
  simp only [decide_eq_false_iff_not]
  constructor
  · rintro ⟨b, hb, role, hrl, hrc, ha⟩
    obtain ⟨hb, -⟩ := mem_values_restrict.mp hb
    rcases hrc with ⟨hkn, hid, hvia⟩ | ⟨hkn, ⟨m, hm⟩, g, hg, hid⟩
    · exact ⟨⟨b, hb, role, hrl, .inl ⟨hkn, hid, hvia⟩, ha⟩,
        fun heq => hnm (heq.symm.trans hvia)⟩
    · rw [lookup_erase] at hg
      split_ifs at hg with hne
      obtain ⟨hm, -⟩ := lookup_restrict_eq_some.mp hm
      exact ⟨⟨b, hb, role, hrl, .inr ⟨hkn, ⟨m, hm⟩, g, hg, hid⟩, ha⟩, hne⟩
  · rintro ⟨⟨b, hb, role, hrl, hrc, ha⟩, hne⟩
    rcases hrc with ⟨hkn, hid, hvia⟩ | ⟨hkn, ⟨m, hm⟩, g, hg, hid⟩
    · exact ⟨b, mem_values_restrict.mpr ⟨hb, by simp [hkn]⟩, role, hrl,
        .inl ⟨hkn, hid, hvia⟩, ha⟩
    · -- the binding is another group's, since groups do not share identifiers
      have hot : b.principalID ≠ group.id := by
        intro heq
        have := h.groupIDs g (mem_values_of_lookup hg) group
          (mem_values_of_lookup hgr) (hid.trans heq)
        rw [← key_of_lookup hg, this] at hne
        exact hne (key_of_lookup hgr)
      have hmm : m.group ≠ name := by
        rw [show m.group = a.viaGroup from congrArg Prod.fst (key_of_lookup hm)]
        exact hne
      refine ⟨b, mem_values_restrict.mpr ⟨hb, by simp [hot]⟩, role, hrl,
        .inr ⟨hkn, ⟨m, lookup_restrict_eq_some.mpr ⟨hm, by simpa using hmm⟩⟩, g, ?_,
          hid⟩, ha⟩
      rw [lookup_erase, if_neg hne]
      exact hg

theorem held_deleteSubject (h : s.Integrity) (hok : s.deleteSubject name = .ok s')
    (hsb : subject ∈ s.subjects.values) (hne : subject.name ≠ name) :
    Held s' subject a ↔ Held s subject a := by
  obtain ⟨deleted, hrow, -, rfl⟩ := deleteSubject_ok hok
  have hid : subject.id ≠ deleted.id := by
    intro heq
    rw [h.subjectIDs subject hsb deleted (mem_values_of_lookup hrow) heq] at hne
    exact hne (key_of_lookup hrow)
  have hmm : ∀ via, (s.members.restrict (·.subject ≠ name)).Has (via, subject.name) ↔
      s.members.Has (via, subject.name) := by
    intro via
    refine exists_congr fun m => ?_
    rw [lookup_restrict_eq_some]
    refine and_iff_left_of_imp fun hm => ?_
    rw [show m.subject = subject.name from congrArg Prod.snd (key_of_lookup hm)]
    simpa using hne
  unfold Held Reaches
  simp only [hmm]
  refine exists_congr fun b => ?_
  rw [mem_values_restrict]
  constructor
  · rintro ⟨⟨hb, -⟩, hrs⟩
    exact ⟨hb, hrs⟩
  · rintro ⟨hb, role, hrl, hrc, ha⟩
    refine ⟨⟨hb, ?_⟩, role, hrl, hrc, ha⟩
    rcases hrc with ⟨hkn, hbid, -⟩ | ⟨hkn, -⟩
    · simp [hbid, hid]
    · simp [hkn]

theorem Sound.change (h : Sound s) {change : Change} (hok : s.apply quote change.op = .ok s') :
    Sound s' := by
  refine ⟨h.integrity.apply hok, ?_⟩
  suffices hsub : ∀ g ∈ s'.groups.values, g ∈ s.groups.values from
    fun g hg g' hg' => h.groupIDs g (hsub g hg) g' (hsub g' hg')
  cases change with
  | deleteBinding id =>
    obtain rfl := deleteBinding_ok hok
    exact fun g hg => hg
  | deleteRole name =>
    obtain rfl := deleteRole_ok hok
    exact fun g hg => hg
  | removeGroupMember group subject =>
    obtain ⟨-, rfl⟩ := removeGroupMember_ok hok
    exact fun g hg => hg
  | deleteGroup name =>
    obtain ⟨group, -, rfl⟩ := deleteGroup_ok hok
    exact fun g hg => (mem_values_erase.mp hg).2
  | disableSubject name =>
    obtain ⟨subject, -, rfl⟩ := setSubjectDisabled_ok hok
    exact fun g hg => hg
  | deleteSubject name =>
    obtain ⟨subject, -, -, rfl⟩ := deleteSubject_ok hok
    exact fun g hg => hg

theorem mem_enabled_change {change : Change} (hok : s.apply quote change.op = .ok s') :
    subject ∈ enabled s' ↔
      subject ∈ enabled s ∧ ∀ bindings, (change.simulate subject.name bindings).isSome = true := by
  rw [mem_enabled, mem_enabled]
  cases change with
  | deleteBinding id =>
    obtain rfl := deleteBinding_ok hok
    simp [Change.simulate]
  | deleteRole name =>
    obtain rfl := deleteRole_ok hok
    simp [Change.simulate]
  | removeGroupMember group member =>
    obtain ⟨-, rfl⟩ := removeGroupMember_ok hok
    simp [Change.simulate]
  | deleteGroup name =>
    obtain ⟨group, -, rfl⟩ := deleteGroup_ok hok
    simp [Change.simulate]
  | disableSubject name =>
    obtain ⟨row, hrow, rfl⟩ := setSubjectDisabled_ok hok
    have hnm : row.name = name := key_of_lookup hrow
    rw [mem_values_insert]
    constructor
    · rintro ⟨rfl | ⟨hne, hsb⟩, hen⟩
      · cases hen
      · have hne : subject.name ≠ name := fun heq => hne (heq.trans hnm.symm)
        exact ⟨⟨hsb, hen⟩, fun bindings => by simp [Change.simulate, hne]⟩
    · rintro ⟨⟨hsb, hen⟩, hkp⟩
      have hne : subject.name ≠ name := by
        intro heq
        simpa [Change.simulate, heq] using hkp []
      exact ⟨.inr ⟨fun heq => hne (heq.trans hnm), hsb⟩, hen⟩
  | deleteSubject name =>
    obtain ⟨row, -, -, rfl⟩ := deleteSubject_ok hok
    rw [mem_values_erase]
    constructor
    · rintro ⟨⟨hne, hsb⟩, hen⟩
      exact ⟨⟨hsb, hen⟩, fun bindings => by simp [Change.simulate, hne]⟩
    · rintro ⟨⟨hsb, hen⟩, hkp⟩
      have hne : subject.name ≠ name := by
        intro heq
        simpa [Change.simulate, heq] using hkp []
      exact ⟨⟨hne, hsb⟩, hen⟩

theorem Sound.simulate_heldBy (h : Sound s) {change : Change}
    (hok : s.apply quote change.op = .ok s') (hsb : subject ∈ enabled s') :
    change.simulate subject.name (heldBy s subject) = some (heldBy s' subject) := by
  have h' := h.change hok
  obtain ⟨hbf, hkp⟩ := (mem_enabled_change hok).mp hsb
  cases change with
  | deleteBinding id =>
    exact congrArg some (h.heldBy_without h' fun _ => held_deleteBinding hok).symm
  | deleteRole name =>
    exact congrArg some (h.heldBy_without h' fun _ => held_deleteRole hok).symm
  | removeGroupMember group member =>
    have hhl : ∀ a, Held s' subject a ↔
        Held s subject a ∧ ¬(subject.name = member ∧ a.viaGroup = group) :=
      fun _ => held_removeGroupMember h.integrity hok
    refine congrArg some ?_
    split_ifs with hmm
    · exact (h.heldBy_without h' fun a => by simp [hhl, hmm]).symm
    · exact (h.heldBy_same h' fun a => by simp [hhl, hmm]).symm
  | deleteGroup name =>
    exact congrArg some (h.heldBy_without h' fun _ => held_deleteGroup h hok).symm
  | disableSubject name =>
    have hne : subject.name ≠ name := by
      intro heq
      simpa [Change.simulate, heq] using hkp []
    obtain ⟨row, -, rfl⟩ := setSubjectDisabled_ok hok
    rw [Change.simulate, if_neg hne]
    exact congrArg some (h.heldBy_same h' fun a => held_congr rfl rfl (fun _ _ => .rfl) a).symm
  | deleteSubject name =>
    have hne : subject.name ≠ name := by
      intro heq
      simpa [Change.simulate, heq] using hkp []
    rw [Change.simulate, if_neg hne]
    exact congrArg some (h.heldBy_same h' fun a =>
      held_deleteSubject h.integrity hok (mem_enabled.mp hbf).1 hne).symm

/-- **The lockout check is exact.** In every state of the store in which groups do not share
identifiers, the check on the simulated lists passes exactly when some subject enabled after the
change holds role:write at the system scope, and the list simulated for each such subject is the one
fetched after the change. -/
theorem ensureAdminRemains_exact (quote : String → String) (ops : List Identity.Op)
    (change : Change) {s' : Identity} (hgroups : UniqueGroupIDs (Identity.new.run quote ops))
    (hok : (Identity.new.run quote ops).apply quote change.op = .ok s') :
    (∃ after, simulated (Identity.new.run quote ops) change = .ok after ∧
      (ensureAdminRemains after = .ok () ↔
        ∃ subject ∈ enabled s', ∃ bindings, fetchBindings s' subject.name = .ok bindings ∧
          adminGrant bindings = true)) ∧
      ∀ subject ∈ enabled s', ∃ before after,
        fetchBindings (Identity.new.run quote ops) subject.name = .ok before ∧
        change.simulate subject.name before = some after ∧
        fetchBindings s' subject.name = .ok after := by
  set s := Identity.new.run quote ops
  have h : Sound s := ⟨integrity_new.run ops, hgroups⟩
  have haf : ∀ subject ∈ enabled s', fetchBindings s' subject.name = .ok (heldBy s' subject) :=
    fun subject hsb =>
      fetchBindings_eq (mem_enabled.mp hsb).1 (mem_enabled.mp hsb).2
  refine ⟨⟨_, simulated_eq s change, ?_⟩, fun subject hsb => ?_⟩
  · rw [Authz.ensureAdminRemains_eq_ok]
    constructor
    · rintro ⟨bindings, hbn, had⟩
      obtain ⟨subject, hsb, hsim⟩ := mem_filterMap.mp hbn
      have hsb' : subject ∈ enabled s' := by
        refine (mem_enabled_change hok).mpr ⟨hsb, fun bindings' => ?_⟩
        exact change.simulate_isSome hsim bindings'
      rw [h.simulate_heldBy hok hsb'] at hsim
      obtain rfl := Option.some.inj hsim
      exact ⟨subject, hsb', _, haf subject hsb', had⟩
    · rintro ⟨subject, hsb, bindings, hft, had⟩
      rw [haf subject hsb] at hft
      obtain rfl := Except.ok.inj hft
      refine ⟨heldBy s' subject, mem_filterMap.mpr ⟨subject, ?_, ?_⟩, had⟩
      · exact ((mem_enabled_change hok).mp hsb).1
      · exact h.simulate_heldBy hok hsb
  · obtain ⟨hrow, hen⟩ := mem_enabled.mp ((mem_enabled_change hok).mp hsb).1
    exact ⟨heldBy s subject, heldBy s' subject, fetchBindings_eq hrow hen,
      h.simulate_heldBy hok hsb, haf subject hsb⟩

def twoAdmins : List Identity.Op := [
  .putBuiltinRole ⟨"admin", true, ["role:write"]⟩,
  .createSubject ⟨"s1", .user, "ada", false, 0⟩,
  .createSubject ⟨"s2", .user, "bob", false, 0⟩,
  .createGroup ⟨"g1", "operators", 0⟩,
  .addGroupMember "operators" "bob",
  .createBinding ⟨"b1", .subject, "s1", "admin", "system", 0⟩,
  .createBinding ⟨"b2", .group, "g1", "admin", "system", 0⟩]

theorem ensureAdminRemains_exact_twoAdmins :
    UniqueGroupIDs (Identity.new.run id twoAdmins) ∧
      ∃ s', (Identity.new.run id twoAdmins).apply id
          (Change.removeGroupMember "operators" "bob").op = .ok s' ∧
        ∃ after, simulated (Identity.new.run id twoAdmins)
            (.removeGroupMember "operators" "bob") = .ok after ∧
          (ensureAdminRemains after = .ok () ↔
            ∃ subject ∈ enabled s', ∃ bindings, fetchBindings s' subject.name = .ok bindings ∧
              adminGrant bindings = true) := by
  have hgr : UniqueGroupIDs (Identity.new.run id twoAdmins) := by decide +kernel
  have hok : ((Identity.new.run id twoAdmins).apply id
      (Change.removeGroupMember "operators" "bob").op).isOk = true := by decide +kernel
  obtain ⟨s', hs'⟩ := isOk_iff.mp hok
  exact ⟨hgr, s', hs', (ensureAdminRemains_exact id twoAdmins _ hgr hs').1⟩

/-! ## Access -/

theorem fetchBindings_lookup (hrow : s.subjects.lookup name = some subject) :
    fetchBindings s name = .ok (if subject.disabled then [] else heldBy s subject) := by
  cases hds : subject.disabled with
  | true =>
    unfold fetchBindings Identity.listEffectiveBindings
    simp only [hrow, hds, if_true]
    rfl
  | false =>
    obtain rfl := key_of_lookup hrow
    exact fetchBindings_eq (mem_values.mpr hrow) hds

/-- **Access.** In every state of the store in which groups do not share identifiers, a request in a
subject's name passes exactly when the subject is enabled, and a binding of its own, or of a group
it is a member of, gives it a role with the verb at a scope that matches. -/
theorem access_exact (quote : String → String) (ops : List Identity.Op)
    (hgroups : UniqueGroupIDs (Identity.new.run quote ops)) (name : String) (verb : Authz.Verb)
    (resource : Authz.Resource) :
    let s := Identity.new.run quote ops
    (∃ bindings, fetchBindings s name = .ok bindings ∧
        Authz.allows bindings verb resource = true) ↔
      verb.valid = true ∧ ∃ subject a, s.subjects.lookup name = some subject ∧
        subject.disabled = false ∧ Held s subject a ∧ verb ∈ a.verbs ∧
        Authz.Scope.matches a.scope resource = true := by
  intro s
  have h : Sound s := ⟨integrity_new.run ops, hgroups⟩
  simp only [Authz.allows, Authz.decide_allowed, Bool.and_eq_true, any_eq_true,
    Authz.allows_iff, ← h.mem_heldBy]
  constructor
  · rintro ⟨bindings, hft, hvr, a, ha, hal⟩
    cases hrow : s.subjects.lookup name with
    | none => simp [fetchBindings, Identity.listEffectiveBindings, hrow] at hft
    | some subject =>
      rw [fetchBindings_lookup hrow] at hft
      cases hft
      cases hds : subject.disabled with
      | true => simp [hds] at ha
      | false => exact ⟨hvr, subject, a, rfl, hds, by simpa [hds] using ha, hal⟩
  · rintro ⟨hvr, subject, a, hrow, hds, ha, hal⟩
    exact ⟨_, fetchBindings_lookup hrow, hvr, a, by simpa [hds] using ha, hal⟩

theorem access_exact_viaGroup :
    UniqueGroupIDs (Identity.new.run id twoAdmins) ∧ ∃ subject a,
      Held (Identity.new.run id twoAdmins) subject a ∧ Authz.Verb.roleWrite ∈ a.verbs := by
  have hgr : UniqueGroupIDs (Identity.new.run id twoAdmins) := by decide +kernel
  have hft : fetchBindings (Identity.new.run id twoAdmins) "bob" =
      .ok [⟨"b2", "admin", "system", [.roleWrite], "operators"⟩] := by decide +kernel
  obtain ⟨-, subject, a, -, -, hhl, hvr, -⟩ :=
    (access_exact id twoAdmins hgr "bob" .roleWrite .system).mp ⟨_, hft, by decide⟩
  exact ⟨hgr, subject, a, hhl, hvr⟩

end Trove.Server
