import Trove.Groupserve.Serve
import Trove.Repo.Resolve

/-!
# What a group answers

A group read over hosted and proxy members is decided by one member: the visible member with the
smallest position that would serve, or that would fail and is required. `resolve_eq` says so of the
whole chain of filtering, asking, filling in and resolving.
-/

namespace Trove.Groupserve

open Lib List Function

/-! ## What a member would answer -/

/-- What a delegate answers. -/
inductive Answer (γ : Type)
  | served (content : γ)
  | notFound
  | failed

def Answer.outcome {γ : Type} : Answer γ → Repo.MemberOutcome
  | .served _ => .served
  | .notFound => .notFound
  | .failed => .down

/-- What it serves. -/
def Answer.content? {γ : Type} : Answer γ → Option γ
  | .served content => some content
  | _ => none

section Answer

variable {γ : Type} (s : Server) (attempt : Ask γ)

/-- What asking the member would give. A member nothing serves fails. -/
def Server.answer (m : Repo.MemberState) : Answer γ :=
  match s.delegateFor m with
  | .error _ => .failed
  | .ok delegate =>
    match attempt delegate m.content with
    | .ok content => .served content
    | .error .contentUnknown => .notFound
    | .error (.other _) => .failed

def Server.answered (m : Repo.MemberState) : Repo.MemberState :=
  { m with outcome := (s.answer attempt m).outcome }

def Server.Decides (m : Repo.MemberState) : Prop :=
  (∃ content, s.answer attempt m = .served content) ∨
    (s.answer attempt m = .failed ∧ m.required)

variable {s attempt}

variable {m : Repo.MemberState}

theorem delegateFor_error {outcome : Repo.MemberOutcome} (h : s.delegateFor m = .error outcome) :
    outcome = .down := by
  rw [Server.delegateFor] at h
  cases hosted : s.hosted <;> cases proxy : s.proxy <;> cases type : m.type <;>
    simp_all

theorem askFrom_cons_served {content : γ} (h : s.answer attempt m = .served content)
    (asked : Asked γ) (ms : List Repo.MemberState) :
    s.askFrom attempt asked (m :: ms) =
      (update asked.1 m.repository (some (s.answer attempt m).outcome), some content) := by
  rw [Server.askFrom, h]
  rw [Server.answer] at h
  cases hdl : s.delegateFor m with
  | error outcome => simp [hdl] at h
  | ok delegate =>
    rw [hdl] at h
    simp only at h ⊢
    split at h
    · rename_i hat
      cases h
      rw [hat]
      rfl
    · cases h
    · cases h

theorem askFrom_cons_passed (h : (s.answer attempt m).content? = none) (asked : Asked γ)
    (ms : List Repo.MemberState) :
    s.askFrom attempt asked (m :: ms) =
      s.askFrom attempt
        (update asked.1 m.repository (some (s.answer attempt m).outcome), asked.2) ms := by
  rw [Server.askFrom]
  rw [Server.answer] at h ⊢
  cases hdl : s.delegateFor m with
  | error outcome =>
    rw [delegateFor_error hdl]
    rfl
  | ok delegate =>
    rw [hdl] at h
    simp only at h ⊢
    cases hat : attempt delegate m.content with
    | ok content => simp [hat, Answer.content?] at h
    | error err => cases err <;> rfl

theorem served_or_passed (answer : Answer γ) :
    (∃ content, answer = .served content) ∨ answer.content? = none := by
  cases answer with
  | served content => exact .inl ⟨content, rfl⟩
  | notFound | failed => exact .inr rfl

theorem decides_answered_iff : (s.answered attempt m).decides ↔ s.Decides attempt m := by
  rw [Repo.MemberState.decides, Repo.MemberState.failed, Server.answered, Server.Decides]
  cases s.answer attempt m <;> simp [Answer.outcome]

end Answer

/-! ## Asking -/

section Asking

variable {γ : Type} {s : Server} {attempt : Ask γ}

variable {members : List Repo.MemberState}

theorem askFrom_frame {n : String} (hn : n ∉ members.map Repo.MemberState.repository)
    (asked : Asked γ) : (s.askFrom attempt asked members).1 n = asked.1 n := by
  induction members generalizing asked with
  | nil => rfl
  | cons m ms ih =>
    rw [map_cons, mem_cons, not_or] at hn
    rcases served_or_passed (s.answer attempt m) with ⟨content, h⟩ | h
    · rw [askFrom_cons_served h]
      exact update_of_ne hn.1 _ _
    · rw [askFrom_cons_passed h, ih hn.2]
      exact update_of_ne hn.1 _ _

theorem fill_askFrom_cons {m : Repo.MemberState} {ms : List Repo.MemberState}
    (hm : m.repository ∉ ms.map Repo.MemberState.repository) (asked : Asked γ) :
    m.fill (s.askFrom attempt asked (m :: ms)).1 = s.answered attempt m := by
  have hot : (s.askFrom attempt asked (m :: ms)).1 m.repository =
      some (s.answer attempt m).outcome := by
    rcases served_or_passed (s.answer attempt m) with ⟨content, h⟩ | h
    · rw [askFrom_cons_served h]
      exact update_self ..
    · rw [askFrom_cons_passed h, askFrom_frame hm]
      exact update_self ..
  rw [Repo.MemberState.fill, hot, Server.answered]

/-- Resolving the outcomes of members asked one by one, until one serves, is resolving what every
one of them would answer. -/
theorem resolveFrom_askFrom (hnm : (members.map Repo.MemberState.repository).Nodup)
    (asked : Asked γ) (r : Repo.Resolution) :
    Repo.resolveFrom r
        (members.map (Repo.MemberState.fill (s.askFrom attempt asked members).1)) =
      Repo.resolveFrom r (members.map (s.answered attempt)) := by
  induction members generalizing asked r with
  | nil => rfl
  | cons m ms ih =>
    rw [map_cons, nodup_cons] at hnm
    rw [map_cons, map_cons, fill_askFrom_cons hnm.1]
    rcases served_or_passed (s.answer attempt m) with ⟨content, h⟩ | h
    · exact Repo.resolveFrom_served (by simp [Server.answered, h, Answer.outcome]) _ _ _
    · rw [askFrom_cons_passed h]
      exact Repo.resolveFrom_cons_congr _ (ih hnm.2 _) r

theorem askFrom_served (members : List Repo.MemberState) (asked : Asked γ) :
    (s.askFrom attempt asked members).2 =
      (members.findSome? fun m => (s.answer attempt m).content?).or asked.2 := by
  induction members generalizing asked with
  | nil => rfl
  | cons m ms ih =>
    rw [List.findSome?_cons]
    rcases served_or_passed (s.answer attempt m) with ⟨content, h⟩ | h
    · rw [askFrom_cons_served h, h]
      rfl
    · rw [askFrom_cons_passed h, ih, h]

end Asking

/-! ## The verdict -/

section Verdict

variable {γ : Type} (s : Server) (attempt : Ask γ)

/-- The first visible member, in position order, that ends the resolution. -/
def Server.decider (visible : List Repo.MemberState) : Option Repo.MemberState :=
  (sortBy Repo.MemberState.position visible).find? fun m => (s.answered attempt m).decides

def Server.verdict (decider : Option Repo.MemberState) : Except ResolveError (Option γ) :=
  match decider with
  | none => .error .contentUnknown
  | some m =>
    match s.answer attempt m with
    | .served content => .ok (some content)
    | _ => .error .upstreamUnavailable

def Server.skips (visible : List Repo.MemberState) : List Repo.SkippedMember :=
  ((sortBy Repo.MemberState.position visible).takeWhile fun m =>
    !(s.answered attempt m).decides).filterMap fun m => (s.answered attempt m).skip

variable {s attempt} {visible : List Repo.MemberState}

theorem resolve_askMembers (h : Repo.Resolvable visible) (reference : String) :
    Repo.resolve ((Repo.MemberSet.mk visible).withOutcomes (s.askMembers attempt visible).1)
        reference =
      Repo.Resolution.conclude { reference := reference, skipped := s.skips attempt visible }
        ((s.decider attempt visible).map (s.answered attempt)) := by
  have hnm : ((sortBy Repo.MemberState.position visible).map
      Repo.MemberState.repository).Nodup :=
    ((perm_sortBy visible).map _).nodup_iff.mpr h.names
  rw [Repo.resolve_withOutcomes h, Server.askMembers, sortByPosition, resolveFrom_askFrom hnm,
    Repo.resolveFrom_eq]
  · rw [List.find?_map, takeWhile_map, filterMap_map]
    rfl
  · intro m hm
    obtain ⟨m, -, rfl⟩ := mem_map.mp hm
    rw [Server.answered]
    cases s.answer attempt m <;> simp [Answer.outcome]

theorem decider_eq_some (h : Repo.Resolvable visible) {m : Repo.MemberState} :
    s.decider attempt visible = some m ↔
      m ∈ visible ∧ s.Decides attempt m ∧
        ∀ d ∈ visible, s.Decides attempt d → m.position ≤ d.position := by
  rw [Server.decider, (increasing_sortBy h.positions).find?_eq_some]
  simp only [UpToFirst, mem_sortBy, decides_answered_iff]

theorem decider_eq_none :
    s.decider attempt visible = none ↔ ∀ m ∈ visible, ¬ s.Decides attempt m := by
  rw [Server.decider, List.find?_eq_none]
  simp only [mem_sortBy, decides_answered_iff]

theorem askMembers_served {m : Repo.MemberState} {content : γ}
    (h : s.decider attempt visible = some m) (hm : s.answer attempt m = .served content) :
    (s.askMembers attempt visible).2 = some content := by
  obtain ⟨-, before, after, hsp, hbf⟩ := List.find?_eq_some_iff_append.mp h
  have hnn : before.findSome? (fun m => (s.answer attempt m).content?) = none := by
    rw [List.findSome?_eq_none_iff]
    intro d hd
    rcases served_or_passed (s.answer attempt d) with hsr | hps
    · exact absurd (decides_answered_iff.mpr (.inl hsr)) (by simpa using hbf d hd)
    · exact hps
  rw [Server.askMembers, sortByPosition, askFrom_served, hsp, List.findSome?_append, hnn,
    Option.none_or, List.findSome?_cons, hm]
  rfl

theorem response_askMembers (h : Repo.Resolvable visible) (name reference : String)
    (events : List SkipEvent) :
    Run.response
        ⟨resultOf name (Repo.resolve ((Repo.MemberSet.mk visible).withOutcomes
          (s.askMembers attempt visible).1) reference), (s.askMembers attempt visible).2, events⟩ =
      s.verdict attempt (s.decider attempt visible) := by
  rw [resolve_askMembers h]
  cases hdc : s.decider attempt visible with
  | none => rfl
  | some m =>
    have hdd := ((decider_eq_some h).mp hdc).2.1
    rw [Server.verdict]
    rcases hdd with ⟨content, hm⟩ | ⟨hm, hrq⟩
    · rw [askMembers_served hdc hm, hm, Option.map_some, Repo.Resolution.conclude, if_pos]
      · rfl
      · simp [Server.answered, hm, Answer.outcome]
    · rw [hm, Option.map_some, Repo.Resolution.conclude, if_neg]
      · rfl
      · simp [Server.answered, hm, Answer.outcome]

end Verdict

/-! ## The whole read -/

/-- A read of `name` through a group: the rows and the subject's bindings can be read, and the rows
are hosted or proxy entities with distinct names and positions. -/
structure GroupRead (s : Server) (subject name group remainder : String) (rows : List GroupMember)
    (bindings : List Authz.Binding) : Prop where
  splits : Repo.split name = .ok (group, remainder)
  isGroup : ∃ record, s.getRepository group = .ok record ∧ record.type = .group
  lists : s.listGroupMembers group = .ok rows
  binds : s.fetchBindings subject = .ok bindings
  entity : ∀ row ∈ rows, Repo.validateEntityName row.repository = .ok ()
  member : ∀ row ∈ rows, ∃ record, s.getRepository row.repository = .ok record ∧
    record.type ≠ .group
  names : (rows.map GroupMember.repository).Nodup
  positions : (rows.map GroupMember.position).Nodup

/-- The member a row is; one whose entity cannot be read counts as hosted, which no read gets to
see. -/
def Server.memberOf (s : Server) (remainder : String) (row : GroupMember) : Repo.MemberState where
  repository := row.repository
  content := contentNameFor row.repository remainder
  type := ((s.getRepository row.repository).toOption.map Meta.Repository.type).getD .hosted
  position := row.position
  required := row.required
  outcome := .unasked

section Read

variable {γ : Type} {s : Server} {subject name group remainder : String} {rows : List GroupMember}
  {bindings : List Authz.Binding}

def Server.visible (s : Server) (bindings : List Authz.Binding) (remainder : String)
    (rows : List GroupMember) : List Repo.MemberState :=
  (rows.map (s.memberOf remainder)).filter (Repo.readable bindings)

theorem candidate_eq_ok {row : GroupMember} {record : Meta.Repository}
    (h : s.getRepository row.repository = .ok record) (remainder : String) :
    s.candidate remainder row = .ok (s.memberOf remainder row) := by
  rw [Server.candidate, Server.typeOf, h, Server.memberOf, h]
  rfl

theorem visibleMembers_eq_ok (hbn : s.fetchBindings subject = .ok bindings)
    (hmm : ∀ row ∈ rows, ∃ record, s.getRepository row.repository = .ok record)
    (remainder : String) :
    s.visibleMembers (some subject) rows remainder =
      .ok ⟨s.visible bindings remainder rows⟩ := by
  have hcn : rows.mapM (s.candidate remainder) =
      .ok (rows.map (s.memberOf remainder)) := by
    rw [mapM_eq_ok, List.forall₂_map_right_iff]
    refine List.forall₂_same.mpr fun row hrow => ?_
    obtain ⟨record, hrc⟩ := hmm row hrow
    exact candidate_eq_ok hrc remainder
  rw [Server.visibleMembers, hbn, hcn]
  rfl

section

variable (h : GroupRead s subject name group remainder rows bindings)
include h

theorem GroupRead.visibleMembers_eq : s.visibleMembers (some subject) rows remainder =
      .ok ⟨s.visible bindings remainder rows⟩ :=
  visibleMembers_eq_ok h.binds (fun row hrow => (h.member row hrow).imp fun _ hr => hr.1) remainder

theorem GroupRead.resolvable : Repo.Resolvable (s.visible bindings remainder rows) := by
  refine Repo.Resolvable.filter ⟨?_, ?_, ?_, ?_⟩ _
  · intro m hm
    obtain ⟨row, hrow, rfl⟩ := mem_map.mp hm
    exact h.entity row hrow
  · intro m hm
    obtain ⟨row, hrow, rfl⟩ := mem_map.mp hm
    obtain ⟨record, hrc, hty⟩ := h.member row hrow
    simpa [Server.memberOf, hrc, Except.toOption] using hty
  · rw [map_map]
    exact h.names
  · rw [map_map]
    exact h.positions

/-- **The whole read.** Filtering, asking, filling in and resolving give the verdict of the deciding
member, and one event for each member skipped before it. -/
theorem GroupRead.resolve_eq (attempt : Ask γ) (reference : String) :
    (s.resolve (some subject) name reference attempt).response =
        s.verdict attempt (s.decider attempt (s.visible bindings remainder rows)) ∧
      (s.resolve (some subject) name reference attempt).events =
        if s.publishes then
          (s.skips attempt (s.visible bindings remainder rows)).map fun m =>
            ⟨name, m.repository, reference, m.reason⟩
        else [] := by
  obtain ⟨record, hrc, hty⟩ := h.isGroup
  rw [Server.resolve, h.splits]
  simp only [hrc, hty, ne_eq, not_true_eq_false, if_false, h.lists, h.visibleMembers_eq]
  refine ⟨response_askMembers h.resolvable name reference _, ?_⟩
  rw [Server.publishSkips, resolve_askMembers h.resolvable, Repo.conclude_skipped,
    Repo.conclude_reference]

end

variable {attempt : Ask γ} {visible : List Repo.MemberState}

section

variable (hrs : Repo.Resolvable visible)
include hrs

theorem verdict_of_not_served
    (hsr : ∀ m ∈ visible, ∀ content, s.answer attempt m ≠ .served content) :
    (s.verdict attempt (s.decider attempt visible) = .error .upstreamUnavailable ∧
        ∃ m ∈ visible, s.answer attempt m = .failed ∧ m.required) ∨
      (s.verdict attempt (s.decider attempt visible) = .error .contentUnknown ∧
        ∀ m ∈ visible, s.answer attempt m = .failed → m.required = false) := by
  cases hdc : s.decider attempt visible with
  | none =>
    refine .inr ⟨rfl, fun m hm hfl => ?_⟩
    have hnot := decider_eq_none.mp hdc m hm
    cases hrq : m.required with
    | false => rfl
    | true => exact absurd (.inr ⟨hfl, hrq⟩) hnot
  | some m =>
    obtain ⟨hm, hdd, -⟩ := (decider_eq_some hrs).mp hdc
    rcases hdd with ⟨content, hcn⟩ | hfl
    · exact absurd hcn (hsr m hm content)
    · refine .inl ⟨?_, m, hm, hfl⟩
      rw [Server.verdict, hfl.1]

variable {m : Repo.MemberState}

theorem verdict_of_required_failed (hm : m ∈ visible) (hrq : m.required)
    (hfl : s.answer attempt m = .failed) (hbf : ∀ d ∈ visible, d.position < m.position → ∀ content,
      s.answer attempt d ≠ .served content) :
    s.verdict attempt (s.decider attempt visible) = .error .upstreamUnavailable := by
  cases hdc : s.decider attempt visible with
  | none => exact absurd (.inr ⟨hfl, hrq⟩) (decider_eq_none.mp hdc m hm)
  | some d =>
    obtain ⟨hd, hdd, hfr⟩ := (decider_eq_some hrs).mp hdc
    rw [Server.verdict]
    rcases hdd with ⟨content, hcn⟩ | ⟨hdf, -⟩
    · rcases (hfr m hm (.inr ⟨hfl, hrq⟩)).lt_or_eq with hlt | heq
      · exact absurd hcn (hbf d hd hlt content)
      · have hsm : d = m := inj_on_of_nodup_map hrs.positions hd hm heq
        rw [hsm, hfl] at hcn
        cases hcn
    · rw [hdf]

theorem verdict_of_served (hm : m ∈ visible) {content : γ}
    (hsr : s.answer attempt m = .served content) (hbf : ∀ d ∈ visible, d.position < m.position →
      s.answer attempt d = .notFound ∨ s.answer attempt d = .failed ∧ d.required = false) :
    s.verdict attempt (s.decider attempt visible) = .ok (some content) := by
  have hdc : s.decider attempt visible = some m := by
    refine (decider_eq_some hrs).mpr ⟨hm, .inl ⟨content, hsr⟩, fun d hd hdd => ?_⟩
    by_contra hlt
    rcases hbf d hd (not_le.mp hlt) with hps | ⟨hps, hot⟩ <;>
      simp [Server.Decides, hps] at hdd
    simp [hot] at hdd
  rw [hdc, Server.verdict, hsr]

/-- Neither the order of the members nor what anybody after the deciding member would answer has a
part in the verdict or in the skips. -/
theorem verdict_congr {t : Server} {visible' : List Repo.MemberState} (hpr : visible.Perm visible')
    (hag : ∀ m ∈ visible, (∀ d ∈ visible, s.Decides attempt d → m.position ≤ d.position) →
      t.answer attempt m = s.answer attempt m) :
    t.verdict attempt (t.decider attempt visible') =
        s.verdict attempt (s.decider attempt visible) ∧
      t.skips attempt visible' = s.skips attempt visible := by
  have hsr := sortBy_eq_of_perm hrs.positions hpr
  have hin := increasing_sortBy hrs.positions
  have han : ∀ m ∈ sortBy Repo.MemberState.position visible,
      UpToFirst Repo.MemberState.position (fun m => (s.answered attempt m).decides)
        (sortBy Repo.MemberState.position visible) m →
      t.answer attempt m = s.answer attempt m := by
    intro m hm hfr
    refine hag m (mem_sortBy.mp hm) fun d hd hdc => ?_
    exact hfr d (mem_sortBy.mpr hd) (decides_answered_iff.mpr hdc)
  obtain ⟨hfn, htk⟩ := hin.first_congr
    (p := fun m => (s.answered attempt m).decides) (q := fun m => (t.answered attempt m).decides)
    fun m hm hfr => by simp only [Server.answered, han m hm hfr]
  have hdd : t.decider attempt visible' = s.decider attempt visible := by
    rw [Server.decider, Server.decider, ← hsr, hfn]
  constructor
  · rw [hdd]
    cases hd : s.decider attempt visible with
    | none => rfl
    | some m =>
      obtain ⟨hm, -, hfr⟩ := hin.find?_eq_some.mp hd
      rw [Server.verdict, Server.verdict, han m hm hfr]
  · rw [Server.skips, Server.skips, ← hsr, ← htk]
    refine filterMap_congr fun m hm => ?_
    have hfr := hin.upToFirst_of_mem_takeWhile hm
    simp only [Server.answered, han m (takeWhile_subset _ hm) hfr]

end

theorem GroupRead.relist (h : GroupRead s subject name group remainder rows bindings)
    {rows' : List GroupMember} (hpr : rows.Perm rows')
    {list : String → Except StoreError (List GroupMember)} (hls : list group = .ok rows')
    (hosted proxy : Option ContentServer) :
    GroupRead { s with listGroupMembers := list, hosted := hosted, proxy := proxy } subject name
      group remainder rows' bindings where
  splits := h.splits
  isGroup := h.isGroup
  lists := hls
  binds := h.binds
  entity := fun row hrow => h.entity row (hpr.mem_iff.mpr hrow)
  member := fun row hrow => h.member row (hpr.mem_iff.mpr hrow)
  names := (hpr.map _).nodup_iff.mp h.names
  positions := (hpr.map _).nodup_iff.mp h.positions

/-- **Group resolution, end to end.** Over hosted and proxy members with distinct names and
positions:

* the content of a visible member is served when every visible member before it answers not-found,
  or fails without being required;
* a required visible member that fails before any serves makes the group unavailable;
* when no visible member serves, the group is unavailable if a required one failed, and the content
  is unknown otherwise;
* listing the rows in another order, and changing what members after the deciding one would answer,
  changes neither the response nor the events. -/
theorem group_resolution (h : GroupRead s subject name group remainder rows bindings)
    (attempt : Ask γ) (reference : String) :
    ∃ visible, s.visibleMembers (some subject) rows remainder = .ok visible ∧
      (∀ m ∈ visible.members, ∀ content, s.answer attempt m = .served content →
        (∀ d ∈ visible.members, d.position < m.position →
          s.answer attempt d = .notFound ∨ s.answer attempt d = .failed ∧ d.required = false) →
        (s.resolve (some subject) name reference attempt).response = .ok (some content)) ∧
      (∀ m ∈ visible.members, m.required → s.answer attempt m = .failed →
        (∀ d ∈ visible.members, d.position < m.position → ∀ content,
          s.answer attempt d ≠ .served content) →
        (s.resolve (some subject) name reference attempt).response =
          .error .upstreamUnavailable) ∧
      ((∀ m ∈ visible.members, ∀ content, s.answer attempt m ≠ .served content) →
        ((s.resolve (some subject) name reference attempt).response =
            .error .upstreamUnavailable ∧
          ∃ m ∈ visible.members, s.answer attempt m = .failed ∧ m.required) ∨
        ((s.resolve (some subject) name reference attempt).response = .error .contentUnknown ∧
          ∀ m ∈ visible.members, s.answer attempt m = .failed → m.required = false)) ∧
      ∀ rows' list hosted proxy, rows.Perm rows' → list group = .ok rows' →
        let s' : Server := { s with listGroupMembers := list, hosted := hosted, proxy := proxy }
        (∀ m ∈ visible.members,
          (∀ d ∈ visible.members, s.Decides attempt d → m.position ≤ d.position) →
          s'.answer attempt m = s.answer attempt m) →
        (s'.resolve (some subject) name reference attempt).response =
            (s.resolve (some subject) name reference attempt).response ∧
          (s'.resolve (some subject) name reference attempt).events =
            (s.resolve (some subject) name reference attempt).events := by
  have hrs := h.resolvable
  obtain ⟨hrp, hev⟩ := h.resolve_eq attempt reference
  refine ⟨⟨s.visible bindings remainder rows⟩, h.visibleMembers_eq, ?_, ?_, ?_, ?_⟩
  · intro m hm content hsr hbf
    rw [hrp, verdict_of_served hrs hm hsr hbf]
  · intro m hm hrq hfl hbf
    rw [hrp, verdict_of_required_failed hrs hm hrq hfl hbf]
  · intro hsr
    rw [hrp]
    exact verdict_of_not_served hrs hsr
  · intro rows' list hosted proxy hpr hls s' hag
    obtain ⟨hrp', hev'⟩ :=
      (h.relist hpr hls hosted proxy).resolve_eq attempt reference
    have hvs : (s.visible bindings remainder rows).Perm
        (s'.visible bindings remainder rows') := (hpr.map _).filter _
    obtain ⟨hvr, hsk⟩ := verdict_congr (t := s') hrs hvs hag
    exact ⟨by rw [hrp', hvr, hrp], by rw [hev', hsk, hev]⟩

end Read

def mirror : Server where
  getRepository := fun name =>
    if name = "all" then .ok ⟨name, .group, [], 1, 0, 0⟩
    else if name = "internal" then .ok ⟨name, .hosted, [], 1, 0, 0⟩
    else if name = "hub" then .ok ⟨name, .proxy, [], 1, 0, 0⟩
    else .error ⟨true, "not found"⟩
  listGroupMembers := fun _ => .ok [⟨"hub", 2, false⟩, ⟨"internal", 1, true⟩]
  fetchBindings := fun _ => .ok [⟨"b1", "reader", "*", [.repoRead], ""⟩]
  hosted := some ⟨fun _ _ => .error .contentUnknown, fun _ _ => .error .contentUnknown⟩
  proxy := some ⟨fun _ _ => .ok ⟨"sha256:1", "manifest", []⟩, fun _ _ => .error .contentUnknown⟩
  publishes := true

/-- The internal registry does not have the image, so the mirror's manifest is served. -/
theorem group_resolution_mirror :
    GroupRead mirror "ann" "all/nginx" "all" "nginx" [⟨"hub", 2, false⟩, ⟨"internal", 1, true⟩]
        [⟨"b1", "reader", "*", [.repoRead], ""⟩] ∧
      (mirror.manifest (some "ann") "all/nginx" "latest").1 =
        .ok (some ⟨"sha256:1", "manifest", []⟩) := by
  have hrd : GroupRead mirror "ann" "all/nginx" "all" "nginx"
      [⟨"hub", 2, false⟩, ⟨"internal", 1, true⟩] [⟨"b1", "reader", "*", [.repoRead], ""⟩] := by
    refine ⟨by decide, ⟨_, rfl, rfl⟩, rfl, rfl, by decide, ?_, by decide, by decide⟩
    intro row hrow
    simp only [mem_cons, not_mem_nil, or_false] at hrow
    rcases hrow with rfl | rfl <;> exact ⟨_, rfl, by decide⟩
  refine ⟨hrd, ?_⟩
  obtain ⟨visible, hvs, hsr, -⟩ := group_resolution hrd
    (fun member content => member.manifest content "latest") "latest"
  have hmm : mirror.visibleMembers (some "ann")
      [⟨"hub", 2, false⟩, ⟨"internal", 1, true⟩] "nginx" =
      .ok ⟨[⟨"hub", "hub/nginx", .proxy, 2, false, .unasked⟩,
        ⟨"internal", "internal/nginx", .hosted, 1, true, .unasked⟩]⟩ := by decide
  rw [hmm] at hvs
  cases hvs
  refine hsr ⟨"hub", "hub/nginx", .proxy, 2, false, .unasked⟩ (by simp) _ rfl ?_
  intro d hd hlt
  simp only [mem_cons, not_mem_nil, or_false] at hd
  rcases hd with rfl | rfl
  · exact absurd hlt (lt_irrefl _)
  · exact .inl rfl

end Trove.Groupserve
