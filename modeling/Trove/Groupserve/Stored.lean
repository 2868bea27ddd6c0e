import Trove.Groupserve.Resolution
import Trove.Meta.Lineage

/-!
# The groups the store holds

A group's member list is checked twice: when it is stored, against the rows of the store, and when
it is resolved, as a list of entities. Nothing refuses to store a list that names one repository at
two positions, and the resolution refuses it.
-/

namespace Trove.Meta.Memory

open Lib

variable {quote : String → String} {s s' : Memory}

theorem GroupsSound.run (ops : List Op) : (Memory.empty.run quote ops).GroupsSound :=
  run_invariant GroupsSound.empty (fun _ _ _ h => h.apply) ops

/-! ## The lists that were accepted -/

/-- `SetGroupMembers` accepted the list somewhere in the operations. -/
def Accepted (quote : String → String) (ops : List Op) (group : String)
    (members : List GroupMember) : Prop :=
  ∃ before after, ops = before ++ .setGroupMembers group members :: after ∧
    ((Memory.empty.run quote before).apply quote (.setGroupMembers group members)).isOk = true

theorem Accepted.append {ops : List Op} {group : String} {members : List GroupMember}
    (h : Accepted quote ops group members) (later : List Op) :
    Accepted quote (ops ++ later) group members := by
  obtain ⟨before, after, rfl, hok⟩ := h
  exact ⟨before, after ++ later, by simp, hok⟩

theorem members_sublist_accepted (quote : String → String) (ops : List Op) (group : String) :
    (Memory.empty.run quote ops).members group = [] ∨
      ∃ members, Accepted quote ops group members ∧
        ((Memory.empty.run quote ops).members group).Sublist
          (sortBy GroupMember.position members) := by
  induction ops using List.reverseRecOn with
  | nil => exact .inl rfl
  | append_singleton ops op ih =>
    replace ih := ih.imp_right fun ⟨members, hac, hsb⟩ =>
      (⟨members, hac.append [op], hsb⟩ : ∃ members,
        Accepted quote (ops ++ [op]) group members ∧ List.Sublist _ _)
    rw [run_concat]
    unfold Memory.after
    cases hok : (Memory.empty.run quote ops).apply quote op with
    | error err => exact ih
    | ok s' =>
      by_cases hop : op.OnContent
      · rw [(apply_onContent hop hok).2]
        exact ih
      cases op with
      | createRepository repo =>
        obtain ⟨r, -, rfl⟩ := map_eq_ok.mp (mapError_eq_ok.mp hok)
        exact ih
      | updateRepositoryConfig name config expectedVersion actor now =>
        obtain ⟨r, -, rfl⟩ := map_eq_ok.mp hok
        exact ih
      | deleteRepository name =>
        obtain ⟨-, rfl⟩ := deleteRepository_ok (mapError_eq_ok.mp hok)
        dsimp only [Memory.without]
        split_ifs
        · exact .inl rfl
        · rcases ih with hnil | ⟨members, hac, hsb⟩
          · exact .inl (by rw [hnil]; rfl)
          · exact .inr ⟨members, hac, List.filter_sublist.trans hsb⟩
      | setGroupMembers group' members =>
        obtain ⟨rfl, -⟩ := setGroupMembers_ok (mapError_eq_ok.mp hok)
        dsimp only
        by_cases hgr : group = group'
        · subst hgr
          rw [Function.update_self]
          exact .inr ⟨members, ⟨ops, [], rfl, by rw [hok]; rfl⟩, List.Sublist.refl _⟩
        · rw [Function.update_of_ne hgr]
          exact ih
      | _ => exact absurd trivial hop

end Trove.Meta.Memory

namespace Trove.Repo

open Lib

/-! ## Members that were not asked -/

variable {members : List MemberState}

theorem resolveFrom_ne_invalid
    (h : ∀ before m after, members = before ++ m :: after → m.outcome = .unasked →
      ∃ d ∈ before, d.decides = true) (r : Resolution) :
    (resolveFrom r members).outcome ≠ .invalid := by
  induction members generalizing r with
  | nil => simp [resolveFrom]
  | cons m ms ih =>
    have hrs : m.decides = false → ∀ r, (resolveFrom r ms).outcome ≠ .invalid := by
      intro hdc
      refine ih fun before u after hsp hun => ?_
      obtain ⟨d, hd, hd'⟩ := h (m :: before) u after (by rw [hsp]; rfl) hun
      rcases List.mem_cons.mp hd with rfl | hd
      · rw [hdc] at hd'
        cases hd'
      · exact ⟨d, hd, hd'⟩
    rw [resolveFrom]
    cases hot : m.outcome with
    | unasked =>
      obtain ⟨d, hd, -⟩ := h [] m ms rfl hot
      cases hd
    | served => simp
    | notFound => exact hrs (by simp [MemberState.decides, MemberState.failed, hot]) r
    | down | malformed =>
      split_ifs with hrq
      · simp
      · exact hrs (by simp [MemberState.decides, MemberState.failed, hot, hrq]) _

theorem resolve_ne_invalid (h : Resolvable members) (hak : ∀ m ∈ members, m.outcome = .unasked →
      ∃ d ∈ members, d.position < m.position ∧ d.decides = true) (reference : String) :
    (resolve ⟨members⟩ reference).outcome ≠ .invalid := by
  rw [resolve, orderMembers_eq_ok.mpr ⟨h, rfl⟩]
  refine resolveFrom_ne_invalid (fun before m after hsp hun => ?_) _
  have hmem : ∀ d, d ∈ members ↔ d ∈ before ++ m :: after := by
    intro d
    rw [← hsp, mem_sortBy]
  obtain ⟨d, hd, hlt, hdc⟩ := hak m ((hmem m).mpr (by simp)) hun
  refine ⟨d, ?_, hdc⟩
  -- what stands behind the member has a greater position
  have hin := increasing_sortBy h.positions
  rw [hsp] at hin
  rcases List.mem_append.mp ((hmem d).mp hd) with hbf | haf
  · exact hbf
  · rcases List.mem_cons.mp haf with rfl | haf
    · exact absurd hlt (lt_irrefl _)
    · have hgt := (List.pairwise_cons.mp (List.pairwise_append.mp hin).2.1).1 d haf
      exact absurd hlt (lt_asymm hgt)

end Trove.Repo

namespace Trove.Groupserve

open Lib Meta

variable {quote : String → String} {s : Memory}

/-! ## Serving over the store -/

def storeError (quote : String → String) (err : Meta.Error) : StoreError :=
  ⟨match err with
    | .notFound .. => true
    | _ => false, err.message quote⟩

def storedRow (m : Meta.GroupMember) : GroupMember := ⟨m.repository, m.position, m.required⟩

/-- It reads its groups from the store. -/
def Server.overStore (server : Server) (quote : String → String) (s : Memory) : Server :=
  { server with
    getRepository := fun name => (s.repositories.getRepository name).mapError (storeError quote)
    listGroupMembers := fun group =>
      ((s.listGroupMembers group).map (List.map storedRow)).mapError (storeError quote) }

/-- `Resolve` accepts the member list with any outcomes, and ends in a verdict when every member
nobody asked stands behind one that decides; and no request to a server over the store ends in the
failure of an invalid group. -/
structure Resolves (quote : String → String) (s : Memory) : Prop where
  accepted : ∀ group repo, s.hosted.repos.lookup group = some repo →
    ∃ rows, s.listGroupMembers group = .ok rows ∧
      ∀ (server : Server) (remainder : String), ∃ candidates,
        (rows.map storedRow).mapM ((server.overStore quote s).candidate remainder) =
          .ok candidates ∧
        ∀ outcomes : Repo.MemberState → Repo.MemberOutcome,
          let members := candidates.map fun m => { m with outcome := outcomes m }
          (Repo.orderMembers members).isOk = true ∧
            ((∀ m ∈ members, m.outcome = .unasked →
              ∃ d ∈ members, d.position < m.position ∧ d.decides = true) →
              ∀ reference, (Repo.resolve ⟨members⟩ reference).outcome ≠ .invalid)
  served : ∀ (server : Server) {γ : Type} (subject : Option String) (name reference : String)
    (attempt : Ask γ) (group : String) (err : Option Repo.GroupError),
    ((server.overStore quote s).resolve subject name reference attempt).response ≠
      .error (.invalidGroup group err)

variable {server : Server} {group : String}

variable {name : String} {repo : Repository} {γ : Type}

theorem overStore_getRepository (hrow : s.hosted.repos.lookup name = some repo) :
    (server.overStore quote s).getRepository name = .ok repo := by
  have hget : s.repositories.getRepository name = .ok repo := by
    rw [Repositories.getRepository, show s.repositories.repos.lookup name = _ from hrow]
  exact mapError_eq_ok.mpr hget

theorem candidates_resolvable (quote : String → String) (h : s.GroupsSound)
    (hen : ∀ m ∈ s.members group, Repo.validateEntityName m.repository = .ok ())
    (hnm : ((s.members group).map Meta.GroupMember.repository).Nodup) (server : Server)
    (remainder : String) :
    ((s.members group).map storedRow).mapM ((server.overStore quote s).candidate remainder) =
        .ok (((s.members group).map storedRow).map
          ((server.overStore quote s).memberOf remainder)) ∧
      Repo.Resolvable (((s.members group).map storedRow).map
        ((server.overStore quote s).memberOf remainder)) := by
  constructor
  · rw [mapM_eq_ok, List.forall₂_map_right_iff]
    refine List.forall₂_same.mpr fun row hrow => ?_
    obtain ⟨m, hm, rfl⟩ := List.mem_map.mp hrow
    obtain ⟨repo, hrp, -⟩ := h.member group m hm
    exact candidate_eq_ok (overStore_getRepository hrp) remainder
  · rw [List.map_map]
    refine ⟨?_, ?_, ?_, ?_⟩
    · intro state hst
      obtain ⟨m, hm, rfl⟩ := List.mem_map.mp hst
      exact hen m hm
    · intro state hst
      obtain ⟨m, hm, rfl⟩ := List.mem_map.mp hst
      obtain ⟨repo, hrp, hty⟩ := h.member group m hm
      have hget : (server.overStore quote s).getRepository (storedRow m).repository = .ok repo :=
        overStore_getRepository hrp
      simpa [Server.memberOf, hget, Except.toOption] using hty
    · rw [List.map_map]
      exact hnm
    · rw [List.map_map]
      exact h.positions group

theorem resolvable_with {members : List Repo.MemberState} (h : Repo.Resolvable members)
    (outcomes : Repo.MemberState → Repo.MemberOutcome) :
    Repo.Resolvable (members.map fun m => { m with outcome := outcomes m }) where
  entity := by simpa using h.entity
  notGroup := by simpa using h.notGroup
  names := by simpa [Function.comp_def] using h.names
  positions := by simpa [Function.comp_def] using h.positions

theorem verdict_ne_invalid {attempt : Ask γ} (decider : Option Repo.MemberState) (group : String)
    (err : Option Repo.GroupError) :
    server.verdict attempt decider ≠ .error (.invalidGroup group err) := by
  unfold Server.verdict
  repeat' split
  all_goals simp

theorem resolve_early {subject : Option String} {reference : String} {attempt : Ask γ}
    {err : Option Repo.GroupError} (h : (server.resolve subject name reference attempt).response =
      .error (.invalidGroup group err)) :
    ∃ entity remainder record rows caller bindings,
      Repo.split name = .ok (entity, remainder) ∧
      server.getRepository entity = .ok record ∧ record.type = .group ∧
      server.listGroupMembers entity = .ok rows ∧ subject = some caller ∧
      server.fetchBindings caller = .ok bindings := by
  unfold Server.resolve at h
  split at h
  · cases h
  rename_i entity remainder hsp
  split at h
  · split_ifs at h
    all_goals cases h
  rename_i record hrc
  split_ifs at h with hty
  · cases h
  split at h
  · cases h
  rename_i rows hrw
  cases subject with
  | none => cases h
  | some caller =>
    cases hbn : server.fetchBindings caller with
    | error text =>
      simp only [Server.visibleMembers, hbn] at h
      cases h
    | ok bindings =>
      exact ⟨entity, remainder, record, rows, caller, bindings, hsp, hrc,
        not_not.mp hty, hrw, rfl, hbn⟩

theorem resolves_of_names (h : s.GroupsSound)
    (hen : ∀ group, ∀ m ∈ s.members group, Repo.validateEntityName m.repository = .ok ())
    (hnm : ∀ group, ((s.members group).map Meta.GroupMember.repository).Nodup) :
    Resolves quote s where
  accepted := by
    intro group repo hrow
    refine ⟨s.members group, ?_, fun server remainder => ?_⟩
    · rw [Memory.listGroupMembers, hrow]
      rfl
    · obtain ⟨hcn, hrs⟩ :=
        candidates_resolvable quote h (hen group) (hnm group) server remainder
      refine ⟨_, hcn, fun outcomes => ⟨?_, fun hak reference => ?_⟩⟩
      · rw [Repo.orderMembers_eq_ok.mpr ⟨resolvable_with hrs outcomes, rfl⟩]
        rfl
      · exact Repo.resolve_ne_invalid (resolvable_with hrs outcomes) hak reference
  served := by
    intro server γ subject name reference attempt group err hin
    obtain ⟨entity, remainder, record, rows, caller, bindings, hsp, hrc, hty, hrw, rfl,
      hbn⟩ := resolve_early hin
    obtain ⟨stored, hst, rfl⟩ := map_eq_ok.mp (mapError_eq_ok.mp hrw)
    have hmm : stored = s.members entity := by
      unfold Memory.listGroupMembers at hst
      split_ifs at hst
      cases hst
      rfl
    subst hmm
    have hrd : GroupRead (server.overStore quote s) caller name entity remainder
        ((s.members entity).map storedRow) bindings := by
      refine ⟨hsp, ⟨record, hrc, hty⟩, hrw, hbn, ?_, ?_, ?_, ?_⟩
      · intro row hrow
        obtain ⟨m, hm, rfl⟩ := List.mem_map.mp hrow
        exact hen entity m hm
      · intro row hrow
        obtain ⟨m, hm, rfl⟩ := List.mem_map.mp hrow
        obtain ⟨repo, hrp, hty⟩ := h.member entity m hm
        exact ⟨repo, overStore_getRepository hrp, hty⟩
      · rw [List.map_map]
        exact hnm entity
      · rw [List.map_map]
        exact h.positions entity
    rw [(hrd.resolve_eq attempt reference).1] at hin
    exact verdict_ne_invalid _ _ _ hin

theorem candidates_repository {remainder : String} {rows : List GroupMember}
    {candidates : List Repo.MemberState}
    (h : rows.mapM (server.candidate remainder) = .ok candidates) :
    candidates.map Repo.MemberState.repository = rows.map GroupMember.repository := by
  rw [mapM_eq_ok] at h
  induction h with
  | nil => rfl
  | cons hrow _ ih =>
    obtain ⟨type, -, hst⟩ := bind_eq_ok.mp hrow
    cases hst
    rw [List.map_cons, List.map_cons, ih]

theorem Resolves.names (h : Resolves quote s) (hrow : s.hosted.repos.lookup group = some repo) :
    ((s.members group).map Meta.GroupMember.repository).Nodup := by
  obtain ⟨rows, hrw, hac⟩ := h.accepted group repo hrow
  rw [Memory.listGroupMembers, hrow] at hrw
  cases hrw
  obtain ⟨candidates, hcn, hor⟩ := hac
    ⟨fun _ => .error ⟨true, ""⟩, fun _ => .ok [], fun _ => .ok [], none, none, false⟩ ""
  obtain ⟨ordered, hor⟩ := isOk_iff.mp (hor fun _ => .notFound).1
  have hnm := (Repo.orderMembers_eq_ok.mp hor).1.names
  rw [List.map_map] at hnm
  have hsm := candidates_repository hcn
  rw [List.map_map] at hsm
  exact hsm ▸ hnm

/-- **Stored groups.** In a run whose accepted member lists have entity names, every group resolves
in every state reached if and only if no accepted list names a repository twice. -/
theorem stored_groups_resolve_iff (quote : String → String) (ops : List Memory.Op)
    (hentity : ∀ group members, Memory.Accepted quote ops group members →
      ∀ m ∈ members, Repo.validateEntityName m.repository = .ok ()) :
    (∀ reached later, ops = reached ++ later → Resolves quote (Memory.empty.run quote reached)) ↔
      ∀ group members, Memory.Accepted quote ops group members →
        (members.map Meta.GroupMember.repository).Nodup := by
  constructor
  · rintro hrs group members ⟨before, after, rfl, hok⟩
    obtain ⟨s', hs'⟩ := isOk_iff.mp hok
    have haf : Memory.empty.run quote (before ++ [.setGroupMembers group members]) = s' := by
      rw [Memory.run_concat, Memory.after, hs']
    have hgr := hrs (before ++ [.setGroupMembers group members]) after (by simp)
    rw [haf] at hgr
    obtain ⟨rfl, -, -, hes⟩ := Memory.setGroupMembers_ok (mapError_eq_ok.mp hs')
    obtain ⟨repo, hrow⟩ := Option.isSome_iff_exists.mp hes
    have hnm := hgr.names hrow
    dsimp only at hnm
    rwa [Function.update_self, ((perm_sortBy members).map _).nodup_iff] at hnm
  · rintro hnm reached later rfl
    refine resolves_of_names (.run reached) (fun group m hm => ?_) fun group => ?_
    · rcases Memory.members_sublist_accepted quote reached group with
        hnil | ⟨members, hac, hsb⟩
      · rw [hnil] at hm
        cases hm
      · exact hentity group members (hac.append later) m (mem_sortBy.mp (hsb.subset hm))
    · rcases Memory.members_sublist_accepted quote reached group with
        hnil | ⟨members, hac, hsb⟩
      · rw [hnil]
        exact List.nodup_nil
      · have hpr : (sortBy Meta.GroupMember.position members).Perm members := perm_sortBy members
        have hsr := (hpr.map Meta.GroupMember.repository).nodup_iff.mpr
          (hnm group members (hac.append later))
        exact hsr.sublist (hsb.map _)

def createMirror : List Memory.Op :=
  [.createRepository ⟨"all", .group, [], 0, 0, 0⟩, .createRepository ⟨"hub", .proxy, [], 0, 0, 0⟩,
    .createRepository ⟨"internal", .hosted, [], 0, 0, 0⟩]

/-- The group gets its members. -/
def storeGroup (members : List Meta.GroupMember) : List Memory.Op :=
  createMirror ++ [.setGroupMembers "all" members]

/-- The store accepts a list that names one member at two positions, and every request to the group
is then refused. -/
theorem stored_group_listedTwice :
    let members : List Meta.GroupMember := [⟨"hub", 1, false, false⟩, ⟨"hub", 2, false, false⟩]
    let s := Memory.empty.run id (storeGroup members)
    Memory.Accepted id (storeGroup members) "all" members ∧
      (∀ m ∈ members, Repo.validateEntityName m.repository = .ok ()) ∧
      ((mirror.overStore id s).manifest (some "ann") "all/nginx" "latest").1 =
        .error (.invalidGroup "all/nginx" (some ⟨"hub", .listedTwice⟩)) ∧
      ¬ Resolves id s := by
  intro members s
  have hin : ((mirror.overStore id s).manifest (some "ann") "all/nginx" "latest").1 =
      .error (.invalidGroup "all/nginx" (some ⟨"hub", .listedTwice⟩)) := by decide +kernel
  refine ⟨⟨createMirror, [], rfl, by decide +kernel⟩, by decide, hin, fun hrs => ?_⟩
  exact hrs.served mirror _ _ _ _ _ _ hin

theorem accepted_storeGroup {members members' : List Meta.GroupMember}
    (h : Memory.Accepted id (storeGroup members ++ [.deleteRepository "hub"]) group members') :
    members' = members := by
  obtain ⟨before, after, hsp, -⟩ := h
  have hmem : Memory.Op.setGroupMembers group members' ∈
      storeGroup members ++ [.deleteRepository "hub"] := by
    rw [hsp]
    simp
  simp only [storeGroup, createMirror, List.mem_append, List.mem_cons, List.not_mem_nil, or_false,
    reduceCtorEq, false_or, Memory.Op.setGroupMembers.injEq] at hmem
  exact hmem.2

/-- A group of two members, one of which is deleted later. -/
theorem stored_groups_resolve_mirror :
    let members : List Meta.GroupMember := [⟨"hub", 2, false, false⟩, ⟨"internal", 1, true, true⟩]
    Memory.Accepted id (storeGroup members ++ [.deleteRepository "hub"]) "all" members ∧
      ∀ reached later, storeGroup members ++ [.deleteRepository "hub"] = reached ++ later →
        Resolves id (Memory.empty.run id reached) := by
  intro members
  refine ⟨⟨createMirror, [.deleteRepository "hub"], rfl, by decide +kernel⟩, ?_⟩
  refine (stored_groups_resolve_iff id (storeGroup members ++ [.deleteRepository "hub"]) ?_).mpr ?_
  · intro group members' hac
    rw [accepted_storeGroup hac]
    decide
  · intro group members' hac
    rw [accepted_storeGroup hac]
    decide

end Trove.Groupserve
