import Trove.Groupserve.Resolution

/-!
# Members the subject may not read

A group read depends on the members the subject may read and on nothing else: the members are
filtered before anybody is asked, so what is left of two worlds that differ in any other members is
the same list, and the asking and the resolution run over that list.
-/

namespace Trove.Groupserve

open Lib List

/-- The subject reads `name` through a group of the server: the group, its rows, their entities and
the subject's bindings can be read, and the rows the subject may read are listed in resolution
order. -/
structure GroupView (s : Server) (subject name group remainder : String) (rows : List GroupMember)
    (bindings : List Authz.Binding) : Prop where
  splits : Repo.split name = .ok (group, remainder)
  isGroup : ∃ record, s.getRepository group = .ok record ∧ record.type = .group
  lists : s.listGroupMembers group = .ok rows
  binds : s.fetchBindings subject = .ok bindings
  member : ∀ row ∈ rows, ∃ record, s.getRepository row.repository = .ok record
  ordered : Increasing Repo.MemberState.position (s.visible bindings remainder rows)

/-- The member holds the same content in both worlds, or nobody can be asked for it in either. -/
def SameContent (s t : Server) (m : Repo.MemberState) : Prop :=
  match s.delegateFor m, t.delegateFor m with
  | .ok a, .ok b =>
    (∀ reference, a.manifest m.content reference = b.manifest m.content reference) ∧
      ∀ digest, a.blob m.content digest = b.blob m.content digest
  | .error a, .error b => a = b
  | _, _ => False

section Asking

variable {γ : Type} {s t : Server} {attempt : Ask γ}

/-- Both answer one read of the member alike. -/
def SameAnswer (s t : Server) (attempt : Ask γ) (m : Repo.MemberState) : Prop :=
  match s.delegateFor m, t.delegateFor m with
  | .ok a, .ok b => attempt a m.content = attempt b m.content
  | .error a, .error b => a = b
  | _, _ => False

theorem SameContent.manifest {m : Repo.MemberState} (h : SameContent s t m) (reference : String) :
    SameAnswer s t (fun member content => member.manifest content reference) m := by
  unfold SameContent at h
  unfold SameAnswer
  split at h
  · exact h.1 reference
  · exact h
  · exact h.elim

theorem SameContent.blob {m : Repo.MemberState} (h : SameContent s t m) (digest : String) :
    SameAnswer s t (fun member content => member.blob content digest) m := by
  unfold SameContent at h
  unfold SameAnswer
  split at h
  · exact h.2 digest
  · exact h
  · exact h.elim

theorem askFrom_congr {members : List Repo.MemberState}
    (h : ∀ m ∈ members, SameAnswer s t attempt m) (asked : Asked γ) :
    s.askFrom attempt asked members = t.askFrom attempt asked members := by
  induction members generalizing asked with
  | nil => rfl
  | cons m ms ih =>
    have hm := h m mem_cons_self
    have hms := fun asked => ih (fun d hd => h d (mem_cons_of_mem _ hd)) asked
    unfold SameAnswer at hm
    rw [Server.askFrom, Server.askFrom]
    split at hm
    · rename_i hs ht
      rw [hs, ht]
      simp only [hm]
      split
      · rfl
      · exact hms _
    · rename_i hs ht
      rw [hs, ht, hm]
      exact hms _
    · exact hm.elim

end Asking

section TwoWorlds

variable {γ : Type} {s t : Server} {subject name group remainder : String}
  {rows rows' : List GroupMember} {bindings : List Authz.Binding}

def Server.readVisible (s : Server) (name reference : String) (attempt : Ask γ)
    (visible : List Repo.MemberState) : Run γ :=
  let asked := s.askMembers attempt visible
  let resolution := Repo.resolve ((Repo.MemberSet.mk visible).withOutcomes asked.1) reference
  ⟨resultOf name resolution, asked.2, s.publishSkips name resolution⟩

theorem GroupView.resolve_eq (h : GroupView s subject name group remainder rows bindings)
    (attempt : Ask γ) (reference : String) :
    s.resolve (some subject) name reference attempt =
      s.readVisible name reference attempt (s.visible bindings remainder rows) := by
  obtain ⟨record, hrc, hty⟩ := h.isGroup
  rw [Server.resolve, h.splits]
  simp only [hrc, hty, ne_eq, not_true_eq_false, if_false, h.lists,
    visibleMembers_eq_ok h.binds h.member]
  rfl

variable {attempt : Ask γ}

theorem readVisible_congr {visible : List Repo.MemberState} (hpb : s.publishes = t.publishes)
    (han : ∀ m ∈ visible, SameAnswer s t attempt m) (name reference : String) :
    s.readVisible name reference attempt visible =
      t.readVisible name reference attempt visible := by
  have hak : s.askMembers attempt visible = t.askMembers attempt visible :=
    askFrom_congr (fun m hm => han m (mem_sortBy.mp hm)) _
  simp only [Server.readVisible, hak, Server.publishSkips, hpb]

theorem GroupView.resolve_congr (hs : GroupView s subject name group remainder rows bindings)
    (ht : GroupView t subject name group remainder rows' bindings) (hpb : s.publishes = t.publishes)
    (hvs : ∀ m, m ∈ s.visible bindings remainder rows ↔ m ∈ t.visible bindings remainder rows')
    (han : ∀ m ∈ s.visible bindings remainder rows, SameAnswer s t attempt m) (reference : String) :
    s.resolve (some subject) name reference attempt =
      t.resolve (some subject) name reference attempt := by
  rw [hs.resolve_eq, ht.resolve_eq, ← hs.ordered.eq_of_mem_iff ht.ordered hvs]
  exact readVisible_congr hpb han name reference

/-- **Group noninterference.** Two worlds in which the subject may read the same members of the
group, with the same positions, required flags and contents, are indistinguishable through the
group, whatever other members either group has. -/
theorem group_noninterference (hs : GroupView s subject name group remainder rows bindings)
    (ht : GroupView t subject name group remainder rows' bindings)
    (hpublishes : s.publishes = t.publishes)
    (hvisible : ∀ m, m ∈ s.visible bindings remainder rows ↔ m ∈ t.visible bindings remainder rows')
    (hcontent : ∀ m ∈ s.visible bindings remainder rows, SameContent s t m) (reference : String) :
    s.manifest (some subject) name reference = t.manifest (some subject) name reference ∧
      s.blob (some subject) name reference = t.blob (some subject) name reference := by
  constructor
  · rw [Server.manifest, Server.manifest, hs.resolve_congr ht hpublishes hvisible
      fun m hm => (hcontent m hm).manifest reference]
  · rw [Server.blob, Server.blob, hs.resolve_congr ht hpublishes hvisible
      fun m hm => (hcontent m hm).blob reference]

end TwoWorlds

def guarded (hidden : List GroupMember) (hosted : Option ContentServer) : Server where
  getRepository := fun name =>
    if name = "all" then .ok ⟨name, .group, [], 1, 0, 0⟩
    else if name = "hub" then .ok ⟨name, .proxy, [], 1, 0, 0⟩
    else if name = "secret" then .ok ⟨name, .hosted, [], 1, 0, 0⟩
    else if name = "inner" then .ok ⟨name, .group, [], 1, 0, 0⟩
    else .error ⟨true, "not found"⟩
  listGroupMembers := fun _ => .ok (hidden ++ [⟨"hub", 2, false⟩])
  fetchBindings := fun _ => .ok [⟨"b1", "reader", "hub/*", [.repoRead], ""⟩]
  hosted := hosted
  proxy := some ⟨fun _ _ => .ok ⟨"sha256:1", "manifest", []⟩, fun _ _ => .error .contentUnknown⟩
  publishes := true

/-- A required member that `ann` may not read and that is down, and a group among the members, make
no difference to `ann`. -/
theorem group_noninterference_secret :
    (guarded [⟨"secret", 1, true⟩, ⟨"inner", 2, false⟩] none).manifest (some "ann") "all/nginx"
        "latest" = (guarded [] none).manifest (some "ann") "all/nginx" "latest" ∧
      (guarded [] none).manifest (some "ann") "all/nginx" "latest" =
        (.ok (some ⟨"sha256:1", "manifest", []⟩), []) := by
  have hs : GroupView (guarded [⟨"secret", 1, true⟩, ⟨"inner", 2, false⟩] none) "ann" "all/nginx"
      "all" "nginx" [⟨"secret", 1, true⟩, ⟨"inner", 2, false⟩, ⟨"hub", 2, false⟩]
      [⟨"b1", "reader", "hub/*", [.repoRead], ""⟩] := by
    refine ⟨by decide, ⟨_, rfl, rfl⟩, rfl, rfl, ?_, by unfold Increasing; decide⟩
    intro row hrow
    simp only [mem_cons, not_mem_nil, or_false] at hrow
    rcases hrow with rfl | rfl | rfl <;> exact ⟨_, rfl⟩
  have ht : GroupView (guarded [] none) "ann" "all/nginx" "all" "nginx" [⟨"hub", 2, false⟩]
      [⟨"b1", "reader", "hub/*", [.repoRead], ""⟩] := by
    refine ⟨by decide, ⟨_, rfl, rfl⟩, rfl, rfl, ?_, by unfold Increasing; decide⟩
    intro row hrow
    simp only [mem_cons, not_mem_nil, or_false] at hrow
    subst hrow
    exact ⟨_, rfl⟩
  have hvs : (guarded [⟨"secret", 1, true⟩, ⟨"inner", 2, false⟩] none).visible
      [⟨"b1", "reader", "hub/*", [.repoRead], ""⟩] "nginx"
      [⟨"secret", 1, true⟩, ⟨"inner", 2, false⟩, ⟨"hub", 2, false⟩] =
      (guarded [] none).visible [⟨"b1", "reader", "hub/*", [.repoRead], ""⟩] "nginx"
        [⟨"hub", 2, false⟩] := by decide
  have hcn : ∀ m, SameContent (guarded [⟨"secret", 1, true⟩, ⟨"inner", 2, false⟩] none)
      (guarded [] none) m := by
    intro m
    unfold SameContent Server.delegateFor
    cases m.type <;> simp [guarded]
  exact ⟨(group_noninterference hs ht rfl (fun m => by rw [hvs]) (fun m _ => hcn m)
    "latest").1, by decide⟩

end Trove.Groupserve
