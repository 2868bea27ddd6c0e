import Trove.Repo.Group

/-!
# What the resolution answers

`orderMembers` accepts exactly the `Resolvable` lists. On members that were all asked, the fold
answers by the first member that decides (`resolveFrom_eq`): the first that serves, or a required
one that failed.
-/

namespace Trove.Repo

open Lib List

/-! ## Accepted lists -/

/-- Hosted or proxy entities with distinct names and distinct positions. -/
structure Resolvable (members : List MemberState) : Prop where
  entity : ∀ m ∈ members, validateEntityName m.repository = .ok ()
  notGroup : ∀ m ∈ members, m.type ≠ .group
  names : (members.map MemberState.repository).Nodup
  positions : (members.map MemberState.position).Nodup

variable {members : List MemberState}

theorem checkMembers_eq_ok {seenName : List String} {seenPosition : List ℤ} :
    checkMembers seenName seenPosition members = .ok () ↔
      Resolvable members ∧ (∀ m ∈ members, m.repository ∉ seenName) ∧
        ∀ m ∈ members, m.position ∉ seenPosition := by
  induction members generalizing seenName seenPosition with
  | nil => exact ⟨fun _ => ⟨⟨by simp, by simp, by simp, by simp⟩, by simp, by simp⟩, fun _ => rfl⟩
  | cons m ms ih =>
    rw [checkMembers]
    constructor
    · intro h
      split at h
      · cases h
      · rename_i hen
        split_ifs at h with hty hnm hps
        obtain ⟨hrs, hns, hpt⟩ := ih.mp h
        simp only [mem_cons, not_or] at hns hpt
        refine ⟨⟨?_, ?_, ?_, ?_⟩, ?_, ?_⟩
        · exact forall_mem_cons.mpr ⟨hen, hrs.entity⟩
        · exact forall_mem_cons.mpr ⟨hty, hrs.notGroup⟩
        · rw [map_cons, nodup_cons]
          refine ⟨fun hmem => ?_, hrs.names⟩
          obtain ⟨m', hm', heq⟩ := mem_map.mp hmem
          exact (hns m' hm').1 heq
        · rw [map_cons, nodup_cons]
          refine ⟨fun hmem => ?_, hrs.positions⟩
          obtain ⟨m', hm', heq⟩ := mem_map.mp hmem
          exact (hpt m' hm').1 heq
        · exact forall_mem_cons.mpr ⟨hnm, fun m' hm' => (hns m' hm').2⟩
        · exact forall_mem_cons.mpr ⟨hps, fun m' hm' => (hpt m' hm').2⟩
    · rintro ⟨⟨hen, hty, hns, hpt⟩, hsn, hsp⟩
      rw [forall_mem_cons] at hen hty hsn hsp
      rw [map_cons, nodup_cons] at hns hpt
      rw [hen.1]
      simp only [if_neg hty.1, if_neg hsn.1, if_neg hsp.1]
      refine ih.mpr ⟨⟨hen.2, hty.2, hns.2, hpt.2⟩, ?_, ?_⟩
      · intro m' hm' hmem
        rcases mem_cons.mp hmem with heq | hmem
        · exact hns.1 (heq ▸ mem_map_of_mem hm')
        · exact hsn.2 m' hm' hmem
      · intro m' hm' hmem
        rcases mem_cons.mp hmem with heq | hmem
        · exact hpt.1 (heq ▸ mem_map_of_mem hm')
        · exact hsp.2 m' hm' hmem

/-- **Accepted lists.** A list is put in position order exactly when it is resolvable. -/
theorem orderMembers_eq_ok {ordered : List MemberState} :
    orderMembers members = .ok ordered ↔
      Resolvable members ∧ ordered = sortBy MemberState.position members := by
  rw [orderMembers, bind_eq_ok]
  constructor
  · rintro ⟨u, hch, ⟨⟩⟩
    exact ⟨(checkMembers_eq_ok.mp hch).1, rfl⟩
  · rintro ⟨hrs, rfl⟩
    exact ⟨(), checkMembers_eq_ok.mpr ⟨hrs, by simp, by simp⟩, rfl⟩

theorem Resolvable.filter (h : Resolvable members) (p : MemberState → Bool) :
    Resolvable (members.filter p) where
  entity := fun m hm => h.entity m (mem_of_mem_filter hm)
  notGroup := fun m hm => h.notGroup m (mem_of_mem_filter hm)
  names := h.names.sublist (filter_sublist.map _)
  positions := h.positions.sublist (filter_sublist.map _)

@[simp] theorem fill_repository (outcomes : String → Option MemberOutcome) (m : MemberState) :
    (m.fill outcomes).repository = m.repository := by
  rw [MemberState.fill]
  split <;> rfl

@[simp] theorem fill_position (outcomes : String → Option MemberOutcome) (m : MemberState) :
    (m.fill outcomes).position = m.position := by
  rw [MemberState.fill]
  split <;> rfl

@[simp] theorem fill_type (outcomes : String → Option MemberOutcome) (m : MemberState) :
    (m.fill outcomes).type = m.type := by
  rw [MemberState.fill]
  split <;> rfl

theorem Resolvable.fill (h : Resolvable members) (outcomes : String → Option MemberOutcome) :
    Resolvable (members.map (MemberState.fill outcomes)) where
  entity := by simpa using h.entity
  notGroup := by simpa using h.notGroup
  names := by simpa [Function.comp_def] using h.names
  positions := by simpa [Function.comp_def] using h.positions

theorem resolve_withOutcomes (h : Resolvable members) (outcomes : String → Option MemberOutcome)
    (reference : String) :
    resolve ((MemberSet.mk members).withOutcomes outcomes) reference =
      resolveFrom { reference := reference }
        ((sortBy MemberState.position members).map (MemberState.fill outcomes)) := by
  have hor := orderMembers_eq_ok.mpr ⟨h.fill outcomes, rfl⟩
  rw [sortBy_map (fill_position outcomes)] at hor
  rw [resolve, MemberSet.withOutcomes, hor]

/-! ## The deciding member -/

/-- The member failed to answer. -/
def MemberState.failed (m : MemberState) : Bool := m.outcome = .down ∨ m.outcome = .malformed

def MemberState.decides (m : MemberState) : Bool :=
  m.outcome = .served || (m.failed && m.required)

def MemberState.skip (m : MemberState) : Option SkippedMember :=
  if m.failed then some ⟨m.repository, m.position, m.outcome.skipReason⟩ else none

/-- The resolution, given who decides. -/
def Resolution.conclude (r : Resolution) : Option MemberState → Resolution
  | none => { r with outcome := .notFound }
  | some m =>
    if m.outcome = .served then
      { r with outcome := .served, member := m.repository, position := m.position }
    else
      { r with
        outcome := .unavailable
        member := m.repository
        position := m.position
        reason := some m.outcome.skipReason }

@[simp] theorem conclude_skipped (r : Resolution) (decider : Option MemberState) :
    (r.conclude decider).skipped = r.skipped := by
  unfold Resolution.conclude
  split
  · rfl
  · split_ifs <;> rfl

@[simp] theorem conclude_reference (r : Resolution) (decider : Option MemberState) :
    (r.conclude decider).reference = r.reference := by
  unfold Resolution.conclude
  split
  · rfl
  · split_ifs <;> rfl

theorem resolveFrom_served {m : MemberState} (h : m.outcome = .served) (r : Resolution)
    (ms ms' : List MemberState) : resolveFrom r (m :: ms) = resolveFrom r (m :: ms') := by
  simp only [resolveFrom, h]

theorem resolveFrom_cons_congr (m : MemberState) {ms ms' : List MemberState}
    (h : ∀ r, resolveFrom r ms = resolveFrom r ms') (r : Resolution) :
    resolveFrom r (m :: ms) = resolveFrom r (m :: ms') := by
  simp only [resolveFrom, h]

/-- **The deciding member.** When every member was asked, the answer is the first decider's, and the
members skipped are those before it that failed. -/
theorem resolveFrom_eq (h : ∀ m ∈ members, m.outcome ≠ .unasked) (r : Resolution) :
    resolveFrom r members =
      Resolution.conclude { r with
        skipped := r.skipped ++
          (members.takeWhile (!·.decides)).filterMap MemberState.skip }
        (members.find? (·.decides)) := by
  induction members generalizing r with
  | nil => simp [resolveFrom, Resolution.conclude]
  | cons m ms ih =>
    rw [forall_mem_cons] at h
    rw [resolveFrom, List.find?_cons, takeWhile_cons]
    cases hot : m.outcome with
    | unasked => exact absurd hot h.1
    | served => simp [MemberState.decides, hot, Resolution.conclude]
    | notFound =>
      simp [MemberState.decides, MemberState.failed, MemberState.skip, hot, ih h.2]
    | down | malformed =>
      cases hrq : m.required <;>
        simp [MemberState.decides, MemberState.failed, MemberState.skip, hot, hrq,
          Resolution.conclude, ih h.2]

end Trove.Repo
