import Mathlib.Data.String.Basic
import Trove.Eventbus.Delivery

/-!
# The order of ids

`Publish` draws the id of its event before it takes the read lock, so two calls may fan out in the
other order than their ids. Where each consumer is offered what it wants in turn, smaller ids first,
what is accepted for it comes in increasing order of ids.
-/

namespace Trove.Eventbus

open Lib Meta List

variable {ι : Type} {newID : ι → Time → String × ι}

/-- The ids a source issues from here on increase, whatever the instants. -/
def Ascending (newID : ι → Time → String × ι) (ids : ι) : Prop :=
  ∀ ats, (outputs newID ids ats).Pairwise (· < ·)

def Publish.drawn : Publish → Option Event
  | .ready e => some e
  | .offering e _ => some e
  | _ => none

/-- The event a `Publish` has drawn the id of and may still offer to the consumer. -/
def Publish.owes (c : ℕ) (wants : String → Bool) : Publish → Option Event
  | .ready e => if wants e.type = true then some e else none
  | .offering e rest => if c ∈ rest ∧ wants e.type = true then some e else none
  | _ => none

/-- An event is offered to a consumer that wants it while no `Publish` with a smaller id may still
offer its own. -/
def World.InTurn (w : World ι) : Action → Prop
  | .stepPublish i =>
    match w.publishes[i]? with
    | some (.offering e (c :: _)) =>
      w.bus.wants c e.type = true →
        ∀ p ∈ w.publishes, ∀ e' ∈ p.owes c (w.bus.wants c), e.id ≤ e'.id
    | _ => True
  | _ => True

instance (w : World ι) (a : Action) : Decidable (w.InTurn a) := by
  unfold World.InTurn
  split
  · split <;> infer_instance
  · infer_instance

def World.Issued (w : World ι) (e : Event) : Prop :=
  (∃ p ∈ w.publishes, e ∈ p.drawn) ∨ ∃ c, e ∈ accepted c w.bus.log

/-- Ids are drawn in increasing order, and what a consumer may still be offered comes after what was
accepted for it. -/
structure Ordered (newID : ι → Time → String × ι) (w : World ι) : Prop where
  ascending : Ascending newID w.bus.ids
  later : ∀ e, w.Issued e → ∀ ats, ∀ id ∈ outputs newID w.bus.ids ats, e.id < id
  unset : ∀ e, .stamped e ∈ w.publishes → e.id = ""
  distinct : ∀ (i j : ℕ) (p q : Publish), i ≠ j → w.publishes[i]? = some p →
    w.publishes[j]? = some q → ∀ e ∈ p.drawn, ∀ e' ∈ q.drawn, e.id ≠ e'.id
  ahead : ∀ c, ∀ e ∈ accepted c w.bus.log, ∀ p ∈ w.publishes, ∀ e' ∈ p.owes c (w.bus.wants c),
    e.id < e'.id
  sorted : ∀ c, ((accepted c w.bus.log).map Event.id).Pairwise (· < ·)

variable {c : ℕ} {wants : String → Bool} {e : Event}

@[simp] theorem mem_owes_ready {e' : Event} :
    e' ∈ (Publish.ready e).owes c wants ↔ e = e' ∧ wants e.type = true := by
  simp [Publish.owes, and_comm]

@[simp] theorem mem_owes_offering {e' : Event} {rest : List ℕ} :
    e' ∈ (Publish.offering e rest).owes c wants ↔ e = e' ∧ c ∈ rest ∧ wants e.type = true := by
  simp [Publish.owes, and_comm]

theorem drawn_of_owes {p : Publish} (h : e ∈ p.owes c wants) : e ∈ p.drawn := by
  cases p with
  | ready e' => exact congrArg some (mem_owes_ready.mp h).1
  | offering e' rest => exact congrArg some (mem_owes_offering.mp h).1
  | stamped e' => cases h
  | returned => cases h

namespace Ordered

variable {w w' : World ι}

theorem of_bus (h : Ordered newID w) (hreg : w.bus.Registered) (hids : w'.bus.ids = w.bus.ids)
    (hpb : w'.publishes = w.publishes)
    (hac : ∀ c, accepted c w'.bus.log = accepted c w.bus.log)
    (hwn : ∀ c < w.bus.consumers.length, w'.bus.wants c = w.bus.wants c) :
    Ordered newID w' := by
  refine ⟨hids ▸ h.ascending, ?_, hpb ▸ h.unset, hpb ▸ h.distinct, ?_, ?_⟩
  · intro e he
    rw [World.Issued, hpb] at he
    simp only [hac] at he
    rw [hids]
    exact h.later e he
  · intro c e he p hp e' he'
    rw [hac] at he
    rw [hpb] at hp
    by_cases hc : c < w.bus.consumers.length
    · rw [hwn c hc] at he'
      exact h.ahead c e he p hp e' he'
    · rw [accepted_eq_nil (hreg.unnamed c (Nat.not_lt.mp hc))] at he
      cases he
  · intro c
    rw [hac]
    exact h.sorted c

variable {i : ℕ} {p' : Publish}

section

variable (h : Ordered newID w)
include h

theorem unset_of_set (hpb : w'.publishes = w.publishes.set i p')
    (hun : ∀ e, p' ≠ .stamped e) : ∀ e, .stamped e ∈ w'.publishes → e.id = "" := by
  intro e he
  rw [hpb] at he
  rcases mem_or_eq_of_mem_set he with he | he
  · exact h.unset e he
  · exact absurd he.symm (hun e)

theorem of_set {p : Publish} (hp : w.publishes[i]? = some p)
    (hpb : w'.publishes = w.publishes.set i p') (hids : w'.bus.ids = w.bus.ids)
    (hac : ∀ c, accepted c w'.bus.log = accepted c w.bus.log)
    (hwn : ∀ c, w'.bus.wants c = w.bus.wants c) (hun : ∀ e, p' ≠ .stamped e)
    (hdr : ∀ e ∈ p'.drawn, e ∈ p.drawn)
    (how : ∀ c, ∀ e ∈ p'.owes c (w.bus.wants c), e ∈ p.owes c (w.bus.wants c)) :
    Ordered newID w' := by
  have hmem := mem_of_getElem? hp
  refine ⟨hids ▸ h.ascending, ?_, h.unset_of_set hpb hun, ?_, ?_, ?_⟩
  · rintro e (⟨q, hq, he⟩ | ⟨c, he⟩)
    · rw [hids]
      rw [hpb] at hq
      rcases mem_or_eq_of_mem_set hq with hq | rfl
      · exact h.later e (.inl ⟨q, hq, he⟩)
      · exact h.later e (.inl ⟨p, hmem, hdr e he⟩)
    · rw [hids]
      rw [hac] at he
      exact h.later e (.inr ⟨c, he⟩)
  · rw [hpb]
    refine forall_pairs_set h.distinct fun j q hj hq => ⟨?_, ?_⟩
    · intro e he e' he'
      exact h.distinct j i q p hj hq hp e he e' (hdr e' he')
    · intro e he e' he'
      exact h.distinct i j p q hj.symm hp hq e (hdr e he) e' he'
  · intro c e he q hq e' he'
    rw [hac] at he
    rw [hwn] at he'
    rw [hpb] at hq
    rcases mem_or_eq_of_mem_set hq with hq | rfl
    · exact h.ahead c e he q hq e' he'
    · exact h.ahead c e he p hmem e' (how c e' he')
  · intro c
    rw [hac]
    exact h.sorted c

theorem of_draw {e : Event} (hpb : w'.publishes = w.publishes.set i p')
    (hids : w'.bus.ids = (newID w.bus.ids e.at_).2)
    (hac : ∀ c, accepted c w'.bus.log = accepted c w.bus.log)
    (hwn : ∀ c, w'.bus.wants c = w.bus.wants c) (hun : ∀ e, p' ≠ .stamped e)
    (hdr : ∀ e' ∈ p'.drawn, e'.id = (newID w.bus.ids e.at_).1) : Ordered newID w' := by
  have hot : ∀ ats, outputs newID w.bus.ids (e.at_ :: ats) =
      (newID w.bus.ids e.at_).1 :: outputs newID w'.bus.ids ats := by
    intro ats
    rw [hids]
    rfl
  have hnx : ∀ e₀, w.Issued e₀ → ∀ e' ∈ p'.drawn, e₀.id < e'.id := by
    intro e₀ he₀ e' he'
    rw [hdr e' he']
    exact h.later e₀ he₀ [e.at_] _ (by rw [hot]; exact mem_cons_self)
  refine ⟨?_, ?_, h.unset_of_set hpb hun, ?_, ?_, ?_⟩
  · intro ats
    have hall := h.ascending (e.at_ :: ats)
    rw [hot] at hall
    exact (pairwise_cons.mp hall).2
  · intro e₀ he₀ ats id hid
    have hall := h.ascending (e.at_ :: ats)
    have hmem : id ∈ outputs newID w.bus.ids (e.at_ :: ats) := by
      rw [hot]
      exact mem_cons_of_mem _ hid
    rw [hot] at hall
    rcases he₀ with ⟨q, hq, he₀⟩ | ⟨c, he₀⟩
    · rw [hpb] at hq
      rcases mem_or_eq_of_mem_set hq with hq | rfl
      · exact h.later e₀ (.inl ⟨q, hq, he₀⟩) _ id hmem
      · rw [hdr e₀ he₀]
        exact (pairwise_cons.mp hall).1 id hid
    · rw [hac] at he₀
      exact h.later e₀ (.inr ⟨c, he₀⟩) _ id hmem
  · rw [hpb]
    refine forall_pairs_set h.distinct fun j q hj hq => ⟨?_, ?_⟩
    · intro e₀ he₀ e' he'
      exact (hnx e₀ (.inl ⟨q, mem_of_getElem? hq, he₀⟩) e' he').ne
    · intro e' he' e₀ he₀
      exact (hnx e₀ (.inl ⟨q, mem_of_getElem? hq, he₀⟩) e' he').ne'
  · intro c e₀ he₀ q hq e' he'
    rw [hac] at he₀
    rw [hpb] at hq
    rcases mem_or_eq_of_mem_set hq with hq | rfl
    · rw [hwn] at he'
      exact h.ahead c e₀ he₀ q hq e' he'
    · exact hnx e₀ (.inr ⟨c, he₀⟩) e' (drawn_of_owes he')
  · intro c
    rw [hac]
    exact h.sorted c

theorem of_accept {c : ℕ} {e : Event} {rest : List ℕ}
    (hp : w.publishes[i]? = some (.offering e (c :: rest))) (hrs : c ∉ rest)
    (hpb : w'.publishes = w.publishes.set i (.offering e rest)) (hids : w'.bus.ids = w.bus.ids)
    (hlog : w'.bus.log = .accepted c e :: w.bus.log) (hwn : ∀ c, w'.bus.wants c = w.bus.wants c)
    (hty : w.bus.wants c e.type = true)
    (htr : ∀ p ∈ w.publishes, ∀ e' ∈ p.owes c (w.bus.wants c), e.id ≤ e'.id) :
    Ordered newID w' := by
  have hmem := mem_of_getElem? hp
  have how : e ∈ (Publish.offering e (c :: rest)).owes c (w.bus.wants c) :=
    mem_owes_offering.mpr ⟨rfl, mem_cons_self, hty⟩
  have hac : ∀ c' e', e' ∈ accepted c' w'.bus.log →
      e' ∈ accepted c' w.bus.log ∨ (c' = c ∧ e' = e) := by
    intro c' e' he'
    rw [hlog, accepted_cons, Entry.acceptedFor] at he'
    rcases mem_append.mp he' with he' | he'
    · exact .inl he'
    · split_ifs at he' with hc
      · exact .inr ⟨hc.symm, mem_singleton.mp he'⟩
      · cases he'
  refine ⟨hids ▸ h.ascending, ?_, h.unset_of_set hpb (fun e => by simp), ?_, ?_, ?_⟩
  · intro e₀ he₀
    rw [hids]
    rcases he₀ with ⟨q, hq, he₀⟩ | ⟨c', he₀⟩
    · rw [hpb] at hq
      rcases mem_or_eq_of_mem_set hq with hq | rfl
      · exact h.later e₀ (.inl ⟨q, hq, he₀⟩)
      · exact h.later e₀ (.inl ⟨_, hmem, he₀⟩)
    · rcases hac c' e₀ he₀ with he₀ | ⟨-, rfl⟩
      · exact h.later e₀ (.inr ⟨c', he₀⟩)
      · exact h.later e₀ (.inl ⟨_, hmem, drawn_of_owes how⟩)
  · rw [hpb]
    refine forall_pairs_set h.distinct fun j q hj hq => ⟨?_, ?_⟩
    · exact h.distinct j i q (.offering e (c :: rest)) hj hq hp
    · exact h.distinct i j (.offering e (c :: rest)) q hj.symm hp hq
  · intro c' e₀ he₀ q hq e' he'
    rw [hwn] at he'
    rw [hpb] at hq
    rcases hac c' e₀ he₀ with he₀ | ⟨rfl, rfl⟩
    · rcases mem_or_eq_of_mem_set hq with hq | rfl
      · exact h.ahead c' e₀ he₀ q hq e' he'
      · obtain ⟨heq, hin, hty'⟩ := mem_owes_offering.mp he'
        exact h.ahead c' e₀ he₀ _ hmem e'
          (mem_owes_offering.mpr ⟨heq, mem_cons_of_mem _ hin, hty'⟩)
    · obtain ⟨j, hj⟩ := List.getElem?_of_mem hq
      rcases eq_of_getElem?_set hj with ⟨-, rfl⟩ | ⟨hne, hj⟩
      · exact absurd (mem_owes_offering.mp he').2.1 hrs
      · have hle := htr q (mem_of_getElem? hj) e' he'
        exact lt_of_le_of_ne hle
          (h.distinct i j _ q hne.symm hp hj e₀ (drawn_of_owes how) e' (drawn_of_owes he'))
  · intro c'
    rw [hlog, accepted_cons, Entry.acceptedFor]
    split_ifs with hc
    · subst hc
      rw [map_append, pairwise_append]
      refine ⟨h.sorted c, by simp, ?_⟩
      intro id hid id' hid'
      obtain ⟨e₀, he₀, rfl⟩ := mem_map.mp hid
      obtain rfl : id' = e.id := by simpa using hid'
      exact h.ahead c e₀ he₀ _ hmem e how
    · rw [append_nil]
      exact h.sorted c'

theorem of_publish (hreg : w.bus.Registered) {p : Publish}
    (hp : w.publishes[i]? = some p) (hrs : p.rest <:+ w.bus.subscribers)
    (hnx : p.step newID w.bus = some (w'.bus, p')) (hpb : w'.publishes = w.publishes.set i p')
    (htr : w.InTurn (.stepPublish i)) : Ordered newID w' := by
  have hsm := wants_of_publish hnx hrs
  cases p with
  | stamped e =>
    have hid : e.id = "" := h.unset e (mem_of_getElem? hp)
    have hdr : drawID newID w.bus.ids e =
        ({ e with id := (newID w.bus.ids e.at_).1 }, (newID w.bus.ids e.at_).2) := if_pos hid
    simp only [Publish.step, hdr] at hnx
    split at hnx <;> obtain ⟨hbus, rfl⟩ := Prod.mk.inj (Option.some.inj hnx)
    · refine h.of_draw hpb (by rw [← hbus]) (fun c => by rw [← hbus]) hsm
        (fun e => by simp) ?_
      intro e' he'
      cases he'
    · refine h.of_draw hpb (by rw [← hbus]) (fun c => by rw [← hbus]) hsm
        (fun e => by simp) ?_
      rintro e' ⟨⟩
      rfl
  | ready e =>
    simp only [Publish.step] at hnx
    split_ifs at hnx <;> obtain ⟨hbus, rfl⟩ := Prod.mk.inj (Option.some.inj hnx)
    · refine h.of_set hp hpb (by rw [← hbus]) (fun c => by rw [← hbus]) hsm
        (fun e => by simp) ?_ ?_
      · intro e' he'
        cases he'
      · intro c e' he'
        cases he'
    · refine h.of_set hp hpb (by rw [← hbus]) (fun c => ?_) hsm (fun e => by simp)
        (fun e' he' => he') ?_
      · rw [← hbus, accepted_cons]
        exact append_nil _
      · intro c e' he'
        obtain ⟨heq, -, hty⟩ := mem_owes_offering.mp he'
        exact mem_owes_ready.mpr ⟨heq, hty⟩
  | offering e rest =>
    cases rest with
    | nil =>
      obtain ⟨hbus, rfl⟩ := Prod.mk.inj (Option.some.inj hnx)
      refine h.of_set hp hpb (by rw [← hbus]) (fun c => by rw [← hbus]) hsm
        (fun e => by simp) ?_ ?_
      · intro e' he'
        cases he'
      · intro c e' he'
        cases he'
    | cons c rest =>
      obtain ⟨hbus, rfl⟩ := Prod.mk.inj (Option.some.inj hnx)
      have hrt : c ∉ rest := (nodup_cons.mp (hreg.nodup.sublist hrs.sublist)).1
      have how : ∀ c', ∀ e' ∈ (Publish.offering e rest).owes c' (w.bus.wants c'),
          e' ∈ (Publish.offering e (c :: rest)).owes c' (w.bus.wants c') := by
        intro c' e' he'
        obtain ⟨heq, hin, hty⟩ := mem_owes_offering.mp he'
        exact mem_owes_offering.mpr ⟨heq, mem_cons_of_mem _ hin, hty⟩
      rcases offer_cases w.bus c e with ⟨-, hb⟩ | ⟨s, hs, hwn, ⟨q, -, hb⟩ | hb⟩
      · rw [hb] at hbus
        exact h.of_set hp hpb (by rw [hbus]) (fun c => by rw [hbus]) hsm (fun e => by simp)
          (fun e' he' => he') how
      · rw [hb] at hbus
        have hty : w.bus.wants c e.type = true := by
          rw [wants_eq hs]
          exact hwn
        simp only [World.InTurn, hp] at htr
        exact h.of_accept hp hrt hpb (by rw [← hbus]) (by rw [← hbus]) hsm hty
          (htr hty)
      · rw [hb] at hbus
        refine h.of_set hp hpb (by rw [← hbus]) (fun c' => ?_) hsm (fun e => by simp)
          (fun e' he' => he') how
        rw [← hbus, accepted_cons]
        exact append_nil _
  | returned => cases hnx

theorem step (hsn : w.Sound) {a : Action} (hst : w.step newID a = some w') (htr : w.InTurn a)
    (hun : ∀ e now, a = .publish e now → e.id = "") : Ordered newID w' := by
  obtain ⟨-, hmv⟩ := moved_of_step hsn.registered hsn.threads hst
  cases hmv with
  | call e now ha hbus hpb =>
    have hid : (e.stamp now).id = "" := by
      rw [← hun e now ha, Event.stamp]
      split_ifs <;> rfl
    refine ⟨hbus ▸ h.ascending, ?_, ?_, ?_, ?_, hbus ▸ h.sorted⟩
    · intro e₀ he₀
      rw [hbus]
      refine h.later e₀ ?_
      rcases he₀ with ⟨q, hq, he₀⟩ | hlog
      · rw [hpb] at hq
        rcases mem_append.mp hq with hq | hq
        · exact .inl ⟨q, hq, he₀⟩
        · rw [mem_singleton.mp hq] at he₀
          cases he₀
      · exact .inr (hbus ▸ hlog)
    · intro e₀ he₀
      rw [hpb] at he₀
      rcases mem_append.mp he₀ with he₀ | he₀
      · exact h.unset e₀ he₀
      · cases mem_singleton.mp he₀
        exact hid
    · rw [hpb]
      refine forall_pairs_concat h.distinct fun q hq => ⟨?_, ?_⟩
      · intro e₀ he₀ e' he'
        cases he'
      · intro e' he'
        cases he'
    · intro c e₀ he₀ q hq e' he'
      rw [hbus] at he₀ he'
      rw [hpb] at hq
      rcases mem_append.mp hq with hq | hq
      · exact h.ahead c e₀ he₀ q hq e' he'
      · rw [mem_singleton.mp hq] at he'
        cases he'
  | publish i ha p p' hp hnx hpb =>
    subst ha
    exact h.of_publish hsn.registered hp (hsn.threads.rests p (mem_of_getElem? hp)) hnx
      hpb htr
  | relist hlc hbus hids hpb =>
    exact h.of_bus hsn.registered hids hpb
      (fun c => (offered_of_relist hbus c fun _ => true).1) fun c hc => wants_step (.relist hbus) hc
  | serve hbus hids hpb =>
    exact h.of_bus hsn.registered hids hpb (fun c => (offered_of_serve hbus c fun _ => true).1)
      fun c hc => wants_step (.serve hbus) hc

end

end Ordered

theorem ordered_start {ids : ι} (hids : Ascending newID ids) (queueDepth : ℤ) :
    Ordered newID (World.start ids queueDepth) := by
  refine ⟨hids, ?_, ?_, ?_, ?_, fun c => List.Pairwise.nil⟩
  · rintro e (⟨p, hp, -⟩ | ⟨c, he⟩)
    · cases hp
    · cases he
  · intro e he
    cases he
  · intro i j p q hij hp
    cases hp
  · intro c e he
    cases he

theorem handed_sorted {w : World ι} (hsn : w.Sound) (h : Ordered newID w) (c : ℕ) :
    ((handed c w.bus.log).map Event.id).Pairwise (· < ·) := by
  by_cases hc : c < w.bus.consumers.length
  · have hs : w.bus.consumers[c]? = some w.bus.consumers[c] := List.getElem?_eq_getElem hc
    have hsr := h.sorted c
    rw [(hsn.tracked c _ hs).flow, append_assoc, map_append] at hsr
    exact (pairwise_append.mp hsr).1
  · rw [handed_eq_nil (hsn.registered.unnamed c (Nat.not_lt.mp hc))]
    exact List.Pairwise.nil

end Trove.Eventbus
