import Mathlib.Data.List.Infix
import Trove.Eventbus.History

/-!
# What the bus delivers

The calls in progress, and what they carry. A fan-out goes on over a list of consumers that does not
change, since changing it takes the write lock; a consumer is told to stop once it is off the list;
and `Close` returns nil once every consumer it found is done.
-/

namespace Trove.Eventbus

open Lib Meta List

variable {ι : Type} {newID : ι → Time → String × ι}

/-! ## The calls in progress -/

def Publish.rest : Publish → List ℕ
  | .offering _ rest => rest
  | _ => []

def Unsubscribe.consumer : Unsubscribe → ℕ
  | .removed c => c
  | .stopped c => c
  | .returned c => c

def Close.left : Close → Option (List ℕ)
  | .stopping _ held => some held
  | .waiting rest => some rest
  | .returned _ => none

/-- What the calls in flight rely on. -/
structure World.Threads (w : World ι) : Prop where
  rests : ∀ p ∈ w.publishes, p.rest <:+ w.bus.subscribers
  gone : ∀ u ∈ w.unsubscribes,
    u.consumer < w.bus.consumers.length ∧ u.consumer ∉ w.bus.subscribers
  unclosed : w.bus.closed = false → w.closes = []
  held : ∀ cl ∈ w.closes, ∀ left ∈ cl.left, ∀ c, heldByClose c w.bus.log = true →
    c ∈ left ∨ w.bus.isDone c = true

variable {w w' : World ι} {p p' : Publish} {b b' : Bus ι} {c : ℕ} {a : Action}

theorem rest_eq_nil (h : w.unlocked = true) (hp : p ∈ w.publishes) : p.rest = [] := by
  have hp := all_eq_true.mp h p hp
  cases p with
  | offering e rest => cases hp
  | stamped e => rfl
  | ready e => rfl
  | returned => rfl

theorem offer_cases (b : Bus ι) (c : ℕ) (e : Event) :
    (b.wants c e.type = false ∧ b.offer c e = b) ∨
      ∃ s, b.consumers[c]? = some s ∧ s.wants e.type = true ∧
        ((∃ q, s.queue.send e = some q ∧
            b.offer c e = { b with
              consumers := b.consumers.set c { s with queue := q }
              log := .accepted c e :: b.log }) ∨
          b.offer c e = { b with
            consumers := b.consumers.set c { s with dropped := s.dropped + 1 }
            dropped := b.dropped + 1
            log := .dropped c e :: b.log }) := by
  unfold Bus.offer Bus.wants
  split
  · rename_i hs
    exact .inl ⟨by rw [hs]; rfl, rfl⟩
  · rename_i s hs
    split_ifs with hwn
    · exact .inl ⟨by simpa [hs] using hwn, rfl⟩
    · refine .inr ⟨s, hs, by simpa using hwn, ?_⟩
      split
      · rename_i q hsn
        exact .inl ⟨q, hsn, rfl⟩
      · exact .inr rfl

theorem publish_step_cases (h : p.step newID b = some (b', p')) :
    (b'.Holds b.consumers b.subscribers b.closed b.log ∧ p.rest = [] ∧ p'.rest = []) ∨
      (∃ e, p = .ready e ∧ p' = .offering e b.subscribers ∧
        b'.Holds b.consumers b.subscribers b.closed (.published e :: b.log)) ∨
      ∃ e c rest, p = .offering e (c :: rest) ∧ p' = .offering e rest ∧ b' = b.offer c e := by
  unfold Publish.step at h
  split at h
  · left
    split at h <;> cases h <;> exact ⟨⟨rfl, rfl, rfl, rfl⟩, rfl, rfl⟩
  · rename_i e
    split_ifs at h <;> cases h
    · exact .inl ⟨⟨rfl, rfl, rfl, rfl⟩, rfl, rfl⟩
    · exact .inr (.inl ⟨e, rfl, rfl, rfl, rfl, rfl, rfl⟩)
  · rename_i e c rest
    cases h
    exact .inr (.inr ⟨e, c, rest, rfl, rfl, rfl⟩)
  · cases h
    exact .inl ⟨⟨rfl, rfl, rfl, rfl⟩, rfl, rfl⟩
  · cases h

theorem effect_of_publish (h : p.step newID b = some (b', p')) (hrs : p.rest <:+ b.subscribers) :
    Effect b b' ∧ b'.subscribers = b.subscribers ∧ p'.rest <:+ b.subscribers := by
  rcases publish_step_cases h with ⟨hb, -, hnil⟩ | ⟨e, -, rfl, hb⟩ | ⟨e, c, rest, rfl, rfl, rfl⟩
  · exact ⟨.serve (.quiet hb), hb.subscribers, hnil ▸ nil_suffix⟩
  · exact ⟨.fanout (.published e hb), hb.subscribers, suffix_rfl⟩
  · have hls : c ∈ b.subscribers := hrs.subset mem_cons_self
    have hrs : rest <:+ b.subscribers := (suffix_cons c rest).trans hrs
    rcases offer_cases b c e with ⟨-, hb⟩ | ⟨s, hs, -, ⟨q, hsn, hb⟩ | hb⟩
    · rw [hb]
      exact ⟨.serve (.quiet ⟨rfl, rfl, rfl, rfl⟩), rfl, hrs⟩
    · rw [hb]
      exact ⟨.fanout (.accepted c e s q hs hls hsn ⟨rfl, rfl, rfl, rfl⟩), rfl, hrs⟩
    · rw [hb]
      exact ⟨.fanout (.dropped c e s hs ⟨rfl, rfl, rfl, rfl⟩), rfl, hrs⟩

theorem serve_of_unsubscribe {u u' : Unsubscribe} (h : u.step b = some (b', u'))
    (hgn : u.consumer ∉ b.subscribers) :
    Serve b b' ∧ b'.ids = b.ids ∧ u'.consumer = u.consumer := by
  unfold Unsubscribe.step at h
  split at h
  · rename_i c
    cases h
    exact ⟨.told c hgn ⟨rfl, rfl, rfl, rfl⟩, rfl, rfl⟩
  · rename_i c
    split_ifs at h with hdn
    cases h
    exact ⟨.unsubscribed c hdn ⟨rfl, rfl, rfl, rfl⟩, rfl, rfl⟩
  · cases h

theorem serve_of_close {cl cl' : Close} {ctx : Option ContextError}
    (h : cl.step ctx b = some (b', cl')) (hem : b.subscribers = [])
    (hhl : ∀ left ∈ cl.left, ∀ c, heldByClose c b.log = true → c ∈ left ∨ b.isDone c = true) :
    Serve b b' ∧ b'.ids = b.ids ∧
      ∀ left ∈ cl'.left, ∀ c, heldByClose c b.log = true → c ∈ left ∨ b.isDone c = true := by
  unfold Close.step at h
  split at h
  · rename_i c rest held
    cases h
    exact ⟨.told c (by simp [hem]) ⟨rfl, rfl, rfl, rfl⟩, rfl, hhl⟩
  · cases h
    exact ⟨.quiet ⟨rfl, rfl, rfl, rfl⟩, rfl, hhl⟩
  · split at h
    · cases h
      refine ⟨.quiet ⟨rfl, rfl, rfl, rfl⟩, rfl, ?_⟩
      intro left hlf
      cases hlf
    · split_ifs at h with hdn
      cases h
      refine ⟨.quiet ⟨rfl, rfl, rfl, rfl⟩, rfl, ?_⟩
      rintro left ⟨⟩ c' hc'
      rcases hhl _ rfl c' hc' with hmem | hc'
      · rcases mem_cons.mp hmem with rfl | hmem
        · exact .inr hdn
        · exact .inl hmem
      · exact .inr hc'
  · cases h
    refine ⟨.closed (fun c hc => ?_) ⟨rfl, rfl, rfl, rfl⟩, rfl, ?_⟩
    · exact (hhl _ rfl c hc).resolve_left not_mem_nil
    · intro left hlf
      cases hlf
  · cases h

theorem relist_of_subscribe {s : Subscription} (h : b.subscribe s = .ok b') :
    Relist b b' ∧ b'.ids = b.ids := by
  unfold Bus.subscribe at h
  split_ifs at h with hnm hhn hcl
  · split at h <;> cases h
  · split at h
    · cases h
    · cases h
      exact ⟨.subscribed (b.newSubscriber s) rfl rfl rfl rfl (by simpa using hcl)
        ⟨rfl, rfl, rfl, rfl⟩, rfl⟩

theorem serve_of_deliver {panics : Bool} (h : b.deliver c panics = some b') :
    Serve b b' ∧ b'.ids = b.ids := by
  unfold Bus.deliver at h
  split at h
  · rename_i s hs
    split at h
    · rename_i e stopped hph
      cases h
      exact ⟨.handed c s e stopped hs hph ⟨rfl, rfl, rfl, rfl⟩, rfl⟩
    · cases h
  · cases h

/-! ## One step -/

/-- A call of `Publish` starts, one of them moves, or the rest of the bus does while no `Publish`
does. -/
inductive Moved (newID : ι → Time → String × ι) (w : World ι) (a : Action) (w' : World ι) : Prop
  | call (e : Event) (now : Time) (ha : a = .publish e now) (hbus : w'.bus = w.bus)
      (h : w'.publishes = w.publishes ++ [.stamped (e.stamp now)])
  | publish (i : ℕ) (ha : a = .stepPublish i) (p p' : Publish) (hp : w.publishes[i]? = some p)
      (hnext : p.step newID w.bus = some (w'.bus, p')) (h : w'.publishes = w.publishes.set i p')
  | relist (hlock : w.unlocked = true) (hbus : Relist w.bus w'.bus) (hids : w'.bus.ids = w.bus.ids)
      (h : w'.publishes = w.publishes)
  | serve (hbus : Serve w.bus w'.bus) (hids : w'.bus.ids = w.bus.ids)
      (h : w'.publishes = w.publishes)

theorem World.Threads.of_effect (h : w.Threads) (he : Effect w.bus b') {ps : List Publish}
    (hrs : ∀ p ∈ ps, p.rest <:+ b'.subscribers) :
    World.Threads ⟨b', ps, w.unsubscribes, w.closes⟩ := by
  obtain ⟨hln, hgn, hcs⟩ := lasting_step he
  refine ⟨hrs, ?_, ?_, ?_⟩
  · intro u hu
    obtain ⟨hlt, hout⟩ := h.gone u hu
    exact ⟨lt_of_lt_of_le hlt hln, fun hin => hout (hgn _ hlt hin)⟩
  · intro hon
    refine h.unclosed (Bool.eq_false_iff.mpr fun hbf => ?_)
    rw [(hcs hbf).1] at hon
    cases hon
  · intro cl hcl left hlf c hc
    have hbf : w.bus.closed = true := by
      refine by_contra fun hon => ?_
      rw [h.unclosed (by simpa using hon)] at hcl
      cases hcl
    rw [(hcs hbf).2] at hc
    rcases h.held cl hcl left hlf c hc with hc | hc
    · exact .inl hc
    · exact .inr (isDone_step he hc)

theorem subscribers_of_serve (h : Serve b b') : b'.subscribers = b.subscribers := by
  cases h with
  | quiet hb | told c hgn hb | unsubscribed c hdn hb | closed hdn hb
  | ran c s s' pick hs hrun hb | handed c s e stopped hs hph hb => exact hb.subscribers

theorem length_of_serve (h : Serve b b') : b'.consumers.length = b.consumers.length := by
  cases h with
  | quiet hb => rw [hb.consumers]
  | told c hgn hb => rw [hb.consumers, Bus.shutdown, length_modify]
  | unsubscribed c hdn hb | closed hdn hb => rw [hb.consumers]
  | ran c s s' pick hs hrun hb | handed c s e stopped hs hph hb => rw [hb.consumers, length_set]

theorem World.Threads.of_serve (h : w.Threads) (he : Serve w.bus b') :
    World.Threads ⟨b', w.publishes, w.unsubscribes, w.closes⟩ := by
  refine h.of_effect (.serve he) ?_
  rw [subscribers_of_serve he]
  exact h.rests

theorem World.Threads.of_relist (h : w.Threads) (hlc : w.unlocked = true) (he : Relist w.bus b') :
    World.Threads ⟨b', w.publishes, w.unsubscribes, w.closes⟩ := by
  refine h.of_effect (.relist he) fun p hp => ?_
  rw [rest_eq_nil hlc hp]
  exact nil_suffix

theorem moved_of_step (hreg : w.bus.Registered) (h : w.Threads) (hst : w.step newID a = some w') :
    w'.Threads ∧ Moved newID w a w' := by
  cases a with
  | publish e now =>
    cases hst
    exact ⟨⟨forall_mem_concat h.rests nil_suffix, h.gone, h.unclosed, h.held⟩,
      .call e now rfl rfl rfl⟩
  | stepPublish i =>
    obtain ⟨⟨b', ps⟩, had, rfl⟩ := Option.map_eq_some_iff.mp hst
    obtain ⟨p, p', hp, hnx, rfl⟩ := advance_eq_some had
    obtain ⟨he, hsb, hrs⟩ := effect_of_publish hnx (h.rests p (mem_of_getElem? hp))
    refine ⟨h.of_effect he ?_, .publish i rfl p p' hp hnx rfl⟩
    rw [show b'.subscribers = _ from hsb]
    exact forall_mem_set h.rests hrs
  | subscribe s =>
    simp only [World.step] at hst
    split_ifs at hst with hlc
    split at hst <;> cases hst
    · rename_i b' hsub
      obtain ⟨he, hids⟩ := relist_of_subscribe hsub
      exact ⟨h.of_relist hlc he, .relist hlc he hids rfl⟩
    · exact ⟨h, .serve (.quiet ⟨rfl, rfl, rfl, rfl⟩) rfl rfl⟩
  | unsubscribe c =>
    simp only [World.step] at hst
    split_ifs at hst with hc
    cases hst
    have he : Relist w.bus { w.bus with
        subscribers := w.bus.subscribers.erase c, log := .removed c :: w.bus.log } :=
      .removed c hc.2 ⟨rfl, rfl, rfl, rfl⟩
    have hkp := h.of_relist hc.1 he
    exact ⟨⟨hkp.rests, forall_mem_concat hkp.gone ⟨hc.2, hreg.nodup.not_mem_erase⟩, hkp.unclosed,
      hkp.held⟩, .relist hc.1 he rfl rfl⟩
  | stepUnsubscribe i =>
    obtain ⟨⟨b', us⟩, had, rfl⟩ := Option.map_eq_some_iff.mp hst
    obtain ⟨u, u', hu, hnx, rfl⟩ := advance_eq_some had
    have hmem := mem_of_getElem? hu
    obtain ⟨he, hids, hsm⟩ := serve_of_unsubscribe hnx (h.gone u hmem).2
    have hkp := h.of_serve he
    refine ⟨⟨hkp.rests, forall_mem_set hkp.gone ?_, hkp.unclosed, hkp.held⟩,
      .serve he hids rfl⟩
    rw [hsm]
    exact hkp.gone u hmem
  | close =>
    simp only [World.step] at hst
    split_ifs at hst with hlc hcs <;> cases hst
    · refine ⟨⟨h.rests, h.gone, ?_, forall_mem_concat h.held ?_⟩,
        .serve (.quiet ⟨rfl, rfl, rfl, rfl⟩) rfl rfl⟩
      · rw [hcs]
        intro hon
        cases hon
      · intro left hlf
        cases hlf
    · have hon : w.bus.closed = false := by simpa using hcs
      have he : Relist w.bus { w.bus with
          closed := true, subscribers := [], log := .closing :: w.bus.log } :=
        .closing hon ⟨rfl, rfl, rfl, rfl⟩
      have hkp := h.of_relist hlc he
      refine ⟨⟨hkp.rests, hkp.gone, (fun hon => by cases hon), ?_⟩,
        .relist hlc he rfl rfl⟩
      rw [h.unclosed hon]
      intro cl hcl
      rw [mem_singleton.mp hcl]
      rintro left ⟨⟩ c hc
      exact .inl ((hreg.listed c).mp hc)
  | stepClose i ctx =>
    obtain ⟨⟨b', cls⟩, had, rfl⟩ := Option.map_eq_some_iff.mp hst
    obtain ⟨cl, cl', hcl, hnx, rfl⟩ := advance_eq_some had
    have hmem := mem_of_getElem? hcl
    have hcs : w.bus.closed = true := by
      refine by_contra fun hon => ?_
      rw [h.unclosed (by simpa using hon)] at hmem
      cases hmem
    obtain ⟨he, hids, hlf⟩ := serve_of_close hnx (hreg.shut hcs) (h.held cl hmem)
    have hkp := h.of_serve he
    obtain ⟨-, -, hls⟩ := lasting_step (.serve he)
    obtain ⟨hsl, hhl⟩ := hls hcs
    refine ⟨⟨hkp.rests, hkp.gone, ?_, forall_mem_set hkp.held ?_⟩, .serve he hids rfl⟩
    · intro hon
      rw [show b'.closed = true from hsl] at hon
      cases hon
    · intro left hmem' c hc
      rw [show heldByClose c b'.log = _ from hhl c] at hc
      exact (hlf left hmem' c hc).imp_right (isDone_step (.serve he))
  | run c pick =>
    obtain ⟨s, hs, hmap⟩ := Option.bind_eq_some_iff.mp hst
    obtain ⟨s', hrun, rfl⟩ := Option.map_eq_some_iff.mp hmap
    have he : Serve w.bus { w.bus with consumers := w.bus.consumers.set c s' } :=
      .ran c s s' pick hs hrun ⟨rfl, rfl, rfl, rfl⟩
    exact ⟨h.of_serve he, .serve he rfl rfl⟩
  | deliver c panics =>
    obtain ⟨b', hdl, rfl⟩ := Option.map_eq_some_iff.mp hst
    obtain ⟨he, hids⟩ := serve_of_deliver hdl
    exact ⟨h.of_serve he, .serve he hids rfl⟩

/-! ## The tally of a consumer -/

/-- The event a `Publish` in its fan-out has still to offer to the consumer. -/
def Publish.carries (c : ℕ) (wants : String → Bool) : Publish → Option Event
  | .offering e rest => if c ∈ rest ∧ wants e.type = true then some e else none
  | _ => none

def World.inFlight (w : World ι) (c : ℕ) : List Event :=
  w.publishes.filterMap (Publish.carries c (w.bus.wants c))

def World.Tallied (w : World ι) : Prop :=
  ∀ c < w.bus.consumers.length,
    (accepted c w.bus.log ++ dropped c w.bus.log ++ w.inFlight c).Perm
      (matching c (w.bus.wants c) w.bus.log)

theorem carries_eq_none (h : p.rest = []) (c : ℕ) (wants : String → Bool) :
    p.carries c wants = none := by
  cases p with
  | offering e rest =>
    obtain rfl : rest = [] := h
    simp [Publish.carries]
  | stamped e => rfl
  | ready e => rfl
  | returned => rfl

theorem inFlight_eq_nil (h : w.unlocked = true) (c : ℕ) : w.inFlight c = [] :=
  filterMap_eq_nil_iff.mpr fun _ hp => carries_eq_none (rest_eq_nil h hp) c _

theorem carries_tail {c' : ℕ} (hne : c' ≠ c) (e : Event) (rest : List ℕ) (wants : String → Bool) :
    (Publish.offering e rest).carries c' wants =
      (Publish.offering e (c :: rest)).carries c' wants := by
  simp [Publish.carries, hne]

/-- What a `Publish` newly accounts for, and what it carries then, is what it carried before and
what it newly published. -/
theorem balance_of_publish (hreg : b.Registered) (hnx : p.step newID b = some (b', p'))
    (hrs : p.rest <:+ b.subscribers) (c : ℕ) :
    (accepted c b'.log ++ dropped c b'.log ++ (p'.carries c (b.wants c)).toList ++
        matching c (b.wants c) b.log).Perm
      (accepted c b.log ++ dropped c b.log ++ (p.carries c (b.wants c)).toList ++
        matching c (b.wants c) b'.log) := by
  rcases publish_step_cases hnx with ⟨hb, hnil, hnil'⟩ | ⟨e, rfl, rfl, hb⟩ |
    ⟨e, c', rest, rfl, rfl, rfl⟩
  · rw [hb.log, carries_eq_none hnil, carries_eq_none hnil']
  · rw [hb.log, accepted_cons, dropped_cons, matching]
    have hiff : (subscribed c b.log && b.wants c e.type) = true ↔
        c ∈ b.subscribers ∧ b.wants c e.type = true := by
      rw [Bool.and_eq_true, hreg.listed c]
    by_cases hmt : c ∈ b.subscribers ∧ b.wants c e.type = true
    · rw [if_pos (hiff.mpr hmt), Publish.carries, if_pos hmt]
      show (accepted c b.log ++ [] ++ (dropped c b.log ++ []) ++ [e] ++ _).Perm
        (accepted c b.log ++ dropped c b.log ++ [] ++ (_ ++ [e]))
      simp only [append_nil, append_assoc]
      exact (perm_append_comm.append_left _).append_left _
    · rw [if_neg (mt hiff.mp hmt), Publish.carries, if_neg hmt]
      simp only [append_assoc]
      exact List.Perm.refl _
  · have hnd : (c' :: rest).Nodup := hreg.nodup.sublist hrs.sublist
    have hhd : ∀ {s : Subscriber}, b.consumers[c']? = some s → s.wants e.type = true →
        (Publish.offering e (c' :: rest)).carries c' (b.wants c') = some e ∧
          (Publish.offering e rest).carries c' (b.wants c') = none := by
      intro s hs hwn
      simp [Publish.carries, Bus.wants, hs, hwn, (nodup_cons.mp hnd).1]
    rcases offer_cases b c' e with ⟨hwn, hb⟩ | ⟨s, hs, hwn, ⟨q, -, hb⟩ | hb⟩
    · rw [hb]
      by_cases hc : c = c'
      · subst hc
        simp [Publish.carries, hwn]
      · rw [carries_tail hc]
    · rw [hb]
      by_cases hc : c = c'
      · subst hc
        rw [(hhd hs hwn).1, (hhd hs hwn).2, accepted_cons, dropped_cons]
        rw [show (Entry.accepted c e).acceptedFor c = [e] from if_pos rfl]
        simp only [append_assoc]
        exact (perm_append_comm_assoc _ _ _).append_left _
      · rw [carries_tail hc, accepted_cons, dropped_cons]
        simp [Entry.acceptedFor, Entry.droppedFor, matching, Ne.symm hc]
    · rw [hb]
      by_cases hc : c = c'
      · subst hc
        rw [(hhd hs hwn).1, (hhd hs hwn).2, accepted_cons, dropped_cons]
        simp [Entry.acceptedFor, Entry.droppedFor, matching]
      · rw [carries_tail hc, accepted_cons, dropped_cons]
        simp [Entry.acceptedFor, Entry.droppedFor, matching, Ne.symm hc]

theorem length_of_publish (hnx : p.step newID b = some (b', p')) :
    b'.consumers.length = b.consumers.length := by
  rcases publish_step_cases hnx with ⟨hb, -, -⟩ | ⟨e, -, -, hb⟩ | ⟨e, c', rest, -, -, hb⟩
  · rw [hb.consumers]
  · rw [hb.consumers]
  · rw [hb]
    rcases offer_cases b c' e with ⟨-, hb⟩ | ⟨s, -, -, ⟨q, -, hb⟩ | hb⟩ <;> rw [hb]
    · exact length_set
    · exact length_set

theorem wants_of_publish (hnx : p.step newID b = some (b', p')) (hrs : p.rest <:+ b.subscribers)
    (c : ℕ) : b'.wants c = b.wants c := by
  by_cases hc : c < b.consumers.length
  · exact wants_step (effect_of_publish hnx hrs).1 hc
  · have hc : b.consumers.length ≤ c := Nat.not_lt.mp hc
    have hc' : b'.consumers.length ≤ c := by rwa [length_of_publish hnx]
    funext t
    rw [Bus.wants, Bus.wants, List.getElem?_eq_none hc, List.getElem?_eq_none hc']

theorem tallied_step (hreg : w.bus.Registered) (hth : w.Threads) (h : w.Tallied)
    (hmv : Moved newID w a w') : w'.Tallied := by
  intro c hc
  cases hmv with
  | call e now ha hbus hpb =>
    rw [hbus] at hc
    have hfl : w'.inFlight c = w.inFlight c := by
      rw [World.inFlight, hbus, hpb, filterMap_append]
      exact append_nil _
    rw [hbus, hfl]
    exact h c hc
  | publish i ha p p' hp hnx hpb =>
    classical
    have hrs := hth.rests p (mem_of_getElem? hp)
    rw [length_of_publish hnx] at hc
    have hwn := wants_of_publish hnx hrs c
    have hfl : ((p.carries c (w.bus.wants c)).toList ++ w'.inFlight c).Perm
        ((p'.carries c (w.bus.wants c)).toList ++ w.inFlight c) := by
      rw [World.inFlight, hwn, hpb]
      exact filterMap_set_perm _ hp
    have hbl := balance_of_publish hreg hnx hrs c
    have hbf := h c hc
    rw [hwn]
    rw [perm_iff_count] at hfl hbf hbl ⊢
    intro a
    have hfl := hfl a
    have hbf := hbf a
    have hbl := hbl a
    simp only [count_append] at hfl hbf hbl ⊢
    omega
  | relist hlc hbus hids hpb =>
    have hlc' : w'.unlocked = true := by
      rw [World.unlocked, hpb]
      exact hlc
    obtain ⟨hac, hdr, hmt⟩ := offered_of_relist hbus c (w'.bus.wants c)
    rw [hac, hdr, hmt, inFlight_eq_nil hlc']
    by_cases hold : c < w.bus.consumers.length
    · rw [wants_step (.relist hbus) hold]
      simpa [inFlight_eq_nil hlc] using h c hold
    · have hnn := hreg.unnamed c (Nat.not_lt.mp hold)
      rw [accepted_eq_nil hnn, dropped_eq_nil hnn, matching_eq_nil hnn]
      exact List.Perm.refl _
  | serve hbus hids hpb =>
    obtain ⟨hac, hdr, hmt⟩ := offered_of_serve hbus c (w'.bus.wants c)
    rw [length_of_serve hbus] at hc
    have hwn : w'.bus.wants c = w.bus.wants c := wants_step (.serve hbus) hc
    rw [hac, hdr, hmt, World.inFlight, hpb, hwn]
    exact h c hc

/-! ## Whole runs -/

/-- What every step preserves. -/
structure World.Sound (w : World ι) : Prop where
  registered : w.bus.Registered
  tracked : w.bus.Tracked
  settled : w.bus.Settled
  threads : w.Threads
  tallied : w.Tallied

theorem effect_of_moved (hth : w.Threads) (h : Moved newID w a w') : Effect w.bus w'.bus := by
  cases h with
  | call e now ha hbus hpb =>
    rw [hbus]
    exact .serve (.quiet ⟨rfl, rfl, rfl, rfl⟩)
  | publish i ha p p' hp hnx hpb =>
    exact (effect_of_publish hnx (hth.rests p (mem_of_getElem? hp))).1
  | relist hlc hbus hids hpb => exact .relist hbus
  | serve hbus hids hpb => exact .serve hbus

theorem World.Sound.step (h : w.Sound) (hst : w.step newID a = some w') : w'.Sound := by
  obtain ⟨hth, hmv⟩ := moved_of_step h.registered h.threads hst
  have he := effect_of_moved h.threads hmv
  exact ⟨registered_step h.registered he, tracked_step h.registered h.tracked he,
    settled_step h.tracked h.settled he, hth,
    tallied_step h.registered h.threads h.tallied hmv⟩

theorem sound_start (ids : ι) (queueDepth : ℤ) : (World.start ids queueDepth).Sound where
  registered := by
    refine ⟨nodup_nil, ?_, fun _ => rfl, ?_, ?_⟩
    · intro c hc
      cases hc
    · intro c
      simp [World.start, newBus, subscribed]
    · intro c hc x hx
      cases hx
  tracked := by
    intro c s hs
    simp [World.start, newBus] at hs
  settled := by
    intro c newer x older hsp
    simp [World.start, newBus] at hsp
  threads := by
    refine ⟨?_, ?_, fun _ => rfl, ?_⟩
    · intro p hp
      cases hp
    · intro u hu
      cases hu
    · intro cl hcl
      cases hcl
  tallied := by
    intro c hc
    exact absurd hc (Nat.not_lt_zero c)

theorem sound_of_run {ids : ι} {queueDepth : ℤ} {as : List Action}
    (hrun : exec (World.step newID) (World.start ids queueDepth) as = some w) : w.Sound := by
  have hok : Along (World.step newID) (fun _ _ => True) (World.start ids queueDepth) as :=
    along_of_forall (fun _ _ => trivial) _ as
  exact exec_invariant (fun _ _ _ h _ hs => h.step hs) (sound_start ids queueDepth) hok hrun

/-! ## A consumer left to itself -/

section Drain

variable (newID) {w : World ι} {c : ℕ} {s : Subscriber} (hs : w.bus.consumers[c]? = some s)
include hs

theorem step_deliver {e : Event} {stopped : Bool} (hph : s.phase = .delivering e stopped) :
    ∃ w' s', w.step newID (.deliver c false) = some w' ∧ w'.bus.consumers[c]? = some s' ∧
      s'.queue = s.queue ∧ s'.inHand = none ∧ s'.isDone = false ∧
      w'.bus.log = .handed c e :: w.bus.log := by
  let s' : Subscriber := { s with phase := if stopped then .draining else .serving }
  have hdl : w.bus.deliver c false = some { w.bus with
      consumers := w.bus.consumers.set c s', log := .handed c e :: w.bus.log } := by
    unfold Bus.deliver
    simp [hs, hph, s']
  refine ⟨{ w with bus := _ }, s', congrArg (Option.map _) hdl, ?_, rfl, ?_, ?_, rfl⟩
  · exact List.getElem?_set_self (List.getElem?_eq_some_iff.mp hs).1
  · cases stopped <;> rfl
  · cases stopped <;> rfl

theorem step_run {e : Event} {rest : List Event} (hbf : s.queue.buffer = e :: rest)
    (hhn : s.inHand = none) (hdn : s.isDone = false) :
    ∃ w' s' stopped, w.step newID (.run c .queue) = some w' ∧ w'.bus.consumers[c]? = some s' ∧
      s'.queue.buffer = rest ∧ s'.phase = .delivering e stopped ∧ w'.bus.log = w.bus.log := by
  obtain ⟨⟨e', q⟩, hrc⟩ : ∃ r, s.queue.recv = some r := by
    refine Option.ne_none_iff_exists'.mp fun hnn => ?_
    rw [Chan.recv_eq_none.mp hnn] at hbf
    cases hbf
  have hq := Chan.buffer_of_recv hrc
  rw [hbf, List.cons.injEq] at hq
  obtain ⟨rfl, rfl⟩ := hq
  obtain ⟨stopped, hrun⟩ : ∃ stopped, s.run .queue =
      some { s with queue := q, phase := .delivering e stopped } := by
    unfold Subscriber.run
    cases hph : s.phase with
    | serving => exact ⟨false, by simp [hrc]⟩
    | delivering e' stopped => simp [Subscriber.inHand, hph] at hhn
    | draining => exact ⟨true, by simp [hrc]⟩
    | done => simp [Subscriber.isDone, hph] at hdn
  refine ⟨{ w with bus := { w.bus with
      consumers := w.bus.consumers.set c { s with queue := q, phase := .delivering e stopped } } },
    _, stopped, ?_, List.getElem?_set_self (List.getElem?_eq_some_iff.mp hs).1, rfl, rfl, rfl⟩
  rw [World.step, hs, Option.bind_some, hrun, Option.map_some]

end Drain

variable (newID) in
theorem drains_queue (queued : List Event) {s : Subscriber} (hs : w.bus.consumers[c]? = some s)
    (hbf : s.queue.buffer = queued) (hhn : s.inHand = none) (hdn : s.isDone = false) :
    ∃ as w', (∀ a ∈ as, a = .run c .queue ∨ a = .deliver c false) ∧
      exec (World.step newID) w as = some w' ∧
      handed c w'.bus.log = handed c w.bus.log ++ queued := by
  induction queued generalizing w s with
  | nil => exact ⟨[], w, by simp, rfl, (append_nil _).symm⟩
  | cons e queued ih =>
    obtain ⟨w₁, s₁, stopped, hstep₁, hs₁, hbuffer₁, hphase₁, hlog₁⟩ :=
      step_run newID hs hbf hhn hdn
    obtain ⟨w₂, s₂, hstep₂, hs₂, hqueue₂, hhand₂, hdone₂, hlog₂⟩ := step_deliver newID hs₁ hphase₁
    obtain ⟨as, w', has, hrun, hhd⟩ := ih hs₂ (by rw [hqueue₂, hbuffer₁]) hhand₂ hdone₂
    refine ⟨.run c .queue :: .deliver c false :: as, w', ?_, ?_, ?_⟩
    · simpa using has
    · exact exec_cons_eq_some.mpr ⟨w₁, hstep₁, exec_cons_eq_some.mpr ⟨w₂, hstep₂, hrun⟩⟩
    · rw [hhd, hlog₂, hlog₁, handed_cons,
        show (Entry.handed c e).handedTo c = [e] from if_pos rfl, append_assoc,
        singleton_append]

variable (newID) in
theorem drains {s : Subscriber} (hs : w.bus.consumers[c]? = some s)
    (htr : Tracks w.bus.subscribers w.bus.log c s) :
    ∃ as w', (∀ a ∈ as, a = .run c .queue ∨ a = .deliver c false) ∧
      exec (World.step newID) w as = some w' ∧
      handed c w'.bus.log = accepted c w.bus.log := by
  by_cases hdn : s.isDone = true
  · refine ⟨[], w, by simp, rfl, ?_⟩
    rw [htr.flow, inHand_of_isDone hdn, htr.drained hdn]
    simp
  · have hdn : s.isDone = false := by simpa using hdn
    cases hph : s.phase with
    | delivering e stopped =>
      obtain ⟨w₁, s₁, hst, hs₁, hqu, hhn, hdone₁, hlog⟩ := step_deliver newID hs hph
      obtain ⟨as, w', has, hrun, hhd⟩ :=
        drains_queue newID s.queue.buffer hs₁ (by rw [hqu]) hhn hdone₁
      refine ⟨.deliver c false :: as, w', ?_, exec_cons_eq_some.mpr ⟨w₁, hst, hrun⟩, ?_⟩
      · simpa using has
      · rw [hhd, hlog, handed_cons, htr.flow]
        simp [Entry.handedTo, Subscriber.inHand, hph]
    | serving | draining =>
      have hhn : s.inHand = none := by simp [Subscriber.inHand, hph]
      obtain ⟨as, w', has, hrun, hhd⟩ := drains_queue newID _ hs rfl hhn hdn
      refine ⟨as, w', has, hrun, ?_⟩
      rw [hhd, htr.flow, hhn]
      simp
    | done => simp [Subscriber.isDone, hph] at hdn

/-! ## Delivery -/

/-- **Delivery.** In every run of any calls and consumers on a new bus:

* a consumer has been handed the events accepted for it, each once and in that order, up to those it
  has in hand or in its queue, and its goroutine alone comes to hand it these too;
* the matching events published while it was subscribed are those accepted for it, those dropped,
  and those of a fan-out that has yet to come to it, none when no fan-out is going on or it is no
  longer subscribed;
* when an unsubscribe of it returns, or the first `Close` that found it subscribed returns nil, it
  has been handed all that was accepted for it, and nothing is accepted after. -/
theorem delivers_accepted (newID : ι → Time → String × ι) (ids : ι) (queueDepth : ℤ)
    (as : List Action) (w : World ι)
    (hrun : exec (World.step newID) (World.start ids queueDepth) as = some w) (c : ℕ)
    (s : Subscriber) (hs : w.bus.consumers[c]? = some s) :
    (accepted c w.bus.log = handed c w.bus.log ++ s.inHand.toList ++ s.queue.buffer ∧
      ∃ turns w', (∀ a ∈ turns, a = .run c .queue ∨ a = .deliver c false) ∧
        exec (World.step newID) w turns = some w' ∧
        handed c w'.bus.log = accepted c w.bus.log) ∧
    ((accepted c w.bus.log ++ dropped c w.bus.log ++ w.inFlight c).Perm
        (matching c s.wants w.bus.log) ∧
      s.dropped = (dropped c w.bus.log).length ∧
      (w.unlocked = true ∨ subscribed c w.bus.log = false → w.inFlight c = [])) ∧
    ∀ newer x older, w.bus.log = newer ++ x :: older → Ends c x older →
      accepted c older = handed c older ∧ accepted c newer = [] := by
  have hsn := sound_of_run hrun
  have htr := hsn.tracked c s hs
  refine ⟨⟨htr.flow, drains newID hs htr⟩, ⟨?_, htr.count, ?_⟩, ?_⟩
  · rw [← wants_eq hs]
    exact hsn.tallied c (List.getElem?_eq_some_iff.mp hs).1
  · rintro (hlc | hout)
    · exact inFlight_eq_nil hlc c
    · refine filterMap_eq_nil_iff.mpr fun p hp => ?_
      have hnot : c ∉ p.rest := fun hin => by
        have hls := (hsn.registered.listed c).mpr ((hsn.threads.rests p hp).subset hin)
        rw [hout] at hls
        cases hls
      cases p with
      | offering e rest => exact if_neg fun hcr => hnot hcr.1
      | stamped e => rfl
      | ready e => rfl
      | returned => rfl
  · intro newer x older hsp hen
    exact (hsn.settled c newer x older hsp hen).2

/-- An id source that counts, in unary. -/
def tally (n : ℕ) (_ : Time) : String × ℕ := (String.ofList (List.replicate (n + 1) '1'), n + 1)

def pushed : Event where
  id := ""
  type := "artifact.pushed"
  repository := "team/web"
  resource := "latest"
  actor := ""
  payload := some ⟨.artifactPushed, .ok []⟩
  at_ := 0

/-- Two consumers, the first with a queue of one and a handler that panics, and two events. -/
def twoEvents : List Action :=
  [.subscribe ⟨"metrics", [], true, 1⟩, .subscribe ⟨"audit", ["artifact.pushed"], true, 0⟩,
    .publish pushed 5, .stepPublish 0, .stepPublish 0, .stepPublish 0, .stepPublish 0,
    .stepPublish 0,
    .publish pushed 6, .stepPublish 1, .stepPublish 1, .stepPublish 1, .stepPublish 1,
    .stepPublish 1,
    .unsubscribe 0, .stepUnsubscribe 0, .run 0 .queue, .deliver 0 true, .run 0 .stop,
    .run 0 .queue, .stepUnsubscribe 0,
    .close, .stepClose 0 none, .stepClose 0 none, .run 1 .queue, .deliver 1 false, .run 1 .stop,
    .run 1 .queue, .deliver 1 false, .run 1 .queue, .stepClose 0 none, .stepClose 0 none]

theorem delivers_accepted_twoEvents :
    ∃ w ∈ exec (World.step tally) (World.start 0 0) twoEvents,
      ∃ s ∈ w.bus.consumers[1]?, (handed 1 w.bus.log).map Event.id = ["1", "11"] ∧
        accepted 1 w.bus.log = handed 1 w.bus.log ++ s.inHand.toList ++ s.queue.buffer ∧
        (accepted 1 w.bus.log ++ dropped 1 w.bus.log ++ w.inFlight 1).Perm
          (matching 1 s.wants w.bus.log) ∧
        (∃ older, w.bus.log = .closed :: older ∧ Ends 1 .closed older ∧
          accepted 1 older = handed 1 older) := by
  have hgo : ∃ w ∈ exec (World.step tally) (World.start 0 0) twoEvents,
      ∃ s ∈ w.bus.consumers[1]?, (handed 1 w.bus.log).map Event.id = ["1", "11"] ∧
        heldByClose 1 w.bus.log.tail = true ∧
        (w.bus.log.head?.any fun x => match x with
          | .closed => true
          | _ => false) = true := by
    decide +kernel
  obtain ⟨w, hrun, s, hs, hids, hhl, hhd⟩ := hgo
  obtain ⟨⟨hfl, -⟩, ⟨htl, -, -⟩, hen⟩ := delivers_accepted tally 0 0 twoEvents w hrun 1 s hs
  obtain ⟨older, hlog⟩ : ∃ older, w.bus.log = .closed :: older := by
    cases hlog : w.bus.log with
    | nil => simp [hlog] at hhd
    | cons x older =>
      rw [hlog] at hhd
      cases x <;> first | exact ⟨older, rfl⟩ | cases hhd
  rw [hlog] at hhl
  exact ⟨w, hrun, s, hs, hids, hfl, htl, older, hlog, hhl,
    (hen [] .closed older hlog hhl).1⟩

end Trove.Eventbus
