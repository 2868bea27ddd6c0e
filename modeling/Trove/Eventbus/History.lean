import Mathlib.Data.List.Perm.Basic
import Trove.Eventbus.Bus

/-!
# The history of a bus

What was accepted for each consumer, dropped, handed to it, and published while it was subscribed.
Every step of the world has one of a dozen effects on the memory the calls share (`Effect`), and
what the delivery rests on is kept by each of them (`Bus.Registered`, `Bus.Tracked`, `Bus.Settled`).
-/

namespace Trove.Eventbus

open Lib Meta List

variable {ι : Type}

/-! ## The history of a consumer -/

namespace Entry

def acceptedFor (c : ℕ) : Entry → List Event
  | .accepted c' e => if c' = c then [e] else []
  | _ => []

def droppedFor (c : ℕ) : Entry → List Event
  | .dropped c' e => if c' = c then [e] else []
  | _ => []

def handedTo (c : ℕ) : Entry → List Event
  | .handed c' e => if c' = c then [e] else []
  | _ => []

def about (c : ℕ) : Entry → Bool
  | .subscribed c' => c' = c
  | .removed c' => c' = c
  | .accepted c' _ => c' = c
  | .dropped c' _ => c' = c
  | .handed c' _ => c' = c
  | .unsubscribed c' => c' = c
  | _ => false

end Entry

def accepted (c : ℕ) (log : List Entry) : List Event := log.reverse.flatMap (Entry.acceptedFor c)

def dropped (c : ℕ) (log : List Entry) : List Event := log.reverse.flatMap (Entry.droppedFor c)

def handed (c : ℕ) (log : List Entry) : List Event := log.reverse.flatMap (Entry.handedTo c)

/-- The consumer is subscribed: registered, not yet removed, and the bus not yet closed. -/
def subscribed (c : ℕ) : List Entry → Bool
  | [] => false
  | x :: log =>
    match x with
    | .subscribed c' => c' = c || subscribed c log
    | .removed c' => c' ≠ c && subscribed c log
    | .closing => false
    | _ => subscribed c log

def matching (c : ℕ) (wants : String → Bool) : List Entry → List Event
  | [] => []
  | x :: log =>
    match x with
    | .published e =>
      if subscribed c log && wants e.type then matching c wants log ++ [e]
      else matching c wants log
    | _ => matching c wants log

/-- The consumer was subscribed when the first `Close` took the lock. -/
def heldByClose (c : ℕ) : List Entry → Bool
  | [] => false
  | x :: log =>
    match x with
    | .closing => subscribed c log
    | _ => heldByClose c log

/-- An unsubscribe of it returned, or the first `Close` returned nil and the consumer was subscribed
when it began. -/
def Ends (c : ℕ) : Entry → List Entry → Prop
  | .unsubscribed c', _ => c' = c
  | .closed, older => heldByClose c older = true
  | _, _ => False

@[simp] theorem accepted_cons (c : ℕ) (x : Entry) (log : List Entry) :
    accepted c (x :: log) = accepted c log ++ x.acceptedFor c := by
  simp [accepted]

@[simp] theorem dropped_cons (c : ℕ) (x : Entry) (log : List Entry) :
    dropped c (x :: log) = dropped c log ++ x.droppedFor c := by
  simp [dropped]

@[simp] theorem handed_cons (c : ℕ) (x : Entry) (log : List Entry) :
    handed c (x :: log) = handed c log ++ x.handedTo c := by
  simp [handed]

section Unnamed

variable {c : ℕ} {x : Entry} (h : x.about c = false)
include h

theorem acceptedFor_eq_nil : x.acceptedFor c = [] := by
  cases x <;> simp_all [Entry.about, Entry.acceptedFor]

theorem droppedFor_eq_nil : x.droppedFor c = [] := by
  cases x <;> simp_all [Entry.about, Entry.droppedFor]

theorem handedTo_eq_nil : x.handedTo c = [] := by
  cases x <;> simp_all [Entry.about, Entry.handedTo]

end Unnamed

section Unnamed

variable {c : ℕ} {log : List Entry} (h : ∀ x ∈ log, x.about c = false)
include h

theorem accepted_eq_nil : accepted c log = [] :=
  flatMap_eq_nil_iff.mpr fun x hx => acceptedFor_eq_nil (h x (mem_reverse.mp hx))

theorem dropped_eq_nil : dropped c log = [] :=
  flatMap_eq_nil_iff.mpr fun x hx => droppedFor_eq_nil (h x (mem_reverse.mp hx))

theorem handed_eq_nil : handed c log = [] :=
  flatMap_eq_nil_iff.mpr fun x hx => handedTo_eq_nil (h x (mem_reverse.mp hx))

theorem subscribed_eq_false : subscribed c log = false := by
  induction log with
  | nil => rfl
  | cons x log ih =>
    cases x <;> simp_all [subscribed, Entry.about]

theorem matching_eq_nil (wants : String → Bool) : matching c wants log = [] := by
  induction log with
  | nil => rfl
  | cons x log ih =>
    have htl : ∀ y ∈ log, y.about c = false := fun y hy => h y (mem_cons_of_mem _ hy)
    have hlog := ih htl
    cases x <;> simp [matching, hlog, subscribed_eq_false htl]

end Unnamed

/-! ## The effects of a step -/

/-- The part of the shared memory that delivery rests on. -/
structure Bus.Holds (b : Bus ι) (consumers : List Subscriber) (subscribers : List ℕ) (closed : Bool)
    (log : List Entry) : Prop where
  consumers : b.consumers = consumers
  subscribers : b.subscribers = subscribers
  closed : b.closed = closed
  log : b.log = log

/-- What a fan-out does, under the read lock. -/
inductive Fanout (b b' : Bus ι) : Prop
  | published (e : Event) (h : b'.Holds b.consumers b.subscribers b.closed (.published e :: b.log))
  | accepted (c : ℕ) (e : Event) (s : Subscriber) (q : Chan Event) (hs : b.consumers[c]? = some s)
      (hlisted : c ∈ b.subscribers) (hsend : s.queue.send e = some q)
      (h : b'.Holds (b.consumers.set c { s with queue := q }) b.subscribers b.closed
        (.accepted c e :: b.log))
  | dropped (c : ℕ) (e : Event) (s : Subscriber) (hs : b.consumers[c]? = some s)
      (h : b'.Holds (b.consumers.set c { s with dropped := s.dropped + 1 }) b.subscribers b.closed
        (.dropped c e :: b.log))

/-- What is done under the write lock. -/
inductive Relist (b b' : Bus ι) : Prop
  | subscribed (s : Subscriber) (hqueue : s.queue.buffer = []) (hstop : s.stop = false)
      (hphase : s.phase = .serving) (hdropped : s.dropped = 0) (hopen : b.closed = false)
      (h : b'.Holds (b.consumers ++ [s]) (b.subscribers ++ [b.consumers.length]) b.closed
        (.subscribed b.consumers.length :: b.log))
  | removed (c : ℕ) (hc : c < b.consumers.length)
      (h : b'.Holds b.consumers (b.subscribers.erase c) b.closed (.removed c :: b.log))
  | closing (hopen : b.closed = false) (h : b'.Holds b.consumers [] true (.closing :: b.log))

/-- What is done without a lock. -/
inductive Serve (b b' : Bus ι) : Prop
  | quiet (h : b'.Holds b.consumers b.subscribers b.closed b.log)
  | told (c : ℕ) (hgone : c ∉ b.subscribers)
      (h : b'.Holds (b.shutdown c).consumers b.subscribers b.closed b.log)
  | unsubscribed (c : ℕ) (hdone : b.isDone c = true)
      (h : b'.Holds b.consumers b.subscribers b.closed (.unsubscribed c :: b.log))
  | closed (hdone : ∀ c, heldByClose c b.log = true → b.isDone c = true)
      (h : b'.Holds b.consumers b.subscribers b.closed (.closed :: b.log))
  | ran (c : ℕ) (s s' : Subscriber) (pick : Subscriber.Case) (hs : b.consumers[c]? = some s)
      (hrun : s.run pick = some s')
      (h : b'.Holds (b.consumers.set c s') b.subscribers b.closed b.log)
  | handed (c : ℕ) (s : Subscriber) (e : Event) (stopped : Bool) (hs : b.consumers[c]? = some s)
      (hphase : s.phase = .delivering e stopped)
      (h : b'.Holds (b.consumers.set c { s with phase := if stopped then .draining else .serving })
        b.subscribers b.closed (.handed c e :: b.log))

/-- What a step can do to the shared memory, with what the code has made sure of by then. -/
inductive Effect (b b' : Bus ι) : Prop
  | fanout (h : Fanout b b')
  | relist (h : Relist b b')
  | serve (h : Serve b b')

/-! ## Registration -/

/-- The list of consumers is what the history says, and the history names only consumers there
are. -/
structure Bus.Registered (b : Bus ι) : Prop where
  nodup : b.subscribers.Nodup
  bound : ∀ c ∈ b.subscribers, c < b.consumers.length
  shut : b.closed = true → b.subscribers = []
  listed : ∀ c, subscribed c b.log = true ↔ c ∈ b.subscribers
  unnamed : ∀ c, b.consumers.length ≤ c → ∀ x ∈ b.log, x.about c = false

namespace Bus.Registered

variable {b b' : Bus ι} (h : b.Registered) (hlength : b'.consumers.length = b.consumers.length)
  (hsubs : b'.subscribers = b.subscribers) (hclosed : b'.closed = b.closed)
include h hlength hsubs hclosed

theorem of_listed (hls : ∀ c, subscribed c b'.log = subscribed c b.log)
    (hnm : ∀ c, b.consumers.length ≤ c → ∀ x ∈ b'.log, x.about c = false) :
    b'.Registered where
  nodup := hsubs ▸ h.nodup
  bound := by
    rw [hsubs, hlength]
    exact h.bound
  shut := by
    rw [hsubs, hclosed]
    exact h.shut
  listed := by
    intro c
    rw [hsubs, hls]
    exact h.listed c
  unnamed := by
    rw [hlength]
    exact hnm

theorem of_same (hlog : b'.log = b.log) : b'.Registered := by
  refine h.of_listed hlength hsubs hclosed (fun c => by rw [hlog]) ?_
  rw [hlog]
  exact h.unnamed

theorem of_cons {x : Entry} (hlog : b'.log = x :: b.log)
    (hls : ∀ c, subscribed c (x :: b.log) = subscribed c b.log)
    (hnm : ∀ c, b.consumers.length ≤ c → x.about c = false) : b'.Registered := by
  refine h.of_listed hlength hsubs hclosed (fun c => by rw [hlog, hls]) ?_
  rw [hlog]
  intro c hc x hx
  rcases mem_cons.mp hx with rfl | hx
  · exact hnm c hc
  · exact h.unnamed c hc x hx

end Bus.Registered

variable {b b' : Bus ι} {c : ℕ} {s s' : Subscriber} {x : Entry}

theorem lt_length_of_isDone (h : b.isDone c = true) : c < b.consumers.length := by
  by_contra hc
  rw [Bus.isDone, List.getElem?_eq_none (Nat.not_lt.mp hc)] at h
  cases h

theorem not_about_of_lt {c' : ℕ} (hc : c < b.consumers.length) (hc' : b.consumers.length ≤ c') :
    decide (c = c') = false := by
  rw [decide_eq_false_iff_not]
  omega

theorem registered_step (h : b.Registered) (he : Effect b b') : b'.Registered := by
  cases he with
  | fanout hfn =>
    cases hfn with
    | published e hb =>
      exact h.of_cons (by rw [hb.consumers]) hb.subscribers hb.closed hb.log (fun c => rfl)
        fun c hc => rfl
    | accepted c e s q hs hls hsn hb | dropped c e s hs hb =>
      exact h.of_cons (by rw [hb.consumers, length_set]) hb.subscribers hb.closed hb.log
        (fun c => rfl) fun c' => not_about_of_lt (List.getElem?_eq_some_iff.mp hs).1
  | relist hrl =>
    cases hrl with
    | subscribed s hqu hst hph hdr hon hb =>
      have hnew : b.consumers.length ∉ b.subscribers :=
        fun hin => absurd (h.bound _ hin) (Nat.lt_irrefl _)
      refine ⟨?_, ?_, ?_, ?_, ?_⟩
      · rw [hb.subscribers, ← concat_eq_append]
        exact h.nodup.concat hnew
      · rw [hb.subscribers, hb.consumers, length_append, length_singleton]
        intro c hc
        rcases mem_append.mp hc with hc | hc
        · have := h.bound c hc
          omega
        · rw [mem_singleton.mp hc]
          omega
      · rw [hb.closed, hon]
        intro hclosed
        cases hclosed
      · intro c
        rw [hb.log, hb.subscribers, subscribed, Bool.or_eq_true, h.listed, decide_eq_true_eq,
          mem_append, mem_singleton, or_comm, eq_comm]
      · rw [hb.consumers, hb.log, length_append, length_singleton]
        intro c hc x hx
        rcases mem_cons.mp hx with rfl | hx
        · exact decide_eq_false (by omega)
        · exact h.unnamed c (by omega) x hx
    | removed c hc hb =>
      refine ⟨?_, ?_, ?_, ?_, ?_⟩
      · rw [hb.subscribers]
        exact h.nodup.erase c
      · rw [hb.subscribers, hb.consumers]
        intro c' hc'
        exact h.bound c' (mem_of_mem_erase hc')
      · rw [hb.subscribers, hb.closed]
        intro hclosed
        rw [h.shut hclosed, erase_nil]
      · intro c'
        rw [hb.log, hb.subscribers, subscribed, Bool.and_eq_true, h.listed, decide_eq_true_eq,
          h.nodup.mem_erase_iff, ne_comm]
      · rw [hb.consumers, hb.log]
        intro c' hc' x hx
        rcases mem_cons.mp hx with rfl | hx
        · exact not_about_of_lt hc hc'
        · exact h.unnamed c' hc' x hx
    | closing hon hb =>
      refine ⟨?_, ?_, fun _ => hb.subscribers, ?_, ?_⟩
      · rw [hb.subscribers]
        exact nodup_nil
      · rw [hb.subscribers]
        intro c hc
        cases hc
      · intro c
        rw [hb.log, hb.subscribers, subscribed]
        simp
      · rw [hb.consumers, hb.log]
        intro c hc x hx
        rcases mem_cons.mp hx with rfl | hx
        · rfl
        · exact h.unnamed c hc x hx
  | serve hsr =>
    cases hsr with
    | quiet hb => exact h.of_same (by rw [hb.consumers]) hb.subscribers hb.closed hb.log
    | told c hgn hb =>
      exact h.of_same (by rw [hb.consumers, Bus.shutdown, length_modify]) hb.subscribers
        hb.closed hb.log
    | unsubscribed c hdn hb =>
      exact h.of_cons (by rw [hb.consumers]) hb.subscribers hb.closed hb.log (fun c => rfl)
        fun c' => not_about_of_lt (lt_length_of_isDone hdn)
    | closed hdn hb =>
      exact h.of_cons (by rw [hb.consumers]) hb.subscribers hb.closed hb.log (fun c => rfl)
        fun c hc => rfl
    | ran c s s' pick hs hrun hb =>
      exact h.of_same (by rw [hb.consumers, length_set]) hb.subscribers hb.closed hb.log
    | handed c s e stopped hs hph hb =>
      exact h.of_cons (by rw [hb.consumers, length_set]) hb.subscribers hb.closed hb.log
        (fun c => rfl) fun c' => not_about_of_lt (List.getElem?_eq_some_iff.mp hs).1

/-! ## One consumer -/

def Phase.leaving : Phase → Bool
  | .serving => false
  | .delivering _ stopped => stopped
  | .draining => true
  | .done => true

/-- The record of a consumer is what the history says of it. -/
structure Tracks (subscribers : List ℕ) (log : List Entry) (c : ℕ) (s : Subscriber) : Prop where
  flow : accepted c log = handed c log ++ s.inHand.toList ++ s.queue.buffer
  count : s.dropped = (dropped c log).length
  stopped : s.stop = true → c ∉ subscribers
  told : s.phase.leaving = true → s.stop = true
  drained : s.isDone = true → s.queue.buffer = []

theorem inHand_of_isDone (h : s.isDone = true) : s.inHand = none := by
  unfold Subscriber.isDone at h
  split at h
  · rename_i hph
    simp [Subscriber.inHand, hph]
  · cases h

theorem leaving_of_isDone (h : s.isDone = true) : s.phase.leaving = true := by
  unfold Subscriber.isDone at h
  split at h
  · rename_i hph
    rw [hph]
    rfl
  · cases h

namespace Tracks

variable {subscribers subscribers' : List ℕ} {log : List Entry} {c : ℕ} {s : Subscriber}

section

variable (h : Tracks subscribers log c s)
include h

theorem mono (hsubs : c ∈ subscribers' → c ∈ subscribers) : Tracks subscribers' log c s :=
  { h with stopped := fun hst hin => h.stopped hst (hsubs hin) }

theorem cons {x : Entry} (hac : x.acceptedFor c = [])
    (hdr : x.droppedFor c = []) (hhn : x.handedTo c = []) :
    Tracks subscribers (x :: log) c s := by
  refine ⟨?_, ?_, h.stopped, h.told, h.drained⟩
  · rw [accepted_cons, handed_cons, hac, hhn, append_nil, append_nil]
    exact h.flow
  · rw [dropped_cons, hdr, append_nil]
    exact h.count

theorem cons_of_not_about {x : Entry} (hx : x.about c = false) :
    Tracks subscribers (x :: log) c s :=
  h.cons (acceptedFor_eq_nil hx) (droppedFor_eq_nil hx) (handedTo_eq_nil hx)

theorem accept (hls : c ∈ subscribers) {e : Event}
    {q : Chan Event} (hsn : s.queue.send e = some q) :
    Tracks subscribers (.accepted c e :: log) c { s with queue := q } := by
  refine ⟨?_, ?_, h.stopped, h.told, fun hdn => ?_⟩
  · rw [accepted_cons, handed_cons, h.flow]
    simp [Entry.acceptedFor, Entry.handedTo, Chan.buffer_of_send hsn, Subscriber.inHand]
  · rw [dropped_cons, show (Entry.accepted c e).droppedFor c = [] from rfl, append_nil]
    exact h.count
  · exact absurd hls (h.stopped (h.told (leaving_of_isDone hdn)))

theorem drop (e : Event) :
    Tracks subscribers (.dropped c e :: log) c { s with dropped := s.dropped + 1 } := by
  refine ⟨?_, ?_, h.stopped, h.told, h.drained⟩
  · rw [accepted_cons, handed_cons, show (Entry.dropped c e).acceptedFor c = [] from rfl,
      show (Entry.dropped c e).handedTo c = [] from rfl, append_nil, append_nil]
    exact h.flow
  · rw [dropped_cons, length_append, ← h.count]
    simp [Entry.droppedFor]

theorem tell (hgn : c ∉ subscribers) : Tracks subscribers log c { s with stop := true } :=
  ⟨h.flow, h.count, fun _ => hgn, fun _ => rfl, h.drained⟩

theorem run {pick : Subscriber.Case} {s' : Subscriber}
    (hrun : s.run pick = some s') : Tracks subscribers log c s' := by
  unfold Subscriber.run at hrun
  split at hrun
  · rename_i hph
    obtain ⟨⟨e, q⟩, hrc, rfl⟩ := Option.map_eq_some_iff.mp hrun
    refine ⟨?_, h.count, h.stopped, ?_, ?_⟩
    · rw [h.flow, Chan.buffer_of_recv hrc]
      simp [Subscriber.inHand, hph]
    · intro hlv
      cases hlv
    · intro hdn
      cases hdn
  · rename_i hph
    split_ifs at hrun with hst
    cases hrun
    refine ⟨?_, h.count, h.stopped, fun _ => hst, ?_⟩
    · rw [h.flow]
      simp [Subscriber.inHand, hph]
    · intro hdn
      cases hdn
  · rename_i hph
    have hst : s.stop = true := h.told (by rw [hph]; rfl)
    split at hrun
    · rename_i e q hrc
      cases hrun
      refine ⟨?_, h.count, h.stopped, fun _ => hst, ?_⟩
      · rw [h.flow, Chan.buffer_of_recv hrc]
        simp [Subscriber.inHand, hph]
      · intro hdn
        cases hdn
    · rename_i hrc
      cases hrun
      refine ⟨?_, h.count, h.stopped, fun _ => hst, fun _ => Chan.recv_eq_none.mp hrc⟩
      rw [h.flow]
      simp [Subscriber.inHand, hph]
  · cases hrun
  · cases hrun

theorem hand {e : Event} {stopped : Bool} (hph : s.phase = .delivering e stopped) :
    Tracks subscribers (.handed c e :: log) c
      { s with phase := if stopped then .draining else .serving } := by
  refine ⟨?_, ?_, h.stopped, fun hlv => h.told ?_, fun hdn => ?_⟩
  · rw [accepted_cons, handed_cons, h.flow]
    cases stopped <;> simp [Entry.acceptedFor, Entry.handedTo, Subscriber.inHand, hph]
  · rw [dropped_cons, show (Entry.handed c e).droppedFor c = [] from rfl, append_nil]
    exact h.count
  · rw [hph]
    cases stopped
    · cases hlv
    · rfl
  · cases stopped <;> cases hdn

end

end Tracks

def Bus.Tracked (b : Bus ι) : Prop :=
  ∀ c s, b.consumers[c]? = some s → Tracks b.subscribers b.log c s

theorem tracked_of_set (h : b.Tracked)
    (hb : b'.Holds (b.consumers.set c s') b.subscribers b.closed (x :: b.log))
    (hx : ∀ c', c' ≠ c → x.about c' = false) (hmv : Tracks b.subscribers (x :: b.log) c s') :
    b'.Tracked := by
  intro c' t ht
  rw [hb.consumers] at ht
  rw [hb.subscribers, hb.log]
  rcases eq_of_getElem?_set ht with ⟨rfl, rfl⟩ | ⟨hne, ht⟩
  · exact hmv
  · exact (h c' t ht).cons_of_not_about (hx c' hne)

theorem tracked_of_cons (h : b.Tracked) {subscribers : List ℕ} {closed : Bool}
    (hb : b'.Holds b.consumers subscribers closed (x :: b.log))
    (hsubs : ∀ c ∈ subscribers, c ∈ b.subscribers)
    (hx : ∀ c, x.acceptedFor c = [] ∧ x.droppedFor c = [] ∧ x.handedTo c = []) : b'.Tracked := by
  intro c s hs
  rw [hb.consumers] at hs
  rw [hb.subscribers, hb.log]
  obtain ⟨hac, hdr, hhn⟩ := hx c
  exact ((h c s hs).cons hac hdr hhn).mono (hsubs c)

theorem tracked_step (hreg : b.Registered) (h : b.Tracked) (he : Effect b b') : b'.Tracked := by
  cases he with
  | fanout hfn =>
    cases hfn with
    | published e hb => exact tracked_of_cons h hb (fun c hc => hc) fun c => ⟨rfl, rfl, rfl⟩
    | accepted c e s q hs hls hsn hb =>
      exact tracked_of_set h hb (fun c' hne => decide_eq_false hne.symm)
        ((h c s hs).accept hls hsn)
    | dropped c e s hs hb =>
      exact tracked_of_set h hb (fun c' hne => decide_eq_false hne.symm) ((h c s hs).drop e)
  | relist hrl =>
    cases hrl with
    | subscribed s hqu hst hph hdr hon hb =>
      intro c t ht
      rw [hb.consumers] at ht
      rw [hb.subscribers, hb.log]
      rcases eq_of_getElem?_concat ht with ht | ⟨rfl, rfl⟩
      · have hlt := (List.getElem?_eq_some_iff.mp ht).1
        refine ((h c t ht).cons rfl rfl rfl).mono fun hc => ?_
        rcases mem_append.mp hc with hc | hc
        · exact hc
        · rw [mem_singleton.mp hc] at hlt
          exact absurd hlt (Nat.lt_irrefl _)
      · have hnn := hreg.unnamed _ le_rfl
        refine Tracks.cons ⟨?_, ?_, ?_, ?_, ?_⟩ rfl rfl rfl
        · rw [accepted_eq_nil hnn, handed_eq_nil hnn, hqu]
          simp [Subscriber.inHand, hph]
        · rw [dropped_eq_nil hnn, hdr]
          rfl
        · rw [hst]
          intro hst
          cases hst
        · rw [hph]
          intro hlv
          cases hlv
        · intro _
          exact hqu
    | removed c hc hb =>
      exact tracked_of_cons h hb (fun c => mem_of_mem_erase) fun c => ⟨rfl, rfl, rfl⟩
    | closing hon hb =>
      exact tracked_of_cons h hb (fun c hc => by cases hc) fun c => ⟨rfl, rfl, rfl⟩
  | serve hsr =>
    cases hsr with
    | quiet hb =>
      intro c s hs
      rw [hb.consumers] at hs
      rw [hb.subscribers, hb.log]
      exact h c s hs
    | told c hgn hb =>
      intro c' t ht
      rw [hb.consumers, Bus.shutdown, List.getElem?_modify] at ht
      rw [hb.subscribers, hb.log]
      split_ifs at ht with hc
      · obtain ⟨s, hs, rfl⟩ := Option.map_eq_some_iff.mp ht
        exact (h c' s hs).tell (hc ▸ hgn)
      · obtain ⟨s, hs, rfl⟩ := Option.map_eq_some_iff.mp ht
        exact h c' s hs
    | unsubscribed c hdn hb =>
      exact tracked_of_cons h hb (fun c hc => hc) fun c => ⟨rfl, rfl, rfl⟩
    | closed hdn hb => exact tracked_of_cons h hb (fun c hc => hc) fun c => ⟨rfl, rfl, rfl⟩
    | ran c s s' pick hs hrun hb =>
      intro c' t ht
      rw [hb.consumers] at ht
      rw [hb.subscribers, hb.log]
      rcases eq_of_getElem?_set ht with ⟨rfl, rfl⟩ | ⟨-, ht⟩
      · exact (h c' s hs).run hrun
      · exact h c' t ht
    | handed c s e stopped hs hph hb =>
      exact tracked_of_set h hb (fun c' hne => decide_eq_false hne.symm) ((h c s hs).hand hph)

/-! ## Consumers that are done -/

theorem isDone_iff : b.isDone c = true ↔ ∃ s, b.consumers[c]? = some s ∧ s.isDone = true := by
  rw [Bus.isDone, Option.any_eq_true]

structure Lasts (s s' : Subscriber) : Prop where
  wants : s'.wants = s.wants
  done : s.isDone = true → s'.isDone = true

theorem lasts_of_set {c' : ℕ} {t : Subscriber} (hs : b.consumers[c]? = some s)
    (hb : b'.consumers = b.consumers.set c s') (hls : Lasts s s')
    (ht : b.consumers[c']? = some t) : ∃ t', b'.consumers[c']? = some t' ∧ Lasts t t' := by
  rw [hb]
  by_cases hc : c' = c
  · subst hc
    obtain rfl : s = t := Option.some.inj (hs.symm.trans ht)
    exact ⟨s', List.getElem?_set_self (List.getElem?_eq_some_iff.mp hs).1, hls⟩
  · exact ⟨t, by rw [List.getElem?_set_ne (Ne.symm hc), ht], rfl, id⟩

theorem lasts_of_run {pick : Subscriber.Case} (h : s.run pick = some s') : Lasts s s' := by
  have hdn : s.isDone = false := by
    cases hph : s.phase with
    | done => simp [Subscriber.run, hph] at h
    | serving | delivering e stopped | draining => simp [Subscriber.isDone, hph]
  refine ⟨?_, fun h => by rw [hdn] at h; cases h⟩
  unfold Subscriber.run at h
  split at h
  · obtain ⟨r, -, rfl⟩ := Option.map_eq_some_iff.mp h
    rfl
  · split_ifs at h
    cases h
    rfl
  · split at h <;> cases h <;> rfl
  · cases h
  · cases h

theorem consumer_step (he : Effect b b') {t : Subscriber} (ht : b.consumers[c]? = some t) :
    ∃ t', b'.consumers[c]? = some t' ∧ Lasts t t' := by
  have hsm : b'.consumers = b.consumers → ∃ t', b'.consumers[c]? = some t' ∧ Lasts t t' :=
    fun hb => ⟨t, by rw [hb, ht], rfl, id⟩
  cases he with
  | fanout hfn =>
    cases hfn with
    | published e hb => exact hsm hb.consumers
    | accepted c' e s q hs hls hsn hb =>
      exact lasts_of_set hs hb.consumers ⟨rfl, fun hdn => hdn⟩ ht
    | dropped c' e s hs hb => exact lasts_of_set hs hb.consumers ⟨rfl, fun hdn => hdn⟩ ht
  | relist hrl =>
    cases hrl with
    | subscribed s hqu hst hph hdr hon hb =>
      refine ⟨t, ?_, rfl, id⟩
      rw [hb.consumers, List.getElem?_append_left (List.getElem?_eq_some_iff.mp ht).1, ht]
    | removed c' hc hb | closing hon hb => exact hsm hb.consumers
  | serve hsr =>
    cases hsr with
    | quiet hb => exact hsm hb.consumers
    | told c' hgn hb =>
      refine ⟨if c' = c then { t with stop := true } else t, ?_, ?_⟩
      · rw [hb.consumers, Bus.shutdown, List.getElem?_modify, ht]
        split_ifs <;> rfl
      · split_ifs <;> exact ⟨rfl, fun hdn => hdn⟩
    | unsubscribed c' hdn hb | closed hdn hb => exact hsm hb.consumers
    | ran c' s s' pick hs hrun hb => exact lasts_of_set hs hb.consumers (lasts_of_run hrun) ht
    | handed c' s e stopped hs hph hb =>
      refine lasts_of_set hs hb.consumers ⟨rfl, fun hdn => ?_⟩ ht
      simp [Subscriber.isDone, hph] at hdn

theorem isDone_step (he : Effect b b') (h : b.isDone c = true) : b'.isDone c = true := by
  obtain ⟨t, ht, hdn⟩ := isDone_iff.mp h
  obtain ⟨t', ht', hls⟩ := consumer_step he ht
  exact isDone_iff.mpr ⟨t', ht', hls.done hdn⟩

theorem wants_eq (hs : b.consumers[c]? = some s) : b.wants c = s.wants := by
  funext t
  rw [Bus.wants, hs, Option.any_some]

theorem wants_step (he : Effect b b') (hc : c < b.consumers.length) : b'.wants c = b.wants c := by
  have hs : b.consumers[c]? = some b.consumers[c] := List.getElem?_eq_getElem hc
  obtain ⟨s', hs', hls⟩ := consumer_step he hs
  rw [wants_eq hs', wants_eq hs, hls.wants]

theorem accepted_eq_handed (h : b.Tracked) (hdn : b.isDone c = true) :
    accepted c b.log = handed c b.log := by
  obtain ⟨s, hs, hdn⟩ := isDone_iff.mp hdn
  rw [(h c s hs).flow, inHand_of_isDone hdn, (h c s hs).drained hdn]
  simp

theorem not_mem_of_isDone (h : b.Tracked) (hdn : b.isDone c = true) : c ∉ b.subscribers := by
  obtain ⟨s, hs, hdn⟩ := isDone_iff.mp hdn
  exact (h c s hs).stopped ((h c s hs).told (leaving_of_isDone hdn))

/-- What ended the deliveries to a consumer found it done and handed all it was accepted for, and
nothing has been accepted since. -/
def Bus.Settled (b : Bus ι) : Prop :=
  ∀ c newer x older, b.log = newer ++ x :: older → Ends c x older →
    b.isDone c = true ∧ accepted c older = handed c older ∧ accepted c newer = []

theorem settled_of_cons (h : b.Settled) (hlog : b'.log = x :: b.log)
    (hdn : ∀ c, b.isDone c = true → b'.isDone c = true)
    (hen : ∀ c, Ends c x b.log → b'.isDone c = true ∧ accepted c b.log = handed c b.log)
    (hac : ∀ c, b.isDone c = true → x.acceptedFor c = []) : b'.Settled := by
  intro c newer y older hsp hy
  rw [hlog] at hsp
  rcases cons_eq_append_iff.mp hsp with ⟨rfl, hhd⟩ | ⟨newer, rfl, htl⟩
  · cases hhd
    exact ⟨(hen c hy).1, (hen c hy).2, rfl⟩
  · obtain ⟨hc, hsm, hnn⟩ := h c newer y older htl hy
    refine ⟨hdn c hc, hsm, ?_⟩
    rw [accepted_cons, hnn, hac c hc]
    rfl

theorem settled_step (htr : b.Tracked) (h : b.Settled) (he : Effect b b') : b'.Settled := by
  have hdn : ∀ c, b.isDone c = true → b'.isDone c = true := fun c => isDone_step he
  have hsm : b'.log = b.log → b'.Settled := by
    intro hlog c newer x older hsp hx
    obtain ⟨hc, hrs⟩ := h c newer x older (hlog ▸ hsp) hx
    exact ⟨hdn c hc, hrs⟩
  cases he with
  | fanout hfn =>
    cases hfn with
    | published e hb => exact settled_of_cons h hb.log hdn (fun c => False.elim) fun c _ => rfl
    | accepted c e s q hs hls hsn hb =>
      refine settled_of_cons h hb.log hdn (fun c => False.elim) fun c' hc' => ?_
      refine acceptedFor_eq_nil (decide_eq_false ?_)
      rintro rfl
      exact not_mem_of_isDone htr hc' hls
    | dropped c e s hs hb =>
      exact settled_of_cons h hb.log hdn (fun c => False.elim) fun c _ => rfl
  | relist hrl =>
    cases hrl with
    | subscribed s hqu hst hph hdr hon hb =>
      exact settled_of_cons h hb.log hdn (fun c => False.elim) fun c _ => rfl
    | removed c hc hb | closing hon hb =>
      exact settled_of_cons h hb.log hdn (fun c => False.elim) fun c _ => rfl
  | serve hsr =>
    cases hsr with
    | quiet hb | told c hgn hb => exact hsm hb.log
    | unsubscribed c hend hb =>
      refine settled_of_cons h hb.log hdn (fun c' hc' => ?_) fun c _ => rfl
      obtain rfl : c = c' := hc'
      exact ⟨hdn c hend, accepted_eq_handed htr hend⟩
    | closed hend hb =>
      refine settled_of_cons h hb.log hdn (fun c hc => ?_) fun c _ => rfl
      exact ⟨hdn c (hend c hc), accepted_eq_handed htr (hend c hc)⟩
    | ran c s s' pick hs hrun hb => exact hsm hb.log
    | handed c s e stopped hs hph hb =>
      exact settled_of_cons h hb.log hdn (fun c => False.elim) fun c _ => rfl

/-! ## What lasts -/

/-- Nothing is undone: consumers stay, one that left the list does not come back, and a bus stays
closed, with the consumers it had then. -/
theorem lasting_step (he : Effect b b') :
    b.consumers.length ≤ b'.consumers.length ∧
      (∀ c < b.consumers.length, c ∈ b'.subscribers → c ∈ b.subscribers) ∧
      (b.closed = true → b'.closed = true ∧ ∀ c, heldByClose c b'.log = heldByClose c b.log) := by
  have hsm : ∀ {consumers : List Subscriber} {log : List Entry},
      b'.Holds consumers b.subscribers b.closed log → consumers.length = b.consumers.length →
      (∀ c, heldByClose c log = heldByClose c b.log) →
      b.consumers.length ≤ b'.consumers.length ∧
        (∀ c < b.consumers.length, c ∈ b'.subscribers → c ∈ b.subscribers) ∧
        (b.closed = true → b'.closed = true ∧ ∀ c, heldByClose c b'.log = heldByClose c b.log) := by
    intro consumers log hb hlength hlog
    rw [hb.consumers, hb.subscribers, hb.closed, hb.log, hlength]
    exact ⟨le_rfl, fun c _ hc => hc, fun hclosed => ⟨hclosed, hlog⟩⟩
  cases he with
  | fanout hfn =>
    cases hfn with
    | published e hb => exact hsm hb rfl fun c => rfl
    | accepted c e s q hs hls hsn hb | dropped c e s hs hb => exact hsm hb length_set fun c => rfl
  | relist hrl =>
    cases hrl with
    | subscribed s hqu hst hph hdr hon hb =>
      rw [hb.consumers, hb.subscribers, hon, length_append]
      refine ⟨Nat.le_add_right _ _, fun c hlt hc => ?_, fun hclosed => by cases hclosed⟩
      rcases mem_append.mp hc with hc | hc
      · exact hc
      · rw [mem_singleton.mp hc] at hlt
        exact absurd hlt (Nat.lt_irrefl _)
    | removed c hc hb =>
      rw [hb.consumers, hb.subscribers, hb.closed, hb.log]
      exact ⟨le_rfl, fun c _ => mem_of_mem_erase, fun hclosed => ⟨hclosed, fun c => rfl⟩⟩
    | closing hon hb =>
      rw [hb.consumers, hb.subscribers, hon]
      exact ⟨le_rfl, fun c _ hc => (not_mem_nil hc).elim, fun hclosed => by cases hclosed⟩
  | serve hsr =>
    cases hsr with
    | quiet hb => exact hsm hb rfl fun c => rfl
    | told c hgn hb => exact hsm hb (length_modify _ _ _) fun c => rfl
    | unsubscribed c hdn hb | closed hdn hb => exact hsm hb rfl fun c => rfl
    | ran c s s' pick hs hrun hb | handed c s e stopped hs hph hb =>
      exact hsm hb length_set fun c => rfl

theorem log_step (he : Effect b b') : b'.log = b.log ∨ ∃ x, b'.log = x :: b.log := by
  cases he with
  | fanout hfn =>
    cases hfn with
    | published e hb | accepted c e s q hs hls hsn hb | dropped c e s hs hb =>
      exact .inr ⟨_, hb.log⟩
  | relist hrl =>
    cases hrl with
    | subscribed s hqu hst hph hdr hon hb | removed c hc hb | closing hon hb =>
      exact .inr ⟨_, hb.log⟩
  | serve hsr =>
    cases hsr with
    | quiet hb | told c hgn hb => exact .inl hb.log
    | unsubscribed c hdn hb | closed hdn hb => exact .inr ⟨_, hb.log⟩
    | ran c s s' pick hs hrun hb => exact .inl hb.log
    | handed c s e stopped hs hph hb => exact .inr ⟨_, hb.log⟩

theorem handed_mono (he : Effect b b') {e : Event} (h : e ∈ handed c b.log) :
    e ∈ handed c b'.log := by
  rcases log_step he with hlog | ⟨x, hlog⟩
  · rw [hlog]
    exact h
  · rw [hlog, handed_cons]
    exact mem_append_left _ h

theorem offered_of_serve (h : Serve b b') (c : ℕ) (wants : String → Bool) :
    accepted c b'.log = accepted c b.log ∧ dropped c b'.log = dropped c b.log ∧
      matching c wants b'.log = matching c wants b.log := by
  cases h with
  | quiet hb | told c' hgn hb => simp only [hb.log, and_self]
  | unsubscribed c' hdn hb | closed hdn hb =>
    rw [hb.log, accepted_cons, dropped_cons]
    exact ⟨append_nil _, append_nil _, rfl⟩
  | ran c' s s' pick hs hrun hb => simp only [hb.log, and_self]
  | handed c' s e stopped hs hph hb =>
    rw [hb.log, accepted_cons, dropped_cons]
    exact ⟨append_nil _, append_nil _, rfl⟩

theorem offered_of_relist (h : Relist b b') (c : ℕ) (wants : String → Bool) :
    accepted c b'.log = accepted c b.log ∧ dropped c b'.log = dropped c b.log ∧
      matching c wants b'.log = matching c wants b.log := by
  cases h with
  | subscribed s hqu hst hph hdr hon hb | removed c' hc hb | closing hon hb =>
    rw [hb.log, accepted_cons, dropped_cons]
    exact ⟨append_nil _, append_nil _, rfl⟩

end Trove.Eventbus
