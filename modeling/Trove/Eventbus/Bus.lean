import Trove.Lib.Chan
import Trove.Eventbus.Types

/-!
# The event bus

The bus and the calls that run on it at once. `Publish` stamps its event, draws the id, and fans out
under the read lock, one consumer a step; `Subscribe`, the function it returns and `Close` take the
write lock, each for one step. Every consumer has a goroutine that hands the events of its queue to
its handler, and drains the queue when it is told to stop.
-/

namespace Trove.Eventbus

open Lib Meta

def defaultQueueDepth : ℕ := 1024

/-- What a consumer subscribes with. -/
structure Subscription where
  name : String
  types : List String
  handle : Bool
  queueDepth : ℤ

/-- Where the goroutine of a consumer stands. -/
inductive Phase
  | serving
  /-- The event is off the queue and the handler has not returned; the flag says that the consumer
  has been stopped. -/
  | delivering (e : Event) (stopped : Bool)
  | draining
  | done

/-- One registered consumer; `stop` says that its stop channel is closed. -/
structure Subscriber where
  name : String
  types : List String
  all : Bool
  queue : Chan Event
  stop : Bool
  phase : Phase
  dropped : ℕ

/-- What has happened so far, newest first. No code reads it. -/
inductive Entry
  | published (e : Event)
  | subscribed (c : ℕ)
  | removed (c : ℕ)
  | accepted (c : ℕ) (e : Event)
  | dropped (c : ℕ) (e : Event)
  | handed (c : ℕ) (e : Event)
  | unsubscribed (c : ℕ)
  | closing
  | closed

/-- The memory the calls share: the bus, and every consumer ever registered. -/
structure Bus (ι : Type) where
  ids : ι
  depth : ℕ
  subscribers : List ℕ
  closed : Bool
  (published refused dropped panicked : ℕ)
  consumers : List Subscriber
  log : List Entry

variable {ι : Type} (newID : ι → Time → String × ι)

/-- Nobody is registered. -/
def newBus (ids : ι) (queueDepth : ℤ) : Bus ι where
  ids := ids
  depth := if queueDepth ≤ 0 then defaultQueueDepth else queueDepth.toNat
  subscribers := []
  closed := false
  published := 0
  refused := 0
  dropped := 0
  panicked := 0
  consumers := []
  log := []

namespace Subscriber

def wants (s : Subscriber) (t : String) : Bool := s.all || t ∈ s.types

/-- The event taken off the queue and not yet handed over. -/
def inHand (s : Subscriber) : Option Event :=
  match s.phase with
  | .delivering e _ => some e
  | _ => none

def isDone (s : Subscriber) : Bool :=
  match s.phase with
  | .done => true
  | _ => false

/-- Which ready case of the outer `select` is taken. -/
inductive Case
  | queue
  | stop
  deriving DecidableEq

/-- One turn of `run` at a `select`; `none` when the case is not ready. -/
def run (s : Subscriber) (pick : Case) : Option Subscriber :=
  match s.phase, pick with
  | .serving, .queue =>
    s.queue.recv.map fun r => { s with queue := r.2, phase := .delivering r.1 false }
  | .serving, .stop => if s.stop then some { s with phase := .draining } else none
  | .draining, _ =>
    match s.queue.recv with
    | some r => some { s with queue := r.2, phase := .delivering r.1 true }
    | none => some { s with phase := .done }
  | .delivering _ _, _ => none
  | .done, _ => none

end Subscriber

namespace Bus

variable (b : Bus ι)

def wants (c : ℕ) (t : String) : Bool := b.consumers[c]?.any fun s => s.wants t

/-- Tell a consumer to stop. -/
def shutdown (c : ℕ) : Bus ι :=
  { b with consumers := b.consumers.modify c fun s => { s with stop := true } }

def isDone (c : ℕ) : Bool := b.consumers[c]?.any Subscriber.isDone

def newSubscriber (s : Subscription) : Subscriber where
  name := s.name
  types := s.types
  all := s.types.isEmpty
  queue := Chan.make Event (if s.queueDepth ≤ 0 then b.depth else s.queueDepth.toNat)
  stop := false
  phase := .serving
  dropped := 0

def subscribe (s : Subscription) : Except Invalid (Bus ι) :=
  if s.name = "" then .error .noName
  else if !s.handle then .error (.noHandler s.name)
  else
    match s.types.find? fun t => !validType t with
    | some t => .error (.wantsUnknown s.name t)
    | none =>
      if b.closed then .error .closed
      else
        .ok { b with
          consumers := b.consumers ++ [b.newSubscriber s]
          subscribers := b.subscribers ++ [b.consumers.length]
          log := .subscribed b.consumers.length :: b.log }

def offer (c : ℕ) (e : Event) : Bus ι :=
  match b.consumers[c]? with
  | none => b
  | some s =>
    if !s.wants e.type then b
    else
      match s.queue.send e with
      | some q =>
        { b with
          consumers := b.consumers.set c { s with queue := q }
          log := .accepted c e :: b.log }
      | none =>
        { b with
          consumers := b.consumers.set c { s with dropped := s.dropped + 1 }
          dropped := b.dropped + 1
          log := .dropped c e :: b.log }

def deliver (c : ℕ) (panics : Bool) : Option (Bus ι) :=
  match b.consumers[c]? with
  | some s =>
    match s.phase with
    | .delivering e stopped =>
      some { b with
        consumers := b.consumers.set c
          { s with phase := if stopped then .draining else .serving }
        panicked := if panics then b.panicked + 1 else b.panicked
        log := .handed c e :: b.log }
    | _ => none
  | none => none

end Bus

/-! ## The calls -/

/-- Where a `Publish` stands. -/
inductive Publish
  | stamped (e : Event)
  | ready (e : Event)
  | offering (e : Event) (rest : List ℕ)
  | returned

def Event.stamp (e : Event) (now : Time) : Event := if e.at_ = 0 then { e with at_ := now } else e

def drawID (ids : ι) (e : Event) : Event × ι :=
  if e.id = "" then ({ e with id := (newID ids e.at_).1 }, (newID ids e.at_).2) else (e, ids)

def Publish.step (b : Bus ι) : Publish → Option (Bus ι × Publish)
  | .stamped e =>
    match (drawID newID b.ids e).1.validate with
    | .error _ =>
      some ({ b with ids := (drawID newID b.ids e).2, refused := b.refused + 1 }, .returned)
    | .ok () =>
      some ({ b with ids := (drawID newID b.ids e).2 }, .ready (drawID newID b.ids e).1)
  | .ready e =>
    if b.closed then some ({ b with refused := b.refused + 1 }, .returned)
    else
      some ({ b with published := b.published + 1, log := .published e :: b.log },
        .offering e b.subscribers)
  | .offering e (c :: rest) => some (b.offer c e, .offering e rest)
  -- the read lock is given back
  | .offering _ [] => some (b, .returned)
  | .returned => none

/-- Where an unsubscribe stands. -/
inductive Unsubscribe
  | removed (c : ℕ)
  | stopped (c : ℕ)
  | returned (c : ℕ)

def Unsubscribe.step (b : Bus ι) : Unsubscribe → Option (Bus ι × Unsubscribe)
  | .removed c => some (b.shutdown c, .stopped c)
  | .stopped c =>
    if b.isDone c then some ({ b with log := .unsubscribed c :: b.log }, .returned c) else none
  | .returned _ => none

inductive ContextError
  | canceled
  | deadlineExceeded
  deriving DecidableEq

/-- Where a `Close` stands. -/
inductive Close
  | stopping (rest held : List ℕ)
  | waiting (rest : List ℕ)
  | returned (err : Option ContextError)

/-- One step of a `Close`; `ctx` is the error of the context when that case of the wait is taken. -/
def Close.step (ctx : Option ContextError) (b : Bus ι) : Close → Option (Bus ι × Close)
  | .stopping (c :: rest) held => some (b.shutdown c, .stopping rest held)
  | .stopping [] held => some (b, .waiting held)
  | .waiting (c :: rest) =>
    match ctx with
    | some err => some (b, .returned (some err))
    | none => if b.isDone c then some (b, .waiting rest) else none
  | .waiting [] => some ({ b with log := .closed :: b.log }, .returned none)
  | .returned _ => none

/-! ## The bus at work -/

structure World (ι : Type) where
  bus : Bus ι
  publishes : List Publish
  unsubscribes : List Unsubscribe
  closes : List Close

def World.start (ids : ι) (queueDepth : ℤ) : World ι := ⟨newBus ids queueDepth, [], [], []⟩

inductive Action
  | publish (e : Event) (now : Time)
  | stepPublish (i : ℕ)
  | subscribe (s : Subscription)
  | unsubscribe (c : ℕ)
  | stepUnsubscribe (i : ℕ)
  | close
  | stepClose (i : ℕ) (ctx : Option ContextError)
  | run (c : ℕ) (pick : Subscriber.Case)
  | deliver (c : ℕ) (panics : Bool)

/-- The read lock is held. -/
def Publish.holdsLock : Publish → Bool
  | .offering _ _ => true
  | _ => false

namespace World

def unlocked (w : World ι) : Bool := w.publishes.all fun p => !p.holdsLock

def step (w : World ι) : Action → Option (World ι)
  | .publish e now => some { w with publishes := w.publishes ++ [.stamped (e.stamp now)] }
  | .stepPublish i =>
    (advance (Publish.step newID) w.bus w.publishes i).map fun r =>
      { w with bus := r.1, publishes := r.2 }
  | .subscribe s =>
    if w.unlocked then
      match w.bus.subscribe s with
      | .ok bus => some { w with bus := bus }
      | .error _ => some w
    else none
  | .unsubscribe c =>
    if w.unlocked ∧ c < w.bus.consumers.length then
      some { w with
        bus := { w.bus with
          subscribers := w.bus.subscribers.erase c
          log := .removed c :: w.bus.log }
        unsubscribes := w.unsubscribes ++ [.removed c] }
    else none
  | .stepUnsubscribe i =>
    (advance Unsubscribe.step w.bus w.unsubscribes i).map fun r =>
      { w with bus := r.1, unsubscribes := r.2 }
  | .close =>
    if w.unlocked then
      if w.bus.closed then some { w with closes := w.closes ++ [.returned none] }
      else
        some { w with
          bus := { w.bus with closed := true, subscribers := [], log := .closing :: w.bus.log }
          closes := w.closes ++ [.stopping w.bus.subscribers w.bus.subscribers] }
    else none
  | .stepClose i ctx =>
    (advance (Close.step ctx) w.bus w.closes i).map fun r => { w with bus := r.1, closes := r.2 }
  | .run c pick =>
    w.bus.consumers[c]?.bind fun s => (s.run pick).map fun s' =>
      { w with bus := { w.bus with consumers := w.bus.consumers.set c s' } }
  | .deliver c panics => (w.bus.deliver c panics).map fun bus => { w with bus := bus }

end World

end Trove.Eventbus
