import Trove.Lib.Run
import Trove.Meta.Types

/-!
# The in-memory metadata store: the event outbox

Events are written through a transaction that buffers what it is given and is applied as a whole. A
`Tx` carries what `AppendEvent` checks: each event of the batch is valid and no two have one id.
-/

namespace Trove.Meta

open Lib List

/-- One record of the outbox. -/
structure EventRow where
  (id type repository resource actor : String)
  payload : List UInt8
  at_ : Time

def validEvent (e : EventRow) : Except Error Unit :=
  if e.id = "" then .error (.invalid "id" "must not be empty")
  else if e.type = "" then .error (.invalid "type" "must not be empty")
  else if e.at_ = 0 then .error (.invalid "at" "must not be zero")
  else .ok ()

theorem id_ne_empty_of_valid {e : EventRow} (h : validEvent e = .ok ()) : e.id ≠ "" := by
  unfold validEvent at h
  split_ifs at h with hid
  exact hid

structure Tx where
  pending : List EventRow
  done : Bool
  valid : ∀ e ∈ pending, validEvent e = .ok ()
  nodup : (pending.map EventRow.id).Nodup

namespace Tx

def empty : Tx := ⟨[], false, by simp, by simp⟩

/-- Only the batch is checked for a duplicate, the store when the batch commits. -/
def appendEvent (t : Tx) (event : EventRow) : Except Error Tx :=
  if t.done then .error (.invalid "tx" "the transaction has already finished")
  else
    match hvalid : validEvent event with
    | .error err => .error err
    | .ok () =>
      if hqueued : event.id ∈ t.pending.map EventRow.id then .error (.conflict "event" event.id)
      else .ok { t with
        pending := t.pending ++ [event]
        valid := forall_mem_concat t.valid hvalid
        nodup := by
          rw [map_append, map_singleton, ← concat_eq_append]
          exact t.nodup.concat hqueued }

theorem pending_appendEvent {t t' : Tx} {event : EventRow} (h : t.appendEvent event = .ok t') :
    t'.pending = t.pending ++ [event] := by
  unfold appendEvent at h
  split_ifs at h with hdn hqd
  · split at h <;> cases h
  · split at h <;> cases h
    rfl

end Tx

/-- The stored events, by id. -/
abbrev Events := Table EventRow.id

namespace Events

/-- What `fn` queued is applied if it succeeds and no id is taken, and nothing otherwise. -/
def withinTx (events : Events) (fn : Tx → Except Error Tx) : Except Error Events :=
  match fn Tx.empty with
  | .error err => .error err
  | .ok tx =>
    match tx.pending.find? fun e => (events.lookup e.id).isSome with
    | some taken => .error (.conflict "event" taken.id)
    | none => .ok (tx.pending.foldl (fun events e => events.insert e) events)

def after (events : Events) (fn : Tx → Except Error Tx) : Events :=
  match events.withinTx fn with
  | .ok events' => events'
  | .error _ => events

def run (fns : List (Tx → Except Error Tx)) : Events := fns.foldl after ∅

theorem mem_values_insertAll {batch : List EventRow} (hnd : (batch.map EventRow.id).Nodup)
    {events : Events} (hfr : ∀ e ∈ batch, events.lookup e.id = none) {e : EventRow} :
    e ∈ (batch.foldl (fun events e => events.insert e) events).values ↔
      e ∈ batch ∨ e ∈ events.values := by
  induction batch generalizing events with
  | nil => simp
  | cons b batch ih =>
    rw [map_cons, nodup_cons] at hnd
    have hb := hfr b mem_cons_self
    have hfr' : ∀ e ∈ batch, (events.insert b).lookup e.id = none := by
      intro e he
      have hne : e.id ≠ b.id := fun heq => hnd.1 (heq ▸ mem_map_of_mem he)
      rw [Table.lookup_insert, if_neg hne]
      exact hfr e (mem_cons_of_mem _ he)
    rw [foldl_cons, ih hnd.2 hfr', Table.mem_values_insert, mem_cons]
    constructor
    · rintro (he | rfl | ⟨-, he⟩)
      · exact .inl (.inr he)
      · exact .inl (.inl rfl)
      · exact .inr he
    · rintro ((rfl | he) | he)
      · exact .inr (.inl rfl)
      · exact .inl he
      · refine .inr (.inr ⟨fun heq => ?_, he⟩)
        rw [Table.mem_values, heq, hb] at he
        cases he

theorem mem_values_withinTx {events events' : Events} {fn : Tx → Except Error Tx}
    (h : events.withinTx fn = .ok events') :
    ∃ tx, fn Tx.empty = .ok tx ∧ (∀ e ∈ tx.pending, events.lookup e.id = none) ∧
      ∀ e, e ∈ events'.values ↔ e ∈ tx.pending ∨ e ∈ events.values := by
  unfold withinTx at h
  split at h
  · cases h
  rename_i tx hfn
  split at h
  · cases h
  rename_i hfr
  cases h
  have hfr : ∀ e ∈ tx.pending, events.lookup e.id = none := by
    intro e he
    simpa using List.find?_eq_none.mp hfr e he
  exact ⟨tx, hfn, hfr, fun e => mem_values_insertAll tx.nodup hfr⟩

theorem id_ne_empty_run (fns : List (Tx → Except Error Tx)) :
    ∀ e ∈ (run fns).values, e.id ≠ "" := by
  induction fns using List.reverseRecOn with
  | nil =>
    intro e he
    simp [run] at he
  | append_singleton fns fn ih =>
    rw [run, foldl_concat, after]
    split
    · rename_i events' hok
      intro e he
      obtain ⟨tx, -, -, hmem⟩ := mem_values_withinTx hok
      rcases (hmem e).mp he with he | he
      · exact id_ne_empty_of_valid (tx.valid e he)
      · exact ih e he
    · exact ih

end Events

end Trove.Meta
