import Trove.Eventbus.Order
import Trove.Meta.Listing

/-!
# The outbox and its readers

The outbox is a consumer of the bus that writes each event it is handed to the metadata store. A
reader asks for the events beyond the largest id it has seen, so it sees every event only if they
are stored in the order of their ids. `Publish` draws the id under one lock and takes its place in
the queues under another, and can be overtaken in between.
-/

namespace Trove.Eventbus

open Lib Meta List

variable {ι : Type} {newID : ι → Time → String × ι}

/-! ## The outbox -/

/-- Its switch, and its counters. -/
structure Outbox where
  persistPulls : Bool
  (written skipped failed : ℕ)

namespace Outbox

def new (persistPulls : Bool) : Outbox := ⟨persistPulls, 0, 0, 0⟩

def subscription : Subscription := ⟨"outbox", [], true, 0⟩

def handle (o : Outbox) (store : Events) (e : Event) : Outbox × Events :=
  if e.type = EventType.artifactPulled.string && !o.persistPulls then
    ({ o with skipped := o.skipped + 1 }, store)
  else
    match e.record with
    | .error _ => ({ o with failed := o.failed + 1 }, store)
    | .ok row =>
      match store.withinTx fun tx => tx.appendEvent row with
      | .ok store' => ({ o with written := o.written + 1 }, store')
      | .error (.conflict _ _) => ({ o with skipped := o.skipped + 1 }, store)
      | .error _ => ({ o with failed := o.failed + 1 }, store)

theorem mem_values_handle (o : Outbox) (store : Events) (e : Event) :
    (o.handle store e).2 = store ∨
      ∃ row, row.id = e.id ∧ row.id ≠ "" ∧
        ∀ r, r ∈ (o.handle store e).2.values ↔ r = row ∨ r ∈ store.values := by
  unfold handle
  split_ifs
  · exact .inl rfl
  split
  · exact .inl rfl
  · rename_i row hrc
    split
    · rename_i store' hcm
      obtain ⟨tx, hap, -, hmem⟩ := Events.mem_values_withinTx hcm
      have hpn : tx.pending = [row] := Tx.pending_appendEvent hap
      have hmm : row ∈ tx.pending := by
        rw [hpn]
        exact mem_singleton_self row
      rw [hpn] at hmem
      have hid := id_ne_empty_of_valid (tx.valid row hmm)
      refine .inr ⟨row, Event.id_of_record hrc, hid, fun r => ?_⟩
      rw [hmem, mem_singleton]
    · exact .inl rfl
    · exact .inl rfl

end Outbox

/-! ## A reader -/

structure Reader where
  view : Visibility
  seen : List EventRow

namespace Reader

def cursor (r : Reader) : String := (r.seen.map EventRow.id).max?.getD ""

def poll (r : Reader) (store : Events) (limit : ℤ) : Reader :=
  match store.listEvents ⟨r.view, limit, r.cursor⟩ with
  | .ok page => { r with seen := r.seen ++ page.rows }
  | .error _ => r

theorem le_cursor {r : Reader} {row : EventRow} (h : row ∈ r.seen) : row.id ≤ r.cursor := by
  obtain ⟨last, hls⟩ : ∃ last, (r.seen.map EventRow.id).max? = some last := by
    refine Option.ne_none_iff_exists'.mp fun hnn => ?_
    rw [List.max?_eq_none_iff, map_eq_nil_iff] at hnn
    rw [hnn] at h
    cases h
  rw [cursor, hls]
  exact (List.max?_eq_some_iff.mp hls).2 _ (mem_map_of_mem h)

theorem cursor_mem (r : Reader) : r.cursor = "" ∨ ∃ row ∈ r.seen, row.id = r.cursor := by
  rw [cursor]
  cases hls : (r.seen.map EventRow.id).max? with
  | none => exact .inl rfl
  | some last => exact .inr (mem_map.mp (List.max?_eq_some_iff.mp hls).1)

/-- The rows the reader has passed by are among those it has seen. -/
def Complete (r : Reader) (store : Events) : Prop :=
  ∀ row ∈ store.values, visibleEvent r.view row = true → row.id ≤ r.cursor → row ∈ r.seen

section Poll

variable (r : Reader) (store : Events) (limit : ℤ)

/-- The rows a poll lists. -/
def listed : List EventRow :=
  ((ListOptions.mk r.view limit r.cursor).page EventRow.id
    (store.values.filter (visibleEvent r.view))).rows

theorem seen_poll : (r.poll store limit).seen = r.seen ++ r.listed store limit := rfl

theorem mem_listed {row : EventRow} (h : row ∈ r.listed store limit) : row ∈ store.values :=
  mem_of_mem_filter (mem_rows_pageAt h).1

theorem complete_poll (h : r.Complete store) : (r.poll store limit).Complete store := by
  intro row hrow hvs hle
  rw [seen_poll, mem_append]
  by_cases hps : row.id ≤ r.cursor
  · exact .inl (h row hrow hvs hps)
  · refine .inr (by_contra fun hnot => ?_)
    have hlt : r.cursor < row.id := not_le.mp hps
    have hky : ((store.values.filter (visibleEvent r.view)).map EventRow.id).Nodup :=
      store.nodup_map_key_values.sublist (filter_sublist.map _)
    have hmem : row ∈ store.values.filter (visibleEvent r.view) :=
      mem_filter.mpr ⟨hrow, hvs⟩
    -- the new cursor is the id of a row seen before or listed now
    refine absurd hle (not_le.mpr ?_)
    rcases (r.poll store limit).cursor_mem with hem | ⟨last, hls, hid⟩
    · rw [hem]
      exact lt_of_le_of_lt (empty_le _) hlt
    · rw [← hid]
      rw [seen_poll, mem_append] at hls
      rcases hls with hls | hls
      · exact lt_of_le_of_lt (le_cursor hls) hlt
      · exact lt_of_not_mem_rows hky hmem hlt hnot hls

theorem seen_of_poll (h : r.Complete store)
    (hnt : (r.poll store limit).seen = r.seen) {row : EventRow} (hrow : row ∈ store.values)
    (hvs : visibleEvent r.view row = true) : row ∈ r.seen := by
  rw [seen_poll, append_right_eq_self] at hnt
  have hlm := ListOptions.effectiveLimit_pos ⟨r.view, limit, r.cursor⟩
  refine h row hrow hvs (le_of_rows_eq_nil (by omega) hnt ?_)
  exact mem_filter.mpr ⟨hrow, hvs⟩

end Poll

end Reader

/-! ## The bus, the outbox and a reader -/

/-- The outbox is the first consumer of the bus. -/
structure System (ι : Type) where
  world : World ι
  outbox : Outbox
  store : Events
  reader : Reader

/-- A step of the bus, or a poll. -/
inductive SystemAction
  | bus (a : Action)
  | poll (limit : ℤ)

namespace System

def handedToOutbox (s : System ι) : Action → Option Event
  | .deliver 0 _ => s.world.bus.consumers[0]?.bind Subscriber.inHand
  | _ => none

def start (ids : ι) (queueDepth : ℤ) (persistPulls : Bool) (view : Visibility) : System ι where
  world := match (newBus ids queueDepth).subscribe Outbox.subscription with
    | .ok bus => ⟨bus, [], [], []⟩
    | .error _ => World.start ids queueDepth
  outbox := Outbox.new persistPulls
  store := ∅
  reader := ⟨view, []⟩

variable (newID) in
def step (s : System ι) : SystemAction → Option (System ι)
  | .bus a =>
    (s.world.step newID a).map fun w =>
      match s.handedToOutbox a with
      | none => { s with world := w }
      | some e =>
        { s with
          world := w
          outbox := (s.outbox.handle s.store e).1
          store := (s.outbox.handle s.store e).2 }
  | .poll limit => some { s with reader := s.reader.poll s.store limit }

/-- The condition of the bus. -/
def InTurn (s : System ι) : SystemAction → Prop
  | .bus a => s.world.InTurn a
  | .poll _ => True

instance (s : System ι) (a : SystemAction) : Decidable (s.InTurn a) := by
  unfold InTurn
  split <;> infer_instance

end System

/-- The events of the calls of `Publish` come without an id. -/
def SystemAction.WithoutID : SystemAction → Prop
  | .bus (.publish e _) => e.id = ""
  | _ => True

instance (a : SystemAction) : Decidable a.WithoutID := by
  unfold SystemAction.WithoutID
  split <;> infer_instance

/-! ## Readers miss nothing in turn -/

/-- Every row is of an event the outbox was handed, and the reader has passed none by. -/
structure System.Inv (newID : ι → Time → String × ι) (view : Visibility) (s : System ι) : Prop where
  sound : s.world.Sound
  ordered : Ordered newID s.world
  stored : ∀ row ∈ s.store.values, ∃ e ∈ handed 0 s.world.bus.log, e.id = row.id
  seen : ∀ row ∈ s.reader.seen, row ∈ s.store.values
  complete : s.reader.Complete s.store
  view : s.reader.view = view

theorem handed_lt {w w' : World ι} (hsn : w.Sound) (hord : Ordered newID w) {c : ℕ}
    {panics : Bool} (hst : w.step newID (.deliver c panics) = some w') {s : Subscriber}
    (hs : w.bus.consumers[c]? = some s) {e : Event} (he : s.inHand = some e) :
    e ∈ handed c w'.bus.log ∧ ∀ e₀ ∈ handed c w.bus.log, e₀.id < e.id := by
  constructor
  · obtain ⟨b', hdl, rfl⟩ := Option.map_eq_some_iff.mp hst
    unfold Subscriber.inHand at he
    split at he
    · rename_i e' stopped hph
      cases he
      simp only [Bus.deliver, hs, hph, Option.some.injEq] at hdl
      subst hdl
      rw [handed_cons, Entry.handedTo, if_pos rfl]
      exact mem_append_right _ (mem_singleton_self e)
    · cases he
  · intro e₀ he₀
    have hsr := hord.sorted c
    rw [(hsn.tracked c s hs).flow, he, map_append, map_append] at hsr
    exact (pairwise_append.mp (pairwise_append.mp hsr).1).2.2 e₀.id
      (mem_map_of_mem he₀) e.id (by simp)

namespace System.Inv

variable {view : Visibility} {s s' : System ι}

theorem complete_of_insert (h : s.Inv newID view) {store : Events} {row : EventRow}
    (hvl : ∀ r, r ∈ store.values ↔ r = row ∨ r ∈ s.store.values) (hne : row.id ≠ "")
    (hls : ∀ r ∈ s.store.values, r.id < row.id) : s.reader.Complete store := by
  intro r hr hvs hle
  rcases (hvl r).mp hr with rfl | hr
  · refine absurd hle (not_le.mpr ?_)
    rcases s.reader.cursor_mem with hem | ⟨last, hls', hid⟩
    · rw [hem]
      exact empty_lt hne
    · rw [← hid]
      exact hls last (h.seen last hls')
  · exact h.complete r hr hvs hle

theorem step (h : s.Inv newID view) {a : SystemAction} (hst : s.step newID a = some s')
    (htr : s.InTurn a) (hun : a.WithoutID) : s'.Inv newID view := by
  cases a with
  | poll limit =>
    cases hst
    refine ⟨h.sound, h.ordered, h.stored, fun row hrow => ?_,
      s.reader.complete_poll s.store limit h.complete, h.view⟩
    rcases mem_append.mp hrow with hrow | hrow
    · exact h.seen row hrow
    · exact s.reader.mem_listed s.store limit hrow
  | bus a =>
    obtain ⟨w, hw, hs'⟩ := Option.map_eq_some_iff.mp hst
    have hsn := h.sound.step hw
    have hord : Ordered newID w :=
      h.ordered.step h.sound hw htr fun e now ha => by subst ha; exact hun
    obtain ⟨-, hmv⟩ := moved_of_step h.sound.registered h.sound.threads hw
    have hgr : ∀ row ∈ s.store.values, ∃ e ∈ handed 0 w.bus.log, e.id = row.id := by
      intro row hrow
      obtain ⟨e, he, hid⟩ := h.stored row hrow
      exact ⟨e, handed_mono (effect_of_moved h.sound.threads hmv) he, hid⟩
    cases hhn : s.handedToOutbox a with
    | none =>
      rw [hhn] at hs'
      subst hs'
      exact ⟨hsn, hord, hgr, h.seen, h.complete, h.view⟩
    | some e =>
      rw [hhn] at hs'
      subst hs'
      unfold System.handedToOutbox at hhn
      split at hhn
      · rename_i panics
        obtain ⟨sub, hsub, hhd⟩ := Option.bind_eq_some_iff.mp hhn
        obtain ⟨hnow, hbf⟩ := handed_lt h.sound h.ordered hw hsub hhd
        rcases Outbox.mem_values_handle s.outbox s.store e with hkp | ⟨row, hid, hne, hvl⟩
        · refine ⟨hsn, hord, ?_, ?_, ?_, h.view⟩
          · simp only [hkp]
            exact hgr
          · simp only [hkp]
            exact h.seen
          · simp only [hkp]
            exact h.complete
        · refine ⟨hsn, hord, ?_, ?_, ?_, h.view⟩
          · intro r hr
            rcases (hvl r).mp hr with rfl | hr
            · exact ⟨e, hnow, hid.symm⟩
            · exact hgr r hr
          · intro r hr
            exact (hvl r).mpr (.inr (h.seen r hr))
          · refine h.complete_of_insert hvl hne fun r hr => ?_
            obtain ⟨e₀, he₀, hid₀⟩ := h.stored r hr
            rw [← hid₀, hid]
            exact hbf e₀ he₀
      · cases hhn

end System.Inv

theorem inv_start {ids : ι} (hids : Ascending newID ids) (queueDepth : ℤ) (persistPulls : Bool)
    (view : Visibility) : (System.start ids queueDepth persistPulls view).Inv newID view := by
  have hst : (World.start ids queueDepth).step newID (.subscribe Outbox.subscription) =
      some (System.start ids queueDepth persistPulls view).world := by
    simp [World.step, World.start, World.unlocked, System.start, Bus.subscribe,
      Outbox.subscription, newBus]
  have hsn := sound_start ids queueDepth
  refine ⟨hsn.step hst, (ordered_start hids queueDepth).step hsn hst trivial ?_,
    ?_, ?_, ?_, rfl⟩
  · intro e now ha
    cases ha
  · intro row hrow
    cases hrow
  · intro row hrow
    cases hrow
  · intro row hrow
    cases hrow

/-- **Readers miss nothing**, where every consumer is offered what it wants in turn and the ids the
source issues increase. Every consumer is handed its events in increasing order of ids; a reader has
seen every event it may see whose id it has passed by; and a poll that finds nothing finds it with
all there is. -/
theorem readers_miss_nothing (newID : ι → Time → String × ι) (ids : ι)
    (hids : Ascending newID ids) (queueDepth : ℤ) (persistPulls : Bool) (view : Visibility)
    (as : List SystemAction) (hunset : ∀ a ∈ as, a.WithoutID)
    (hturn : Along (System.step newID) System.InTurn
      (System.start ids queueDepth persistPulls view) as) (s : System ι)
    (hrun : exec (System.step newID) (System.start ids queueDepth persistPulls view) as = some s) :
    (∀ c, ((handed c s.world.bus.log).map Event.id).Pairwise (· < ·)) ∧
    (∀ row ∈ s.store.values, visibleEvent view row = true → row.id ≤ s.reader.cursor →
      row ∈ s.reader.seen) ∧
    ∀ limit, (s.reader.poll s.store limit).seen = s.reader.seen →
      ∀ row ∈ s.store.values, visibleEvent view row = true → row ∈ s.reader.seen := by
  have hinv : s.Inv newID view := exec_invariant (fun _ _ _ h hok hs => h.step hs hok.1 hok.2)
    (inv_start hids queueDepth persistPulls view) (hturn.and hunset) hrun
  obtain rfl := hinv.view
  exact ⟨handed_sorted hinv.sound hinv.ordered, hinv.complete, fun limit hnt row hrow =>
    s.reader.seen_of_poll s.store limit hinv.complete hnt hrow⟩

/-! ## A call that is overtaken -/

theorem tally_lt {m n : ℕ} (h : m < n) :
    String.ofList (List.replicate m '1') < String.ofList (List.replicate n '1') := by
  rw [String.lt_iff_toList_lt, String.toList_ofList, String.toList_ofList]
  obtain ⟨k, rfl⟩ := Nat.exists_eq_add_of_lt h
  induction m with
  | zero => exact nil_lt_cons _ _
  | succ m ih =>
    rw [show m + 1 + k + 1 = (m + k + 1) + 1 by omega, replicate_succ, replicate_succ]
    exact cons_lt_cons_iff.mpr (.inr ⟨rfl, ih (by omega)⟩)

theorem mem_outputs_tally {n : ℕ} {ats : List Time} {id : String} (h : id ∈ outputs tally n ats) :
    ∃ m, n < m ∧ id = String.ofList (List.replicate m '1') := by
  induction ats generalizing n with
  | nil => cases h
  | cons t ats ih =>
    rcases mem_cons.mp h with rfl | h
    · exact ⟨n + 1, Nat.lt_succ_self n, rfl⟩
    · obtain ⟨m, hm, rfl⟩ := ih h
      exact ⟨m, (Nat.lt_succ_self n).trans hm, rfl⟩

theorem ascending_tally (n : ℕ) : Ascending tally n := by
  intro ats
  induction ats generalizing n with
  | nil => exact List.Pairwise.nil
  | cons t ats ih =>
    refine pairwise_cons.mpr ⟨fun id hid => ?_, ih (n + 1)⟩
    obtain ⟨m, hm, rfl⟩ := mem_outputs_tally hid
    exact tally_lt hm

/-- The second push overtakes the first between its id and its place in the queue, and is stored and
polled before the first arrives. -/
def overtaken : List SystemAction :=
  [.bus (.publish pushed 5), .bus (.publish pushed 6), .bus (.stepPublish 0), .bus (.stepPublish 1),
    .bus (.stepPublish 1), .bus (.stepPublish 1), .bus (.run 0 .queue), .bus (.deliver 0 false),
    .poll 0, .bus (.stepPublish 0), .bus (.stepPublish 0), .bus (.run 0 .queue),
    .bus (.deliver 0 false), .poll 0]

/-- The outbox is handed the larger id first, and the reader, with that as its cursor, never sees
the other. -/
theorem reader_misses_overtaken :
    Ascending tally 0 ∧ (∀ a ∈ overtaken, a.WithoutID) ∧
      ∃ s ∈ exec (System.step tally) (System.start 0 0 false unrestricted) overtaken,
        (handed 0 s.world.bus.log).map Event.id = ["11", "1"] ∧
        s.store.values.map EventRow.id = ["1", "11"] ∧
        (s.reader.poll s.store 0).seen.map EventRow.id = ["11"] := by
  refine ⟨ascending_tally 0, by decide +kernel, ?_⟩
  decide +kernel

def inTurn : List SystemAction :=
  [.bus (.publish pushed 5), .bus (.publish pushed 6), .bus (.stepPublish 0), .bus (.stepPublish 1),
    .bus (.stepPublish 1), .bus (.stepPublish 0), .bus (.stepPublish 0), .bus (.stepPublish 1),
    .bus (.run 0 .queue), .bus (.deliver 0 false), .poll 0, .bus (.run 0 .queue),
    .bus (.deliver 0 false), .poll 0]

theorem readers_miss_nothing_inTurn :
    ∃ s ∈ exec (System.step tally) (System.start 0 0 false unrestricted) inTurn,
      s.reader.seen.map EventRow.id = ["1", "11"] ∧
      (∀ c, ((handed c s.world.bus.log).map Event.id).Pairwise (· < ·)) ∧
      ∀ row ∈ s.store.values, visibleEvent unrestricted row = true →
        row.id ≤ s.reader.cursor → row ∈ s.reader.seen := by
  have hgo : ∃ s ∈ exec (System.step tally) (System.start 0 0 false unrestricted) inTurn,
      s.reader.seen.map EventRow.id = ["1", "11"] := by decide +kernel
  obtain ⟨s, hrun, hsn⟩ := hgo
  obtain ⟨hsr, hcm, -⟩ := readers_miss_nothing tally 0 (ascending_tally 0) 0 false
    unrestricted inTurn (by decide +kernel) (by decide +kernel) s hrun
  exact ⟨s, hrun, hsn, hsr, hcm⟩

end Trove.Eventbus
