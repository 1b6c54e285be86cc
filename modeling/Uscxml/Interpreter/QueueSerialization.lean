import Uscxml.Interpreter.Session
import Uscxml.Messages.EventData

/-!
# The queues in a saved state

`serialize` and `deserialize` of `BasicEventQueue` and of `BasicDelayedEventQueue`. Both loops of `serialize` store the
payload of an event where `deserialize` reads an event. The loop of the delayed queue runs over the queue it inherits,
while the pending events are in `_callbackData`.
-/

namespace Uscxml

open Data

namespace Data

theorem at?_ne_self (key : String) (d : Data) : d.at? key ≠ some d := by
  intro h
  obtain ⟨m, hm, hd⟩ := Option.map_eq_some_iff.mp h
  have hmem : m ∈ d.compound := List.mem_of_find?_eq_some hm
  have hmember : sizeOf m < sizeOf d.compound := List.sizeOf_lt_of_mem hmem
  have hvalue : sizeOf m = 1 + sizeOf m.1 + sizeOf m.2 := rfl
  have hself : sizeOf d.compound < sizeOf d := by
    obtain ⟨atom, verbatim, members, items⟩ := d
    show sizeOf members < sizeOf (Data.mk atom verbatim members items)
    rw [Data.mk.sizeOf_spec]
    omega
  rw [hd] at hvalue
  omega

end Data

/-! ### Events -/

namespace BasicEventQueue

open Interpreter (dequeue)

/-- `BasicEventQueue::serialize`: what is stored of an event is its payload. -/
def serialize (queue : List Event) : Data := putItems "BasicEventQueue" 0 (queue.map Event.data) Data.empty

def deserialize (data : Data) (queue : List Event) : List Event :=
  match data.at? "BasicEventQueue" with
  | none => queue
  | some events => queue ++ events.array.map fun event => Event.fromData event.2

/-- The events of the next calls of `dequeue`. -/
def dequeues : Nat → List Event → List Event
  | 0, _ => []
  | n + 1, queue => (dequeue queue).1 :: dequeues n (dequeue queue).2

/-- The name, the payload, the sendid and the invokeid of an event. -/
def shown (e : Event) : String × Data × String × String := (e.name, e.data, e.sendid, e.invokeid)

theorem deserialize_serialize (queue : List Event) :
    deserialize (serialize queue) [] = queue.map fun e => Event.fromData e.data := by
  have harray := array_putItems "BasicEventQueue" 0 (queue.map Event.data) Data.empty [] (List.forall_mem_nil _) rfl
  have hvalues : (((serialize queue).at? "BasicEventQueue").elim [] Data.array).map (·.2) = queue.map Event.data := by
    rw [serialize, harray, List.nil_append, map_snd_itemsFrom]
  rw [deserialize]
  cases h : (serialize queue).at? "BasicEventQueue" with
  | none =>
    rw [h] at hvalues
    obtain rfl : queue = [] := List.map_eq_nil_iff.mp hvalues.symm
    rfl
  | some events =>
    rw [h] at hvalues
    have hevents : events.array.map (fun event => Event.fromData event.2) =
        (events.array.map (·.2)).map Event.fromData := by
      rw [List.map_map]
      rfl
    have harray : events.array.map (·.2) = queue.map Event.data := hvalues
    simp only [List.nil_append, hevents, harray, List.map_map, Function.comp_def]

/-- The payload of an event read as an event shows what the event does only where there is nothing to show. -/
theorem shown_fromData_iff (e : Event) :
    shown (Event.fromData e.data) = shown e ↔ e.name = "" ∧ e.data = Data.empty ∧ e.sendid = "" ∧ e.invokeid = "" := by
  constructor
  · intro h
    simp only [shown, Prod.mk.injEq] at h
    obtain ⟨hname, hdata, hsendid, hinvokeid⟩ := h
    have hempty : e.data = Data.empty := by
      rw [Event.fromData] at hdata
      cases hat : e.data.at? "data" with
      | none => simpa [hat] using hdata.symm
      | some d =>
        have hd : d = e.data := by simpa [hat] using hdata
        exact absurd (hd ▸ hat) (at?_ne_self "data" e.data)
    rw [hempty] at hname hsendid hinvokeid
    exact ⟨hname.symm, hempty, hsendid.symm, hinvokeid.symm⟩
  · rintro ⟨hname, hdata, hsendid, hinvokeid⟩
    simp only [shown, hname, hdata, hsendid, hinvokeid]
    rfl

theorem map_shown_dequeues (n : Nat) {queue queue' : List Event} (h : queue.map shown = queue'.map shown) :
    (dequeues n queue).map shown = (dequeues n queue').map shown := by
  induction n generalizing queue queue' with
  | zero => rfl
  | succ n ih =>
    cases queue with
    | nil =>
      obtain rfl : queue' = [] := List.map_eq_nil_iff.mp h.symm
      rfl
    | cons e queue =>
      cases queue' with
      | nil => cases h
      | cons e' queue' =>
        rw [List.map_cons, List.map_cons, List.cons.injEq] at h
        simp only [dequeues, dequeue, List.map_cons, h.1, ih h.2]

/-- A queue that is read back has the same events in the same order, and its calls of `dequeue` give the same, exactly
when its events have neither name nor payload nor ids. -/
theorem deserialize_serialize_iff (queue : List Event) :
    ((deserialize (serialize queue) []).map shown = queue.map shown ∧
      ∀ n, (dequeues n (deserialize (serialize queue) [])).map shown = (dequeues n queue).map shown) ↔
    ∀ e ∈ queue, e.name = "" ∧ e.data = Data.empty ∧ e.sendid = "" ∧ e.invokeid = "" := by
  have hshown : (deserialize (serialize queue) []).map shown = queue.map shown ↔
      ∀ e ∈ queue, e.name = "" ∧ e.data = Data.empty ∧ e.sendid = "" ∧ e.invokeid = "" := by
    rw [deserialize_serialize, List.map_map, List.map_inj_left]
    exact forall₂_congr fun e _ => shown_fromData_iff e
  rw [← hshown]
  exact ⟨fun h => h.1, fun h => ⟨h, fun n => map_shown_dequeues n h⟩⟩

/-- A queued event comes back without its name. -/
theorem deserialize_serialize_loses_name :
    ¬ ((deserialize (serialize [{ name := "e" }]) []).map shown = [{ name := "e" }].map shown ∧
      ∀ n, (dequeues n (deserialize (serialize [{ name := "e" }]) [])).map shown =
        (dequeues n [{ name := "e" }]).map shown) := by
  rintro ⟨h, -⟩
  rw [deserialize_serialize] at h
  have hname : "" = "e" := congrArg (fun l => (l.headD ("", Data.empty, "", "")).1) h
  exact absurd hname (by decide)

end BasicEventQueue

/-! ### Delayed events -/

namespace Timeval

def add (s t : Timeval) : Timeval :=
  if 1000000 ≤ s.usec + t.usec then ⟨s.sec + t.sec + 1, s.usec + t.usec - 1000000⟩ else ⟨s.sec + t.sec, s.usec + t.usec⟩

/-- `evutil_timersub`, which writes the difference to its last argument. -/
def sub (s t : Timeval) : Timeval :=
  if s.usec - t.usec < 0 then ⟨s.sec - t.sec - 1, s.usec - t.usec + 1000000⟩ else ⟨s.sec - t.sec, s.usec - t.usec⟩

def micros (t : Timeval) : Int := 1000000 * t.sec + t.usec

/-- The milliseconds that are left until a time, none when it is over. -/
def msUntil (due now : Timeval) : Nat := ((due.micros - now.micros) / 1000).toNat

end Timeval

namespace BasicDelayedEventQueue

/-- The members of `BasicEventQueue` and of `BasicDelayedEventQueue`. -/
structure Queues where
  queue : List Event := []
  callbackData : String → Option CallbackData := fun _ => none

/-- `static_cast<int32_t>`. -/
def int32 (n : Nat) : Int := Int.bmod n (2 ^ 32)

/-- `delayMs` as a `timeval`. -/
def delayOf (delayMs : Nat) : Timeval := ⟨int32 (delayMs / 1000), int32 (delayMs % 1000 * 1000)⟩

/-- `BasicDelayedEventQueue::enqueueDelayed`. The entry of an event that is pending already is replaced. -/
def enqueueDelayed (event : Event) (delayMs : Nat) (eventUUID : String) (now : Timeval) (q : Queues) : Queues :=
  { q with
    callbackData := Function.update q.callbackData eventUUID
      (some { userData := event, eventUUID := eventUUID, added := now, due := (delayOf delayMs).add now }) }

/-- The record of a delayed event, which `deserialize` reads. -/
def delayedEvent (event : Event) (delayMs : Nat) : Data :=
  put "delay" (Data.mk (toString delayMs) false [] []) (put "event" event.toData Data.empty)

/-- The `delayMs` of a round. The difference ends up in `now`, so that `delay` stays as it is. -/
def remainingMs (due : Timeval) : Nat :=
  let delay : Timeval := {}
  let _now := delay.sub due
  if 0 < delay.sec ∨ delay.sec = 0 ∧ 0 < delay.usec then (delay.sec * 1000 + delay.usec / 1000).toNat else 0

/-- The loop of `BasicDelayedEventQueue::serialize`. `_callbackData[event.uuid]` makes an entry that is not there, and the
`delayedEvent` of a round is dropped: what is stored is the payload. -/
def serializeLoop : Nat → List Event → Data → (String → Option CallbackData) → Data × (String → Option CallbackData)
  | _, [], serialized, cbs => (serialized, cbs)
  | index, event :: queue, serialized, cbs =>
    let cb := (cbs event.uuid).getD {}
    let _delayedEvent := delayedEvent event (remainingMs cb.due)
    let array := (serialized.at? "BasicDelayedEventQueue").getD Data.empty
    serializeLoop (index + 1) queue
      (put "BasicDelayedEventQueue" (alterAt (fun _ => event.data) (.item index) array) serialized)
      (Function.update cbs event.uuid (some cb))

/-- `BasicDelayedEventQueue::serialize`. -/
def serialize (q : Queues) : Data × Queues :=
  let (serialized, cbs) := serializeLoop 0 q.queue Data.empty q.callbackData
  (serialized, { q with callbackData := cbs })

/-- A round of `BasicDelayedEventQueue::deserialize`. -/
def reenqueue (now : Timeval) (q : Queues) (item : Data) : Queues :=
  let e := Event.fromData ((item.at? "event").getD Data.empty)
  enqueueDelayed e (strToNat ((item.at? "delay").elim "" Data.atom)) e.uuid now q

def items (data : Data) : List Data := ((data.at? "BasicDelayedEventQueue").elim [] Data.array).map (·.2)

def deserialize (data : Data) (now : Timeval) (q : Queues) : Queues := (items data).foldl (reenqueue now) q

/-- A call of `enqueueDelayed` with its time. -/
structure Entered where
  event : Event
  delayMs : Nat
  eventUUID : String
  now : Timeval

def pending (entered : List Entered) : Queues :=
  entered.foldl (fun q e => enqueueDelayed e.event e.delayMs e.eventUUID e.now q) {}

/-- The pending events survive: each of them is recorded once with the delay that is left at the time `now`, and a queue
that reads the records at the time `later` has each of them under its uuid, due that delay later, and nothing else. -/
structure Survives (q : Queues) (now later : Timeval) : Prop where
  recorded : ∃ uuids : List String, uuids.Nodup ∧ (∀ uuid, uuid ∈ uuids ↔ (q.callbackData uuid).isSome) ∧
    items (serialize q).1 = uuids.filterMap fun uuid =>
      (q.callbackData uuid).map fun cb => delayedEvent cb.userData (cb.due.msUntil now)
  restored : ∀ uuid, (deserialize (serialize q).1 later {}).callbackData uuid =
    (q.callbackData uuid).map fun cb => { cb with added := later, due := (delayOf (cb.due.msUntil now)).add later }

theorem queue_pending (entered : List Entered) : (pending entered).queue = [] := by
  have hround : ∀ (entered : List Entered) (q : Queues),
      (entered.foldl (fun q e => enqueueDelayed e.event e.delayMs e.eventUUID e.now q) q).queue = q.queue := by
    intro entered
    induction entered with
    | nil => exact fun _ => rfl
    | cons e entered ih => exact fun q => ih _
  exact hround entered {}

theorem items_serialize_pending (entered : List Entered) : items (serialize (pending entered)).1 = [] := by
  rw [serialize, queue_pending]
  rfl

theorem pending_last (entered : List Entered) (e : Entered) :
    ((pending (entered ++ [e])).callbackData e.eventUUID).isSome := by
  rw [pending, List.foldl_append]
  simp [enqueueDelayed]

/-- Pending events survive exactly when there are none. -/
theorem survives_iff (entered : List Entered) (now later : Timeval) :
    Survives (pending entered) now later ↔ entered = [] := by
  have hitems := items_serialize_pending entered
  constructor
  · intro h
    rcases List.eq_nil_or_concat' entered with rfl | ⟨entered', e, rfl⟩
    · rfl
    · have hsome := pending_last entered' e
      have hrestored := h.restored e.eventUUID
      rw [deserialize, hitems, List.foldl_nil] at hrestored
      obtain ⟨cb, hcb⟩ := Option.isSome_iff_exists.mp hsome
      rw [hcb] at hrestored
      cases hrestored
  · rintro rfl
    exact ⟨⟨[], List.nodup_nil, fun _ => by simp [pending], hitems⟩, fun _ => rfl⟩

/-- An event that is due in a second, saved at once, is lost. -/
theorem delayed_event_lost : ¬ Survives (pending [⟨{ name := "e", uuid := "u" }, 1000, "u", {}⟩]) {} {} := by
  intro h
  have hrestored := h.restored "u"
  rw [deserialize, items_serialize_pending] at hrestored
  cases hrestored

end BasicDelayedEventQueue

end Uscxml
