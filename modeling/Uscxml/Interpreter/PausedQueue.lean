import Uscxml.Interpreter.QueueSerialization
import Uscxml.Lib.Fold

/-!
# Delayed events and pauses

`PausableDelayedEventQueue`: a pause takes the timers of all pending events away, and `resume` sets them again with due times
that are later by the whole pause. The law is that an event becomes due when the time since its entering, less the pauses, is
its delay. A stopwatch that stands still in pauses measures this beside the queue.
-/

namespace Uscxml

namespace Timeval

/-- The microseconds are below a second, as in all readings of a clock. -/
def Normal (t : Timeval) : Prop := 0 ≤ t.usec ∧ t.usec < 1000000

instance (t : Timeval) : Decidable t.Normal := inferInstanceAs (Decidable (_ ∧ _))

theorem micros_add (s t : Timeval) : (s.add t).micros = s.micros + t.micros := by
  rw [add]
  split <;> simp only [micros] <;> omega

theorem micros_sub (s t : Timeval) : (s.sub t).micros = s.micros - t.micros := by
  rw [sub]
  split <;> simp only [micros] <;> omega

theorem Normal.add {s t : Timeval} (hs : s.Normal) (ht : t.Normal) : (s.add t).Normal := by
  obtain ⟨hs, hs'⟩ := hs
  obtain ⟨ht, ht'⟩ := ht
  rw [Timeval.add]
  split <;> constructor <;> dsimp only <;> omega

theorem Normal.sub {s t : Timeval} (hs : s.Normal) (ht : t.Normal) : (s.sub t).Normal := by
  obtain ⟨hs, hs'⟩ := hs
  obtain ⟨ht, ht'⟩ := ht
  rw [Timeval.sub]
  split <;> constructor <;> dsimp only <;> omega

theorem Normal.nonneg_iff {t : Timeval} (h : t.Normal) : (0 ≤ t.usec ∧ 0 ≤ t.sec) ↔ 0 ≤ t.micros := by
  obtain ⟨h, h'⟩ := h
  rw [micros]
  omega

end Timeval

namespace BasicDelayedEventQueue

theorem normal_delayOf (delayMs : Nat) : (delayOf delayMs).Normal := by
  have husec : int32 (delayMs % 1000 * 1000) = (delayMs % 1000 * 1000 : Nat) :=
    Int.bmod_eq_of_le (by omega) (by omega)
  rw [delayOf, husec]
  constructor <;> dsimp only <;> omega

theorem micros_delayOf_iff (delayMs : Nat) : (delayOf delayMs).micros = 1000 * delayMs ↔ delayMs < 1000 * 2 ^ 31 := by
  have husec : int32 (delayMs % 1000 * 1000) = (delayMs % 1000 * 1000 : Nat) :=
    Int.bmod_eq_of_le (by omega) (by omega)
  have hsec : int32 (delayMs / 1000) < 2 ^ 31 := by
    have hlt : int32 (delayMs / 1000) < ((2 ^ 32 : Nat) + 1) / 2 := Int.bmod_lt (by decide)
    omega
  rw [delayOf, Timeval.micros, husec]
  constructor
  · intro h
    dsimp only at h
    omega
  · intro h
    have hexact : int32 (delayMs / 1000) = (delayMs / 1000 : Nat) := Int.bmod_eq_of_le (by omega) (by omega)
    rw [hexact]
    dsimp only
    omega

end BasicDelayedEventQueue

namespace PausableDelayedEventQueue

open BasicDelayedEventQueue (CallbackData delayOf)

/-- An entry of `_callbackData` and the time that its timer of libevent is set to, in microseconds. -/
structure Pending where
  data : CallbackData
  timer : Option Int

/-- The members of `BasicDelayedEventQueue` and of `PausableDelayedEventQueue`. -/
structure Queue where
  callbackData : List Pending := []
  isStarted : Bool := true
  pausedAt : Timeval := {}

def eventAdd (now timeout : Timeval) (data : CallbackData) : Pending := ⟨data, some (now.micros + timeout.micros)⟩

/-- `BasicDelayedEventQueue::cancelDelayed`. -/
def cancelDelayed (eventId : String) (q : Queue) : Queue :=
  { q with callbackData := q.callbackData.filter fun p => p.data.eventUUID ≠ eventId }

/-- `BasicDelayedEventQueue::enqueueDelayed`. -/
def enqueueDelayed (event : Event) (delayMs : Nat) (eventUUID : String) (now : Timeval) (q : Queue) : Queue :=
  let delay := delayOf delayMs
  let data : CallbackData := { userData := event, eventUUID := eventUUID, added := now, due := delay.add now }
  { q with callbackData := (cancelDelayed eventUUID q).callbackData ++ [eventAdd now delay data] }

/-- `BasicDelayedEventQueue::timerCallback` with the event loop, which calls it for a timer that is due. -/
def timerCallback (eventUUID : String) (now : Timeval) (q : Queue) : Queue :=
  { q with
    callbackData := q.callbackData.filter fun p =>
      !(q.isStarted && p.data.eventUUID = eventUUID && p.timer.any (· ≤ now.micros)) }

def isPaused (q : Queue) : Bool := q.pausedAt.sec ≠ 0 || q.pausedAt.usec ≠ 0

def pause (now : Timeval) (q : Queue) : Queue :=
  if isPaused q then q
  else { callbackData := q.callbackData.map fun p => { p with timer := none }, isStarted := false, pausedAt := now }

/-- The loop of `PausableDelayedEventQueue::resume`, which ends with `none` where the assertion fails. -/
def resumeLoop (pausedFor now : Timeval) : List Pending → Option (List Pending)
  | [] => some []
  | p :: rest =>
    let due := p.data.due.add pausedFor
    let remain := due.sub now
    if 0 ≤ remain.usec ∧ 0 ≤ remain.sec then
      (resumeLoop pausedFor now rest).map (eventAdd now remain { p.data with due := due } :: ·)
    else none

def resume (now : Timeval) (q : Queue) : Option Queue :=
  if isPaused q then
    (resumeLoop (now.sub q.pausedAt) now q.callbackData).map fun cbs => { callbackData := cbs }
  else some { q with isStarted := true }

inductive Call where
  | enqueueDelayed (event : Event) (delayMs : Nat) (eventUUID : String)
  | cancelDelayed (eventId : String)
  | timerCallback (eventUUID : String)
  | pause
  | resume

def step (now : Timeval) (q : Queue) : Call → Option Queue
  | .enqueueDelayed event delayMs eventUUID => some (enqueueDelayed event delayMs eventUUID now q)
  | .cancelDelayed eventId => some (cancelDelayed eventId q)
  | .timerCallback eventUUID => some (timerCallback eventUUID now q)
  | .pause => some (pause now q)
  | .resume => resume now q

/-- What `evutil_gettimeofday` gives: a time after the Epoch. -/
structure Reading extends Timeval where
  normal : toTimeval.Normal
  pos : 0 < toTimeval.micros

/-- The queue after some calls, each with its time; `none` when an assertion failed. -/
def run (calls : List (Reading × Call)) : Option Queue := calls.foldlM (fun q c => step c.1.toTimeval q c.2) {}

structure History where
  calls : List (Reading × Call)
  ordered : calls.Pairwise fun c c' => c.1.micros ≤ c'.1.micros

/-! ### The stopwatch -/

/-- When an event was entered, and what the stopwatch showed then. -/
structure Entered where
  time : Timeval
  unpaused : Int
  delayMs : Nat

/-- The time of the last call, the time that the queue has not been paused, the beginning of the pause that goes on, and the
events that were entered. -/
structure Stopwatch where
  now : Timeval := {}
  unpaused : Int := 0
  paused : Option Timeval := none
  entered : String → Option Entered := fun _ => none

theorem Stopwatch.eq_with_paused {w : Stopwatch} {paused : Option Timeval} (h : w.paused = paused) : { w with paused } = w := by
  rw [← h]

def Stopwatch.elapse (w : Stopwatch) (now : Timeval) : Stopwatch :=
  { w with now := now, unpaused := if w.paused.isSome then w.unpaused else w.unpaused + (now.micros - w.now.micros) }

def Stopwatch.call (w : Stopwatch) (c : Reading × Call) : Stopwatch :=
  let w := w.elapse c.1.toTimeval
  match c.2 with
  | .enqueueDelayed _ delayMs eventUUID =>
    { w with entered := Function.update w.entered eventUUID (some ⟨w.now, w.unpaused, delayMs⟩) }
  | .pause => { w with paused := some (w.paused.getD w.now) }
  | .resume => { w with paused := none }
  | _ => w

def watch (calls : List (Reading × Call)) : Stopwatch := calls.foldl Stopwatch.call {}

/-- The time from the entering of an event until its timer is due, less the pauses, is its delay. In a pause no timer is set:
what is left then counts from the beginning of the pause, or from the entering. -/
def OnTime (w : Stopwatch) (p : Pending) (e : Entered) : Prop :=
  match w.paused with
  | none => ∃ due, p.timer = some due ∧ w.unpaused + (due - w.now.micros) - e.unpaused = 1000 * e.delayMs
  | some since => w.unpaused - e.unpaused + (p.data.due.micros - max since.micros e.time.micros) = 1000 * e.delayMs

def KeepsDelay (w : Stopwatch) (p : Pending) : Prop := ∃ e, w.entered p.data.eventUUID = some e ∧ OnTime w p e

/-- What keeps the delays: the seconds of a delay fit into 32 bits, and at the end of a pause there is no event that was
entered in the pause or was due before it. -/
def Meets (q : Queue) : Call → Prop
  | .enqueueDelayed _ delayMs _ => delayMs < 1000 * 2 ^ 31
  | .resume => isPaused q → ∀ p ∈ q.callbackData,
      p.data.added.micros ≤ q.pausedAt.micros ∧ q.pausedAt.micros ≤ p.data.due.micros
  | _ => True

/-! ### One call -/

structure Tracks (w : Stopwatch) (q : Queue) : Prop where
  normal : w.now.Normal
  paused : w.paused = if isPaused q then some q.pausedAt else none
  since : ∀ since, w.paused = some since → since.Normal ∧ since.micros ≤ w.now.micros
  due : ∀ p ∈ q.callbackData, p.data.due.Normal
  entered : ∀ p ∈ q.callbackData, ∃ e, w.entered p.data.eventUUID = some e ∧ e.time = p.data.added ∧ e.time.micros ≤ w.now.micros
  timer : w.paused = none → ∀ p ∈ q.callbackData, p.timer = some p.data.due.micros

theorem isPaused_of_pos {q : Queue} (h : 0 < q.pausedAt.micros) : isPaused q = true := by
  rw [isPaused, Bool.or_eq_true, decide_eq_true_iff, decide_eq_true_iff]
  rw [Timeval.micros] at h
  omega

theorem keepsDelay_elapse {w : Stopwatch} {p : Pending} (now : Timeval) : KeepsDelay (w.elapse now) p ↔ KeepsDelay w p := by
  apply exists_congr
  intro e
  apply and_congr_right
  intro _
  obtain ⟨before, unpaused, paused, entered⟩ := w
  cases paused with
  | none =>
    apply exists_congr
    intro due
    apply and_congr_right
    intro _
    show unpaused + (now.micros - before.micros) + (due - now.micros) - e.unpaused = 1000 * e.delayMs ↔
      unpaused + (due - before.micros) - e.unpaused = 1000 * e.delayMs
    omega
  | some since => exact Iff.rfl

/-- The delay of an event counts from its last entering. -/
theorem keepsDelay_iff {w : Stopwatch} {p : Pending} {e : Entered} (h : w.entered p.data.eventUUID = some e) :
    KeepsDelay w p ↔ OnTime w p e := by
  constructor
  · rintro ⟨e', he', hontime⟩
    rw [h] at he'
    obtain rfl := Option.some.inj he'
    exact hontime
  · exact fun hontime => ⟨e, h, hontime⟩

theorem Tracks.elapse {w : Stopwatch} {q : Queue} (h : Tracks w q) {now : Timeval} (hnow : now.Normal)
    (hle : w.now.micros ≤ now.micros) : Tracks (w.elapse now) q where
  normal := hnow
  paused := h.paused
  since := by
    intro since hsince
    obtain ⟨hnormal, hbefore⟩ := h.since since hsince
    exact ⟨hnormal, hbefore.trans hle⟩
  due := h.due
  entered := by
    intro p hp
    obtain ⟨e, hentered, htime, hbefore⟩ := h.entered p hp
    exact ⟨e, hentered, htime, hbefore.trans hle⟩
  timer := h.timer

theorem Tracks.sublist {w : Stopwatch} {q q' : Queue} (h : Tracks w q) (hpausedAt : q'.pausedAt = q.pausedAt)
    (hsub : ∀ p ∈ q'.callbackData, p ∈ q.callbackData) : Tracks w q' where
  normal := h.normal
  paused := by
    rw [h.paused, isPaused, isPaused, hpausedAt]
  since := h.since
  due p hp := h.due p (hsub p hp)
  entered p hp := h.entered p (hsub p hp)
  timer hrunning p hp := h.timer hrunning p (hsub p hp)

def resumed (pausedFor now : Timeval) (p : Pending) : Pending :=
  eventAdd now ((p.data.due.add pausedFor).sub now) { p.data with due := p.data.due.add pausedFor }

theorem resumeLoop_eq_some_iff {pausedFor now : Timeval} (hpausedFor : pausedFor.Normal) (hnow : now.Normal) {l l' : List Pending}
    (hdue : ∀ p ∈ l, p.data.due.Normal) :
    resumeLoop pausedFor now l = some l' ↔
      (∀ p ∈ l, now.micros ≤ p.data.due.micros + pausedFor.micros) ∧ l' = l.map (resumed pausedFor now) := by
  induction l generalizing l' with
  | nil => simp [resumeLoop, eq_comm]
  | cons p l ih =>
    obtain ⟨hp, hl⟩ := List.forall_mem_cons.mp hdue
    have hremain := ((hp.add hpausedFor).sub hnow).nonneg_iff
    rw [Timeval.micros_sub, Timeval.micros_add] at hremain
    rw [resumeLoop, List.forall_mem_cons, List.map_cons]
    split
    · rename_i hassert
      have hle : now.micros ≤ p.data.due.micros + pausedFor.micros := by
        have hnonneg := hremain.mp hassert
        omega
      rw [Option.map_eq_some_iff]
      constructor
      · rintro ⟨rest, hrest, rfl⟩
        obtain ⟨hall, rfl⟩ := (ih hl).mp hrest
        exact ⟨⟨hle, hall⟩, rfl⟩
      · rintro ⟨⟨-, hall⟩, rfl⟩
        exact ⟨_, (ih hl).mpr ⟨hall, rfl⟩, rfl⟩
    · rename_i hassert
      apply iff_of_false
      · intro h
        cases h
      · rintro ⟨⟨hle, -⟩, -⟩
        apply hassert
        rw [hremain]
        omega

variable {w : Stopwatch} {q : Queue} {now : Timeval}

theorem mem_enqueueDelayed {event : Event} {delayMs : Nat} {uuid : String} {p : Pending} :
    p ∈ (enqueueDelayed event delayMs uuid now q).callbackData ↔
      (p ∈ q.callbackData ∧ p.data.eventUUID ≠ uuid) ∨
        p = eventAdd now (delayOf delayMs)
          { userData := event, eventUUID := uuid, added := now, due := (delayOf delayMs).add now } := by
  rw [enqueueDelayed, cancelDelayed, List.mem_append, List.mem_filter, List.mem_singleton, decide_eq_true_iff]

theorem tracks_enqueueDelayed (h : Tracks w q) (event : Event) (delayMs : Nat) (uuid : String) :
    Tracks { w with entered := Function.update w.entered uuid (some ⟨w.now, w.unpaused, delayMs⟩) }
      (enqueueDelayed event delayMs uuid w.now q) where
  normal := h.normal
  paused := h.paused
  since := h.since
  due := by
    intro p hp
    rcases mem_enqueueDelayed.mp hp with ⟨hp, -⟩ | rfl
    · exact h.due p hp
    · rw [eventAdd]
      dsimp only
      exact (BasicDelayedEventQueue.normal_delayOf delayMs).add h.normal
  entered := by
    intro p hp
    rcases mem_enqueueDelayed.mp hp with ⟨hp, hne⟩ | rfl
    · obtain ⟨e, hentered, htime⟩ := h.entered p hp
      exact ⟨e, (Function.update_of_ne hne _ _).trans hentered, htime⟩
    · exact ⟨_, Function.update_self .., rfl, le_rfl⟩
  timer := by
    intro hrunning p hp
    rcases mem_enqueueDelayed.mp hp with ⟨hp, -⟩ | rfl
    · exact h.timer hrunning p hp
    · rw [eventAdd, Timeval.micros_add, add_comm]

theorem tracks_pause (h : Tracks w q) (hpos : 0 < w.now.micros) :
    Tracks { w with paused := some (w.paused.getD w.now) } (pause w.now q) := by
  rw [pause]
  split
  · rename_i hpaused
    have hsince : w.paused = some q.pausedAt := by rw [h.paused, if_pos hpaused]
    have hgetD : w.paused = some (w.paused.getD w.now) := by rw [hsince, Option.getD_some]
    rw [Stopwatch.eq_with_paused hgetD]
    exact h
  · rename_i hpaused
    have hsince : w.paused = none := by rw [h.paused, if_neg hpaused]
    constructor
    · exact h.normal
    · rw [if_pos (isPaused_of_pos hpos), hsince]
      rfl
    · intro since hsince'
      rw [hsince] at hsince'
      obtain rfl : w.now = since := Option.some.inj hsince'
      exact ⟨h.normal, le_rfl⟩
    · intro p' hp'
      obtain ⟨p, hp, rfl⟩ := List.mem_map.mp hp'
      exact h.due p hp
    · intro p' hp'
      obtain ⟨p, hp, rfl⟩ := List.mem_map.mp hp'
      exact h.entered p hp
    · intro hnone
      cases hnone

theorem tracks_resume {q' : Queue} (h : Tracks w q) (hresume : resume w.now q = some q') :
    Tracks { w with paused := none } q' := by
  rw [resume] at hresume
  split at hresume
  · rename_i hpaused
    obtain ⟨cbs, hloop, rfl⟩ := Option.map_eq_some_iff.mp hresume
    have hsince : w.paused = some q.pausedAt := by rw [h.paused, if_pos hpaused]
    have hpausedFor := h.normal.sub (h.since _ hsince).1
    obtain ⟨-, rfl⟩ := (resumeLoop_eq_some_iff hpausedFor h.normal h.due).mp hloop
    constructor
    · exact h.normal
    · rfl
    · intro since hnone
      cases hnone
    · intro p' hp'
      obtain ⟨p, hp, rfl⟩ := List.mem_map.mp hp'
      exact (h.due p hp).add hpausedFor
    · intro p' hp'
      obtain ⟨p, hp, rfl⟩ := List.mem_map.mp hp'
      exact h.entered p hp
    · intro _ p' hp'
      obtain ⟨p, hp, rfl⟩ := List.mem_map.mp hp'
      rw [resumed, eventAdd, Timeval.micros_sub, add_sub_cancel]
  · rename_i hpaused
    obtain rfl := Option.some.inj hresume
    have hsince : w.paused = none := by rw [h.paused, if_neg hpaused]
    rw [Stopwatch.eq_with_paused hsince]
    exact h.sublist rfl fun p hp => hp

theorem tracks_step {q' : Queue} {c : Reading × Call} (h : Tracks w q) (hle : w.now.micros ≤ c.1.micros)
    (hstep : step c.1.toTimeval q c.2 = some q') : Tracks (w.call c) q' := by
  have helapsed := h.elapse c.1.normal hle
  obtain ⟨time, call⟩ := c
  cases call with
  | enqueueDelayed event delayMs uuid =>
    obtain rfl := Option.some.inj hstep
    exact tracks_enqueueDelayed helapsed event delayMs uuid
  | cancelDelayed eventId =>
    obtain rfl := Option.some.inj hstep
    exact helapsed.sublist rfl fun p hp => (List.mem_filter.mp hp).1
  | timerCallback uuid =>
    obtain rfl := Option.some.inj hstep
    exact helapsed.sublist rfl fun p hp => (List.mem_filter.mp hp).1
  | pause =>
    obtain rfl := Option.some.inj hstep
    exact tracks_pause helapsed time.pos
  | resume => exact tracks_resume helapsed hstep

theorem keepsDelay_enqueueDelayed_iff (h : Tracks w q) (hlaw : ∀ p ∈ q.callbackData, KeepsDelay w p) (event : Event)
    (delayMs : Nat) (uuid : String) :
    (∀ p ∈ (enqueueDelayed event delayMs uuid w.now q).callbackData,
        KeepsDelay { w with entered := Function.update w.entered uuid (some ⟨w.now, w.unpaused, delayMs⟩) } p) ↔
      delayMs < 1000 * 2 ^ 31 := by
  set p₀ := eventAdd w.now (delayOf delayMs)
    { userData := event, eventUUID := uuid, added := w.now, due := (delayOf delayMs).add w.now } with hp₀
  set w' : Stopwatch := { w with entered := Function.update w.entered uuid (some ⟨w.now, w.unpaused, delayMs⟩) } with hw'
  have hnew : KeepsDelay w' p₀ ↔ (delayOf delayMs).micros = 1000 * delayMs := by
    have hentered : w'.entered p₀.data.eventUUID = some ⟨w.now, w.unpaused, delayMs⟩ := Function.update_self ..
    rw [keepsDelay_iff hentered, OnTime]
    have hpaused : w'.paused = w.paused := rfl
    rw [hpaused]
    cases hw : w.paused with
    | none =>
      have hclock : w.unpaused + (w.now.micros + (delayOf delayMs).micros - w.now.micros) - w.unpaused =
          (delayOf delayMs).micros := by omega
      constructor
      · rintro ⟨due, htimer, hdue⟩
        obtain rfl : w.now.micros + (delayOf delayMs).micros = due := Option.some.inj htimer
        exact hclock.symm.trans hdue
      · intro hdelay
        exact ⟨_, rfl, hclock.trans hdelay⟩
    | some since =>
      have hbefore := (h.since since hw).2
      rw [hp₀, eventAdd]
      dsimp only
      rw [Timeval.micros_add, max_eq_right hbefore, sub_self, add_sub_cancel_right, zero_add]
  rw [← BasicDelayedEventQueue.micros_delayOf_iff, ← hnew]
  constructor
  · intro hall
    exact hall p₀ (mem_enqueueDelayed.mpr (.inr rfl))
  · intro hlast p hp
    rcases mem_enqueueDelayed.mp hp with ⟨hp, hne⟩ | rfl
    · obtain ⟨e, hentered, hontime⟩ := hlaw p hp
      exact ⟨e, (Function.update_of_ne hne _ _).trans hentered, hontime⟩
    · exact hlast

theorem keepsDelay_pause (h : Tracks w q) (hlaw : ∀ p ∈ q.callbackData, KeepsDelay w p) :
    ∀ p ∈ (pause w.now q).callbackData, KeepsDelay { w with paused := some (w.paused.getD w.now) } p := by
  rw [pause]
  split
  · rename_i hpaused
    have hsince : w.paused = some q.pausedAt := by rw [h.paused, if_pos hpaused]
    obtain ⟨_, _, _, _⟩ := w
    obtain rfl := hsince
    exact hlaw
  · rename_i hpaused
    have hsince : w.paused = none := by rw [h.paused, if_neg hpaused]
    intro p' hp'
    obtain ⟨p, hp, rfl⟩ := List.mem_map.mp hp'
    obtain ⟨e, hentered, -, hbefore⟩ := h.entered p hp
    have hontime := (keepsDelay_iff hentered).mp (hlaw p hp)
    rw [OnTime, hsince] at hontime
    obtain ⟨due, htimer, hdue⟩ := hontime
    rw [h.timer hsince p hp] at htimer
    obtain rfl := Option.some.inj htimer
    refine ⟨e, hentered, ?_⟩
    -- what is left counts from now on
    show w.unpaused - e.unpaused + (p.data.due.micros - max (w.paused.getD w.now).micros e.time.micros) = 1000 * e.delayMs
    rw [hsince, Option.getD_none, max_eq_left hbefore]
    omega

theorem keepsDelay_resume_iff (h : Tracks w q) (hlaw : ∀ p ∈ q.callbackData, KeepsDelay w p) :
    (∃ q', resume w.now q = some q' ∧ ∀ p ∈ q'.callbackData, KeepsDelay { w with paused := none } p) ↔
      (isPaused q → ∀ p ∈ q.callbackData,
        p.data.added.micros ≤ q.pausedAt.micros ∧ q.pausedAt.micros ≤ p.data.due.micros) := by
  by_cases hpaused : isPaused q = true
  · have hsince : w.paused = some q.pausedAt := by rw [h.paused, if_pos hpaused]
    set pausedFor := w.now.sub q.pausedAt with hpausedFor
    have hlength : pausedFor.micros = w.now.micros - q.pausedAt.micros := Timeval.micros_sub _ _
    have hloop : ∀ {l'}, resumeLoop pausedFor w.now q.callbackData = some l' ↔
        (∀ p ∈ q.callbackData, w.now.micros ≤ p.data.due.micros + pausedFor.micros) ∧
          l' = q.callbackData.map (resumed pausedFor w.now) :=
      resumeLoop_eq_some_iff (h.normal.sub (h.since _ hsince).1) h.normal h.due
    -- the whole pause is right for an event that was entered before it
    have hontime : ∀ p ∈ q.callbackData,
        (KeepsDelay { w with paused := none } (resumed pausedFor w.now p) ↔ p.data.added.micros ≤ q.pausedAt.micros) := by
      intro p hp
      obtain ⟨e, hentered, htime, -⟩ := h.entered p hp
      have hbefore := (keepsDelay_iff hentered).mp (hlaw p hp)
      rw [OnTime, hsince] at hbefore
      dsimp only at hbefore
      have htimer : (resumed pausedFor w.now p).timer = some (p.data.due.micros + pausedFor.micros) := by
        rw [resumed, eventAdd, Timeval.micros_sub, Timeval.micros_add, add_sub_cancel]
      have hentered' : ({ w with paused := none } : Stopwatch).entered (resumed pausedFor w.now p).data.eventUUID = some e :=
        hentered
      have hiff : OnTime { w with paused := none } (resumed pausedFor w.now p) e ↔
          w.unpaused + (p.data.due.micros + pausedFor.micros - w.now.micros) - e.unpaused = 1000 * e.delayMs := by
        constructor
        · rintro ⟨due, hdue, hwait⟩
          rw [htimer] at hdue
          obtain rfl := Option.some.inj hdue
          exact hwait
        · exact fun hwait => ⟨_, htimer, hwait⟩
      rw [keepsDelay_iff hentered', hiff, ← htime]
      omega
    rw [resume, if_pos hpaused, forall_prop_of_true hpaused]
    constructor
    · rintro ⟨q', hq', hafter⟩ p hp
      obtain ⟨cbs, hcbs, rfl⟩ := Option.map_eq_some_iff.mp hq'
      obtain ⟨hassert, rfl⟩ := hloop.mp hcbs
      have hdue := hassert p hp
      exact ⟨(hontime p hp).mp (hafter _ (List.mem_map_of_mem hp)), by omega⟩
    · intro hmeets
      have hassert : ∀ p ∈ q.callbackData, w.now.micros ≤ p.data.due.micros + pausedFor.micros := by
        intro p hp
        have hdue := (hmeets p hp).2
        omega
      refine ⟨_, congrArg (Option.map _) (hloop.mpr ⟨hassert, rfl⟩), ?_⟩
      intro p' hp'
      obtain ⟨p, hp, rfl⟩ := List.mem_map.mp hp'
      exact (hontime p hp).mpr (hmeets p hp).1
  · have hsince : w.paused = none := by rw [h.paused, if_neg hpaused]
    rw [resume, if_neg hpaused, Stopwatch.eq_with_paused hsince]
    exact iff_of_true ⟨_, rfl, hlaw⟩ fun h => absurd h hpaused

/-- Exactly the calls that meet the condition keep the delays, and no other lets the assertion fail. -/
theorem keepsDelay_step_iff {c : Reading × Call} (h : Tracks w q) (hle : w.now.micros ≤ c.1.micros)
    (hlaw : ∀ p ∈ q.callbackData, KeepsDelay w p) :
    (∃ q', step c.1.toTimeval q c.2 = some q' ∧ ∀ p ∈ q'.callbackData, KeepsDelay (w.call c) p) ↔ Meets q c.2 := by
  have helapsed := h.elapse c.1.normal hle
  have hlaw' : ∀ p ∈ q.callbackData, KeepsDelay (w.elapse c.1.toTimeval) p :=
    fun p hp => (keepsDelay_elapse _).mpr (hlaw p hp)
  have hsome : ∀ {q' : Queue} {P : Queue → Prop}, (∃ q'', some q' = some q'' ∧ P q'') ↔ P q' := by simp
  obtain ⟨time, call⟩ := c
  cases call with
  | enqueueDelayed event delayMs uuid => exact hsome.trans (keepsDelay_enqueueDelayed_iff helapsed hlaw' event delayMs uuid)
  | cancelDelayed eventId => exact hsome.trans (iff_of_true (fun p hp => hlaw' p (List.mem_filter.mp hp).1) trivial)
  | timerCallback uuid => exact hsome.trans (iff_of_true (fun p hp => hlaw' p (List.mem_filter.mp hp).1) trivial)
  | pause => exact hsome.trans (iff_of_true (keepsDelay_pause helapsed hlaw') trivial)
  | resume =>
    have hstep : step time.toTimeval q .resume = resume (w.elapse time.toTimeval).now q := rfl
    have hcall : w.call (time, .resume) = { w.elapse time.toTimeval with paused := none } := rfl
    rw [hstep, hcall]
    exact keepsDelay_resume_iff helapsed hlaw'

/-! ### Runs -/

theorem run_concat (calls : List (Reading × Call)) (c : Reading × Call) :
    run (calls ++ [c]) = (run calls).bind fun q => step c.1.toTimeval q c.2 :=
  List.foldlM_concat _ _ calls c

theorem watch_concat (calls : List (Reading × Call)) (c : Reading × Call) : watch (calls ++ [c]) = (watch calls).call c :=
  List.foldl_concat ..

theorem now_watch_concat (calls : List (Reading × Call)) (c : Reading × Call) :
    (watch (calls ++ [c])).now = c.1.toTimeval := by
  rw [watch_concat, Stopwatch.call]
  split <;> rfl

theorem now_watch_le {calls : List (Reading × Call)} {c : Reading × Call}
    (h : (calls ++ [c]).Pairwise fun c c' => c.1.micros ≤ c'.1.micros) : (watch calls).now.micros ≤ c.1.micros := by
  rcases List.eq_nil_or_concat calls with rfl | ⟨before, last, rfl⟩
  · exact c.1.pos.le
  · rw [List.concat_eq_append] at h ⊢
    rw [now_watch_concat]
    exact (List.pairwise_append.mp h).2.2 last (by simp) c (by simp)

theorem tracks_run {calls : List (Reading × Call)} (h : calls.Pairwise fun c c' => c.1.micros ≤ c'.1.micros) {q : Queue}
    (hrun : run calls = some q) : Tracks (watch calls) q := by
  induction calls using List.reverseRecOn generalizing q with
  | nil =>
    obtain rfl := Option.some.inj hrun
    refine ⟨⟨le_rfl, by decide⟩, rfl, ?_, List.forall_mem_nil _, List.forall_mem_nil _, fun _ => List.forall_mem_nil _⟩
    intro since hsince
    cases hsince
  | append_singleton calls c ih =>
    rw [run_concat] at hrun
    obtain ⟨q₀, hq₀, hstep⟩ := Option.bind_eq_some_iff.mp hrun
    rw [watch_concat]
    exact tracks_step (ih (List.pairwise_append.mp h).1 hq₀) (now_watch_le h) hstep

/-- The delays are kept and the assertion holds in all states of a history exactly when all of its calls meet the condition. -/
theorem keepsDelays_iff (h : History) :
    (∀ calls, calls <+: h.calls → ∃ q, run calls = some q ∧ ∀ p ∈ q.callbackData, KeepsDelay (watch calls) p) ↔
      ∀ calls c q, calls ++ [c] <+: h.calls → run calls = some q → Meets q c.2 := by
  have hordered : ∀ {calls}, calls <+: h.calls → calls.Pairwise fun c c' => c.1.micros ≤ c'.1.micros :=
    fun hpre => h.ordered.sublist hpre.sublist
  apply List.foldlM_keeps_iff (List.forall_mem_nil _)
  intro calls c q hpre hrun hlaw
  have htracks := tracks_run (hordered ((List.prefix_append _ _).trans hpre)) hrun
  rw [watch_concat]
  exact keepsDelay_step_iff htracks (now_watch_le (hordered hpre)) hlaw

/-- An event with a delay of a second is entered a second after the beginning of a pause, which goes on for two more. -/
def enteredInPause : History where
  calls := [(⟨⟨1, 0⟩, by decide, by decide⟩, .pause), (⟨⟨2, 0⟩, by decide, by decide⟩, .enqueueDelayed {} 1000 "event"),
    (⟨⟨4, 0⟩, by decide, by decide⟩, .resume)]
  ordered := by decide

/-- Its timer is set to two seconds after the pause. -/
theorem enteredInPause_not_keepsDelay :
    ¬ ∀ calls, calls <+: enteredInPause.calls →
      ∃ q, run calls = some q ∧ ∀ p ∈ q.callbackData, KeepsDelay (watch calls) p := by
  intro h
  obtain ⟨q, hq, hlaw⟩ := h _ List.prefix_rfl
  obtain rfl : _ = q := Option.some.inj hq
  obtain ⟨e, hentered, due, hdue, hwait⟩ := hlaw _ List.mem_cons_self
  obtain rfl : _ = e := Option.some.inj hentered
  obtain rfl : 6000000 = due := Option.some.inj hdue
  exact absurd hwait (by decide)

end PausableDelayedEventQueue

end Uscxml
