import Mathlib.Logic.Function.Basic

/-!
# The locks of the delay queue

Three threads meet at `BasicDelayedEventQueue`: one that enqueues and cancels through `InterpreterImpl` (`_delayMutex`, then
`_mutex`), one that runs `serialize` and the timer thread with `run` and `timerCallback`. Every step stands between two
points at which a thread can be stopped. Of libevent the steps have what it documents: `event_base_loop` forgets an
earlier `event_base_loopbreak` when it is entered, and the broken loop ends after the next event is completed.
-/

namespace Uscxml

namespace DelayLocks

inductive Thread where
  | client | serializer | timer
  deriving DecidableEq, Repr

/-- `InterpreterImpl::enqueue` and `InterpreterImpl::cancelDelayed`. -/
inductive Client where
  | outside | delayLocked | locked
  deriving DecidableEq, Repr

/-- `BasicDelayedEventQueue::serialize`: holding `_mutex`, after `_isStarted = false`, and waiting in `join`. -/
inductive Serializer where
  | outside | locked | stopping | joining
  deriving DecidableEq, Repr

/-- `BasicDelayedEventQueue::run`: at its `while`, in front of `event_base_loop` and in it; `timerCallback`: in front of its
first lock, in its first block, in front of `_delayMutex`, in `eventReady`, in front of its second lock, in its last
block and at its end. -/
inductive Timer where
  | check | entering | waiting
  | wantsFirst (uuid : String) | inFirst (uuid : String)
  | wantsReady (uuid : String) | inReady (uuid : String)
  | wantsLast (uuid : String) | inLast (uuid : String)
  | returning
  | ended
  deriving DecidableEq, Repr

structure State where
  mutex : Option Thread := none
  delayMutex : Option Thread := none
  isStarted : Bool := true
  loopBreak : Bool := false
  callbackData : String → Bool := fun _ => false
  pending : String → Bool := fun _ => false
  due : String → Bool := fun _ => false
  client : Client := .outside
  serializer : Serializer := .outside
  timer : Timer := .check

inductive Action where
  | delayLock | lock | enqueueDelayed (uuid : String) | cancelDelayed (uuid : String) | delayUnlock
  | serializeLock | serializeStop | serializeBreak | serializeReturn
  | becomeDue (uuid : String)
  | timerCheck | timerEnter | timerFire (uuid : String) | timerLeave (once : Bool)
  | firstLock (uuid : String) | firstBlock (uuid : String)
  | readyLock (uuid : String) | readyUnlock (uuid : String)
  | lastLock (uuid : String) | lastBlock (uuid : String)
  deriving DecidableEq, Repr

def Action.Enabled (s : State) : Action → Prop
  | .delayLock => s.client = .outside ∧ s.delayMutex = none
  | .lock => s.client = .delayLocked ∧ s.mutex = none
  | .enqueueDelayed _ | .cancelDelayed _ => s.client = .locked
  | .delayUnlock => s.client = .delayLocked
  | .serializeLock => s.serializer = .outside ∧ s.mutex = none
  | .serializeStop => s.serializer = .locked
  | .serializeBreak => s.serializer = .stopping
  | .serializeReturn => s.serializer = .joining ∧ s.timer = .ended
  | .becomeDue uuid => s.pending uuid = true
  | .timerCheck => s.timer = .check
  | .timerEnter => s.timer = .entering
  | .timerFire uuid => s.timer = .waiting ∧ s.pending uuid = true ∧ s.due uuid = true
  -- `EVLOOP_ONCE` ends the loop when no further event is active.
  | .timerLeave once => s.timer = .waiting ∨ s.timer = .returning ∧ (s.loopBreak = true → once = true)
  | .firstLock uuid => s.timer = .wantsFirst uuid ∧ s.mutex = none
  | .firstBlock uuid => s.timer = .inFirst uuid
  | .readyLock uuid => s.timer = .wantsReady uuid ∧ s.delayMutex = none
  | .readyUnlock uuid => s.timer = .inReady uuid
  | .lastLock uuid => s.timer = .wantsLast uuid ∧ s.mutex = none
  | .lastBlock uuid => s.timer = .inLast uuid

instance (s : State) : (a : Action) → Decidable (a.Enabled s)
  | .enqueueDelayed _ | .cancelDelayed _ | .delayUnlock | .serializeStop | .serializeBreak | .becomeDue _ | .timerCheck
  | .timerEnter | .firstBlock _ | .readyUnlock _ | .lastBlock _ => inferInstanceAs (Decidable (_ = _))
  | .delayLock | .lock | .serializeLock | .serializeReturn | .firstLock _ | .readyLock _ | .lastLock _ =>
    inferInstanceAs (Decidable (_ ∧ _))
  | .timerFire _ => inferInstanceAs (Decidable (_ ∧ _ ∧ _))
  | .timerLeave _ => inferInstanceAs (Decidable (_ ∨ _ ∧ (_ → _)))

def Action.run (s : State) : Action → State
  | .delayLock => { s with client := .delayLocked, delayMutex := some .client }
  | .lock => { s with client := .locked, mutex := some .client }
  | .enqueueDelayed uuid =>
    { s with
      callbackData := Function.update s.callbackData uuid true, pending := Function.update s.pending uuid true
      due := Function.update s.due uuid false, client := .delayLocked, mutex := none }
  | .cancelDelayed uuid =>
    { s with
      callbackData := Function.update s.callbackData uuid false, pending := Function.update s.pending uuid false
      client := .delayLocked, mutex := none }
  | .delayUnlock => { s with client := .outside, delayMutex := none }
  | .serializeLock => { s with serializer := .locked, mutex := some .serializer }
  | .serializeStop => { s with serializer := .stopping, isStarted := false }
  | .serializeBreak => { s with serializer := .joining, loopBreak := true }
  -- `start()` and the end of the `lock_guard`.
  | .serializeReturn => { s with serializer := .outside, isStarted := true, timer := .check, mutex := none }
  | .becomeDue uuid => { s with due := Function.update s.due uuid true }
  | .timerCheck => { s with timer := if s.isStarted then .entering else .ended }
  | .timerEnter => { s with timer := .waiting, loopBreak := false }
  | .timerFire uuid => { s with timer := .wantsFirst uuid, pending := Function.update s.pending uuid false }
  | .timerLeave once => { s with timer := if once then .check else .waiting }
  | .firstLock uuid => { s with timer := .inFirst uuid, mutex := some .timer }
  | .firstBlock uuid => { s with timer := if s.callbackData uuid then .wantsReady uuid else .returning, mutex := none }
  | .readyLock uuid => { s with timer := .inReady uuid, delayMutex := some .timer }
  | .readyUnlock uuid => { s with timer := .wantsLast uuid, delayMutex := none }
  | .lastLock uuid => { s with timer := .inLast uuid, mutex := some .timer }
  | .lastBlock uuid =>
    { s with callbackData := Function.update s.callbackData uuid false, timer := .returning, mutex := none }

inductive Interleaving : State → Prop where
  | start : Interleaving {}
  | step {s : State} (a : Action) (hs : Interleaving s) (h : a.Enabled s) : Interleaving (a.run s)

/-- The timer thread stands in front of one of the two locks of `timerCallback`. -/
def Timer.WantsMutex : Timer → Prop
  | .wantsFirst _ | .wantsLast _ => True
  | _ => False

/-- The timer thread is not inside of `timerCallback`. -/
def Timer.Outside : Timer → Prop
  | .check | .entering | .waiting | .returning | .ended => True
  | _ => False

/-- `serialize` waits for the timer thread, and the timer thread for the `_mutex` that `serialize` holds. -/
def Deadlocked (s : State) : Prop :=
  s.serializer = .joining ∧ s.mutex = some .serializer ∧ s.timer.WantsMutex

/-- The timer thread ends without another round of the event loop. -/
def Stopped (s : State) : Prop := s.isStarted = false ∧ (s.timer = .check ∨ s.timer = .ended)

def NoneDue (s : State) : Prop := ∀ uuid, s.pending uuid = true → s.due uuid = false

/-- When `serialize` takes `_mutex` the timer thread is outside of `timerCallback` and no timer is due, and while it holds
it no timer becomes due before the timer thread has left its loop. -/
def Action.Calm (s : State) : Action → Prop
  | .serializeLock => s.timer.Outside ∧ NoneDue s
  | .becomeDue _ => s.serializer = .outside ∨ Stopped s
  | _ => True

inductive CalmInterleaving : State → Prop where
  | start : CalmInterleaving {}
  | step {s : State} (a : Action) (hs : CalmInterleaving s) (h : a.Enabled s) (hcalm : a.Calm s) :
      CalmInterleaving (a.run s)

/-- What holds along calm interleavings: the two other threads hold `_mutex` in their blocks, and `serialize` holds it
from its first step to its last, with the timer thread outside of `timerCallback` and nothing that would bring it there. -/
structure Guarded (s : State) : Prop where
  client : s.client = .locked → s.mutex = some .client
  first : ∀ uuid, s.timer = .inFirst uuid → s.mutex = some .timer
  last : ∀ uuid, s.timer = .inLast uuid → s.mutex = some .timer
  serializer : s.serializer ≠ .outside → s.mutex = some .serializer
  outside : s.serializer ≠ .outside → s.timer.Outside
  quiet : s.serializer ≠ .outside → NoneDue s ∨ Stopped s
  started : s.isStarted = false → s.serializer ≠ .outside

theorem Guarded.outside_of_mutex {s : State} (h : Guarded s) (hmutex : s.mutex ≠ some .serializer) :
    s.serializer = .outside := by
  by_contra hne
  exact hmutex (h.serializer hne)

/-- A timer thread inside of `timerCallback` means that `serialize` does not run. -/
theorem Guarded.outside_of_timer {s : State} (h : Guarded s) (htimer : ¬ s.timer.Outside) : s.serializer = .outside := by
  by_contra hne
  exact htimer (h.outside hne)

/-- While `serialize` does not run only the holders of `_mutex` matter. -/
theorem guarded_of_outside {s : State} (hout : s.serializer = .outside) (hstarted : s.isStarted = true)
    (hclient : s.client = .locked → s.mutex = some .client) (hfirst : ∀ uuid, s.timer = .inFirst uuid → s.mutex = some .timer)
    (hlast : ∀ uuid, s.timer = .inLast uuid → s.mutex = some .timer) : Guarded s where
  client := hclient
  first := hfirst
  last := hlast
  serializer := fun h => absurd hout h
  outside := fun h => absurd hout h
  quiet := fun h => absurd hout h
  started := fun h => absurd (hstarted.symm.trans h) (by simp)

theorem Guarded.isStarted {s : State} (h : Guarded s) (hout : s.serializer = .outside) : s.isStarted = true := by
  by_contra hne
  exact h.started (Bool.eq_false_iff.mpr hne) hout

theorem client_guarded {s : State} (h : Guarded s) (hclient : s.client = .locked) (s' : State)
    (hs' : s' = { s with
      callbackData := s'.callbackData, pending := s'.pending, due := s'.due, client := .delayLocked, mutex := none }) :
    Guarded s' := by
  have hmutex := h.client hclient
  have hout : s.serializer = .outside := h.outside_of_mutex (by simp [hmutex])
  rw [hs']
  refine guarded_of_outside hout (h.isStarted hout) ?_ ?_ ?_
  · simp
  · intro uuid huuid
    have := h.first uuid huuid
    simp_all
  · intro uuid huuid
    have := h.last uuid huuid
    simp_all

theorem step_guarded {s : State} (h : Guarded s) {a : Action} (henabled : a.Enabled s) (hcalm : a.Calm s) :
    Guarded (a.run s) := by
  cases a with
  | delayLock => exact ⟨by simp [Action.run], h.first, h.last, h.serializer, h.outside, h.quiet, h.started⟩
  | lock =>
    have hout : s.serializer = .outside := h.outside_of_mutex (by simp [henabled.2])
    refine guarded_of_outside hout (h.isStarted hout) ?_ ?_ ?_
    · exact fun _ => rfl
    · intro uuid huuid
      exact absurd (h.first uuid huuid) (by simp [henabled.2])
    · intro uuid huuid
      exact absurd (h.last uuid huuid) (by simp [henabled.2])
  | enqueueDelayed uuid => exact client_guarded h henabled _ rfl
  | cancelDelayed uuid => exact client_guarded h henabled _ rfl
  | delayUnlock => exact ⟨by simp [Action.run], h.first, h.last, h.serializer, h.outside, h.quiet, h.started⟩
  | serializeLock =>
    obtain ⟨houtside, hdue⟩ := hcalm
    constructor
    · intro hclient
      exact absurd (h.client hclient) (by simp [henabled.2])
    · intro uuid huuid
      exact absurd (h.first uuid huuid) (by simp [henabled.2])
    · intro uuid huuid
      exact absurd (h.last uuid huuid) (by simp [henabled.2])
    · exact fun _ => rfl
    · exact fun _ => houtside
    · exact fun _ => .inl hdue
    · simp [Action.run]
  | serializeStop =>
    have hne : s.serializer ≠ .outside := by simp [show s.serializer = .locked from henabled]
    refine ⟨h.client, h.first, h.last, fun _ => h.serializer hne, fun _ => h.outside hne, fun _ => ?_, by simp [Action.run]⟩
    exact (h.quiet hne).imp id (fun hstopped => ⟨rfl, hstopped.2⟩)
  | serializeBreak =>
    have hne : s.serializer ≠ .outside := by simp [show s.serializer = .stopping from henabled]
    exact ⟨h.client, h.first, h.last, fun _ => h.serializer hne, fun _ => h.outside hne, fun _ => h.quiet hne,
      by simp [Action.run]⟩
  | serializeReturn =>
    have hne : s.serializer ≠ .outside := by simp [henabled.1]
    refine guarded_of_outside rfl rfl ?_ ?_ ?_
    · intro hclient
      have := (h.client hclient).symm.trans (h.serializer hne)
      simp at this
    · simp [Action.run]
    · simp [Action.run]
  | becomeDue uuid =>
    refine ⟨h.client, h.first, h.last, h.serializer, h.outside, fun hne => ?_, h.started⟩
    exact .inr (hcalm.resolve_left hne)
  | timerCheck =>
    refine ⟨h.client, ?_, ?_, h.serializer, ?_, ?_, h.started⟩
    · intro uuid huuid
      simp only [Action.run] at huuid
      split at huuid <;> simp at huuid
    · intro uuid huuid
      simp only [Action.run] at huuid
      split at huuid <;> simp at huuid
    · intro _
      simp only [Action.run]
      split <;> trivial
    · intro hne
      rcases h.quiet hne with hdue | hstopped
      · exact .inl hdue
      · refine .inr ⟨hstopped.1, .inr ?_⟩
        simp [Action.run, hstopped.1]
  | timerEnter =>
    refine ⟨h.client, by simp [Action.run], by simp [Action.run], h.serializer, fun _ => trivial, fun hne => ?_, h.started⟩
    refine (h.quiet hne).imp id (fun hstopped => ?_)
    have : s.timer = .entering := henabled
    rcases hstopped.2 with hcheck | hended <;> simp_all
  | timerFire uuid =>
    have hout : s.serializer = .outside := by
      by_contra hne
      rcases h.quiet hne with hdue | hstopped
      · exact absurd (hdue uuid henabled.2.1) (by simp [henabled.2.2])
      · rcases hstopped.2 with hcheck | hended
        · exact absurd (henabled.1.symm.trans hcheck) (by simp)
        · exact absurd (henabled.1.symm.trans hended) (by simp)
    exact guarded_of_outside hout (h.isStarted hout) h.client (by simp [Action.run]) (by simp [Action.run])
  | timerLeave once =>
    refine ⟨h.client, ?_, ?_, h.serializer, ?_, ?_, h.started⟩
    · intro uuid huuid
      simp only [Action.run] at huuid
      split at huuid <;> simp at huuid
    · intro uuid huuid
      simp only [Action.run] at huuid
      split at huuid <;> simp at huuid
    · intro _
      simp only [Action.run]
      split <;> trivial
    · intro hne
      refine (h.quiet hne).imp id (fun hstopped => ?_)
      rcases hstopped.2 with hcheck | hended <;> simp_all [Action.Enabled]
  | firstLock uuid =>
    have hout : s.serializer = .outside := h.outside_of_mutex (by simp [henabled.2])
    refine guarded_of_outside hout (h.isStarted hout) ?_ ?_ ?_
    · intro hclient
      exact absurd (h.client hclient) (by simp [henabled.2])
    · exact fun _ _ => rfl
    · exact fun _ _ => rfl
  | firstBlock uuid =>
    have hmutex := h.first uuid henabled
    have hout : s.serializer = .outside := h.outside_of_mutex (by simp [hmutex])
    refine guarded_of_outside hout (h.isStarted hout) ?_ ?_ ?_
    · intro hclient
      exact absurd (hmutex.symm.trans (h.client hclient)) (by simp)
    · intro uuid' huuid
      simp only [Action.run] at huuid
      split at huuid <;> simp at huuid
    · intro uuid' huuid
      simp only [Action.run] at huuid
      split at huuid <;> simp at huuid
  | readyLock uuid =>
    have hout : s.serializer = .outside := h.outside_of_timer (by simp [henabled.1, Timer.Outside])
    exact guarded_of_outside hout (h.isStarted hout) h.client (by simp [Action.run]) (by simp [Action.run])
  | readyUnlock uuid =>
    have htimer : s.timer = .inReady uuid := henabled
    have hout : s.serializer = .outside := h.outside_of_timer (by simp [htimer, Timer.Outside])
    exact guarded_of_outside hout (h.isStarted hout) h.client (by simp [Action.run]) (by simp [Action.run])
  | lastLock uuid =>
    have hout : s.serializer = .outside := h.outside_of_mutex (by simp [henabled.2])
    refine guarded_of_outside hout (h.isStarted hout) ?_ (fun _ _ => rfl) (fun _ _ => rfl)
    intro hclient
    exact absurd (h.client hclient) (by simp [henabled.2])
  | lastBlock uuid =>
    have hmutex := h.last uuid henabled
    have hout : s.serializer = .outside := h.outside_of_mutex (by simp [hmutex])
    refine guarded_of_outside hout (h.isStarted hout) ?_ (by simp [Action.run]) (by simp [Action.run])
    intro hclient
    exact absurd (hmutex.symm.trans (h.client hclient)) (by simp)

theorem CalmInterleaving.guarded {s : State} (hs : CalmInterleaving s) : Guarded s := by
  induction hs with
  | start => exact ⟨by simp, by simp, by simp, by simp, by simp, by simp, by simp⟩
  | step a _ h hcalm ih => exact step_guarded ih h hcalm

/-- Interleavings in which no timer is handled or becomes due while `serialize` runs. -/
theorem serialize_not_deadlocked {s : State} (hs : CalmInterleaving s) : ¬ Deadlocked s := by
  rintro ⟨hjoining, -, hwants⟩
  have houtside := hs.guarded.outside (by simp [hjoining])
  generalize s.timer = t at hwants houtside
  cases t <;> simp_all [Timer.WantsMutex, Timer.Outside]

def runActions (l : List Action) : State := l.foldl Action.run {}

/-- The timer thread waits in the event loop and a delayed event is pending. -/
def pendingTimer : List Action :=
  [.timerCheck, .timerEnter, .delayLock, .lock, .enqueueDelayed "u", .delayUnlock]

theorem pendingTimer_calm : CalmInterleaving (runActions pendingTimer) :=
  (((((CalmInterleaving.start.step .timerCheck (by decide) trivial).step .timerEnter (by decide) trivial).step .delayLock
    (by decide) trivial).step .lock (by decide) trivial).step (.enqueueDelayed "u") (by decide) trivial).step .delayUnlock
    (by decide) trivial

theorem pendingTimer_noneDue : NoneDue (runActions pendingTimer) := by
  intro uuid _
  show Function.update (fun _ => false) "u" false uuid = false
  simp [Function.update_apply]

/-- `serialize` stops the timer thread while an event waits whose timer is not due. -/
theorem serialize_not_deadlocked_pending :
    ¬ Deadlocked (runActions (pendingTimer ++ [.serializeLock, .serializeStop, .serializeBreak])) ∧
      (runActions (pendingTimer ++ [.serializeLock, .serializeStop, .serializeBreak])).serializer = .joining := by
  refine ⟨serialize_not_deadlocked ?_, by decide⟩
  exact ((pendingTimer_calm.step .serializeLock (by decide) ⟨trivial, pendingTimer_noneDue⟩).step .serializeStop
    (by decide) trivial).step .serializeBreak (by decide) trivial

theorem CalmInterleaving.interleaving {s : State} (hs : CalmInterleaving s) : Interleaving s := by
  induction hs with
  | start => exact .start
  | step a _ h _ ih => exact ih.step a h

/-- The timer fires, and `serialize` takes `_mutex` before `timerCallback` does. -/
theorem serialize_deadlocked :
    Interleaving (runActions (pendingTimer ++
      [.becomeDue "u", .timerFire "u", .serializeLock, .serializeStop, .serializeBreak])) ∧
    Deadlocked (runActions (pendingTimer ++
      [.becomeDue "u", .timerFire "u", .serializeLock, .serializeStop, .serializeBreak])) := by
  have htimer : (runActions (pendingTimer ++
      [.becomeDue "u", .timerFire "u", .serializeLock, .serializeStop, .serializeBreak])).timer = .wantsFirst "u" := by decide
  refine ⟨?_, by decide, by decide, htimer ▸ trivial⟩
  exact ((((pendingTimer_calm.interleaving.step (.becomeDue "u") (by decide)).step (.timerFire "u") (by decide)).step
    .serializeLock (by decide)).step .serializeStop (by decide)).step .serializeBreak (by decide)

end DelayLocks

end Uscxml
