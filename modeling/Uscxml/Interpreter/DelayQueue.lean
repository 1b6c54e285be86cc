import Uscxml.Messages
import Mathlib.Logic.Function.Basic

/-!
# Delayed events

`InterpreterImpl` keeps where a delayed event goes (`_delayedEventTargets`), `BasicDelayedEventQueue` keeps the event with
its timer (`_callbackData`), both by the uuid of the event. The interpreter thread enqueues and cancels, the timer
thread runs `timerCallback`. Every block under a mutex is one step, and so is every round of the loop of `cancelDelayed`, in
which `event_del` waits as long as the callback of the timer runs in the other thread. `uuid`s are never used twice.
-/

namespace Uscxml

namespace DelayedEvents

/-- The `sendid`, the type of the I/O processor and the target of an event. -/
abbrev Route := String × String × String

/-- Where the timer thread is: outside of `timerCallback`, in front of its first block, in front of `eventReady`, or in
front of its last block. -/
inductive TimerThread where
  | idle
  | fired (uuid : String)
  | freed (uuid : String)
  | handed (uuid : String)
  deriving DecidableEq, Repr

/-- The timer thread as one event sees it. -/
inductive Stage where
  | away | fired | freed | handed
  deriving DecidableEq, Repr

def stage (uuid : String) : TimerThread → Stage
  | .idle => .away
  | .fired u => if u = uuid then .fired else .away
  | .freed u => if u = uuid then .freed else .away
  | .handed u => if u = uuid then .handed else .away

/-- Where the interpreter thread is: outside of `cancelDelayed`, in its loop with `_delayMutex` held, or waiting in
`event_del` for the end of a callback, with `_mutex` held as well. -/
inductive InterpreterThread where
  | idle
  | cancelling (sendid : String)
  | deleting (sendid uuid : String)
  deriving DecidableEq, Repr

/-- The two maps, the timers of libevent and the threads. `frees` counts the calls of `event_free` for the timer of
an event. For every event `sendids` has the id it was sent with, `cancelled` whether a `cancelDelayed` for that id has
returned since, and `hands` the times it was handed to its I/O processor, each with the value of `cancelled`. -/
structure State where
  callbackData : String → Option Event := fun _ => none
  delayedEventTargets : String → Option Route := fun _ => none
  pending : String → Bool := fun _ => false
  frees : String → Nat := fun _ => 0
  timerThread : TimerThread := .idle
  interpreterThread : InterpreterThread := .idle
  sendids : String → Option String := fun _ => none
  cancelled : String → Bool := fun _ => false
  hands : String → List Bool := fun _ => []
  assertionFailed : Bool := false

/-! ### The blocks -/

/-- `BasicDelayedEventQueue::cancelDelayed`. -/
def cancelTimer (uuid : String) (s : State) : State :=
  if (s.callbackData uuid).isSome then
    { s with
      callbackData := Function.update s.callbackData uuid none
      pending := Function.update s.pending uuid false
      frees := Function.update s.frees uuid (s.frees uuid + 1) }
  else s

def enqueueDelayed (event : Event) (uuid : String) (s : State) : State :=
  let s := cancelTimer uuid s
  { s with
    callbackData := Function.update s.callbackData uuid (some event)
    pending := Function.update s.pending uuid true }

def eventReady (uuid : String) (s : State) : State :=
  { s with
    assertionFailed := s.assertionFailed || (s.delayedEventTargets uuid).isNone
    delayedEventTargets := Function.update s.delayedEventTargets uuid none
    hands := Function.update s.hands uuid (s.hands uuid ++ [s.cancelled uuid]) }

def enqueue (type target : String) (delayMs : Nat) (event : Event) (s : State) : State :=
  let s :=
    { s with
      assertionFailed := s.assertionFailed || decide (event.uuid = "") || (s.delayedEventTargets event.uuid).isSome
      delayedEventTargets := Function.update s.delayedEventTargets event.uuid (some (event.sendid, type, target))
      sendids := Function.update s.sendids event.uuid (some event.sendid) }
  if delayMs = 0 then eventReady event.uuid s else enqueueDelayed event event.uuid s

def routedFor (sendid : String) (s : State) (uuid : String) : Bool := (s.delayedEventTargets uuid).any (·.1 = sendid)

/-- The end of a round of `InterpreterImpl::cancelDelayed`. -/
def dropEvent (uuid : String) (s : State) : State :=
  { cancelTimer uuid s with delayedEventTargets := Function.update s.delayedEventTargets uuid none }

/-- A round of the loop of `InterpreterImpl::cancelDelayed`, for an event with the `sendid`. -/
def cancelRound (sendid uuid : String) (s : State) : State :=
  if (s.callbackData uuid).isSome && decide (stage uuid s.timerThread ≠ .away) then
    { s with interpreterThread := .deleting sendid uuid }
  else dropEvent uuid s

/-- `InterpreterImpl::cancelDelayed` returns. -/
def cancelReturns (sendid : String) (s : State) : State :=
  { s with
    interpreterThread := .idle
    cancelled := fun uuid => s.cancelled uuid || decide (s.sendids uuid = some sendid) }

def fire (uuid : String) (s : State) : State :=
  { s with pending := Function.update s.pending uuid false, timerThread := .fired uuid }

/-- The first block of `timerCallback`. -/
def freeTimer (uuid : String) (s : State) : State :=
  if (s.callbackData uuid).isSome then
    { s with frees := Function.update s.frees uuid (s.frees uuid + 1), timerThread := .freed uuid }
  else { s with timerThread := .idle }

/-- The last block of `timerCallback`. -/
def eraseRecord (uuid : String) (s : State) : State :=
  { s with callbackData := Function.update s.callbackData uuid none, timerThread := .idle }

/-! ### Interleavings -/

inductive Action where
  | enqueue (type target : String) (delayMs : Nat) (event : Event)
  | cancelDelayed (sendid : String)
  | cancelRound (sendid uuid : String)
  | deleted (sendid uuid : String)
  | cancelReturns (sendid : String)
  | fire (uuid : String)
  | freeTimer (uuid : String)
  | eventReady (uuid : String)
  | eraseRecord (uuid : String)

/-- When a block can run: the mutexes it takes are free. -/
def Action.Enabled (s : State) : Action → Prop
  | .enqueue _ _ _ event => s.interpreterThread = .idle ∧ event.uuid ≠ "" ∧ s.sendids event.uuid = none
  | .cancelDelayed _ => s.interpreterThread = .idle
  | .cancelRound sendid uuid => s.interpreterThread = .cancelling sendid ∧ routedFor sendid s uuid = true
  | .deleted sendid uuid => s.interpreterThread = .deleting sendid uuid ∧ stage uuid s.timerThread = .away
  | .cancelReturns sendid => s.interpreterThread = .cancelling sendid ∧ ∀ uuid, routedFor sendid s uuid = false
  | .fire uuid => s.timerThread = .idle ∧ s.pending uuid = true
  | .freeTimer uuid => s.timerThread = .fired uuid ∧ ∀ sendid u, s.interpreterThread ≠ .deleting sendid u
  | .eventReady uuid => s.timerThread = .freed uuid ∧ s.interpreterThread = .idle
  | .eraseRecord uuid => s.timerThread = .handed uuid ∧ ∀ sendid u, s.interpreterThread ≠ .deleting sendid u

def Action.run (s : State) : Action → State
  | .enqueue type target delayMs event => DelayedEvents.enqueue type target delayMs event s
  | .cancelDelayed sendid => { s with interpreterThread := .cancelling sendid }
  | .cancelRound sendid uuid => DelayedEvents.cancelRound sendid uuid s
  | .deleted sendid uuid => { dropEvent uuid s with interpreterThread := .cancelling sendid }
  | .cancelReturns sendid => DelayedEvents.cancelReturns sendid s
  | .fire uuid => DelayedEvents.fire uuid s
  | .freeTimer uuid => DelayedEvents.freeTimer uuid s
  | .eventReady uuid => { DelayedEvents.eventReady uuid s with timerThread := .handed uuid }
  | .eraseRecord uuid => DelayedEvents.eraseRecord uuid s

inductive Interleaving : State → Prop where
  | start : Interleaving {}
  | step {s : State} (a : Action) (hs : Interleaving s) (h : a.Enabled s) : Interleaving (a.run s)

/-! ### The life of an event -/

/-- What the state holds for one event. -/
structure View where
  routed : Bool
  recorded : Bool
  pending : Bool
  frees : Nat
  stage : Stage
  issued : Bool
  cancelled : Bool
  hands : List Bool
  deriving DecidableEq

def view (s : State) (uuid : String) : View where
  routed := (s.delayedEventTargets uuid).isSome
  recorded := (s.callbackData uuid).isSome
  pending := s.pending uuid
  frees := s.frees uuid
  stage := stage uuid s.timerThread
  issued := (s.sendids uuid).isSome
  cancelled := s.cancelled uuid
  hands := s.hands uuid

/-- The views of an event from its enqueueing to its end, by hand-over or by cancellation. -/
inductive Life : View → Prop where
  | unused : Life ⟨false, false, false, 0, .away, false, false, []⟩
  | sent (c : Bool) : Life ⟨false, false, false, 0, .away, true, c, [false]⟩
  | waiting : Life ⟨true, true, true, 0, .away, true, false, []⟩
  | fired : Life ⟨true, true, false, 0, .fired, true, false, []⟩
  | freed : Life ⟨true, true, false, 1, .freed, true, false, []⟩
  | handed (c : Bool) : Life ⟨false, true, false, 1, .handed, true, c, [false]⟩
  | gone (c : Bool) : Life ⟨false, false, false, 1, .away, true, c, [false]⟩
  | dropped (c : Bool) : Life ⟨false, false, false, 1, .away, true, c, []⟩

structure Sound (s : State) : Prop where
  life : ∀ uuid, Life (view s uuid)
  routes : ∀ uuid route, s.delayedEventTargets uuid = some route → s.sendids uuid = some route.1
  assertion : s.assertionFailed = false
  deleting : ∀ sendid uuid, s.interpreterThread = .deleting sendid uuid → stage uuid s.timerThread ≠ .away

theorem Sound.of_view {s s' : State} (h : Sound s) (uuid : String) (hself : Life (view s' uuid))
    (hother : ∀ u, u ≠ uuid → view s' u = view s u)
    (hroutes : ∀ u route, s'.delayedEventTargets u = some route → s'.sendids u = some route.1)
    (hassertion : s'.assertionFailed = false)
    (hdeleting : ∀ sendid u, s'.interpreterThread = .deleting sendid u → stage u s'.timerThread ≠ .away) : Sound s' := by
  refine ⟨fun u => ?_, hroutes, hassertion, hdeleting⟩
  by_cases hu : u = uuid
  · exact hu ▸ hself
  · exact hother u hu ▸ h.life u

theorem enqueue_sound {s : State} (h : Sound s) {type target : String} {delayMs : Nat} {event : Event}
    (hidle : s.interpreterThread = .idle) (huuid : event.uuid ≠ "") (hfresh : s.sendids event.uuid = none) :
    Sound (enqueue type target delayMs event s) := by
  have hview : s.callbackData event.uuid = none ∧ s.delayedEventTargets event.uuid = none ∧
      s.pending event.uuid = false ∧ s.frees event.uuid = 0 ∧ stage event.uuid s.timerThread = .away ∧
      s.cancelled event.uuid = false ∧ s.hands event.uuid = [] := by
    have hlife := h.life event.uuid
    generalize hv : view s event.uuid = v at hlife
    cases hlife <;> simp_all [view]
  obtain ⟨hdata, hroute, hpending, hfrees, hstage, hcancelled, hhands⟩ := hview
  by_cases hdelay : delayMs = 0
  · refine h.of_view event.uuid ?_ ?_ ?_ ?_ ?_
    · have hv : view (enqueue type target delayMs event s) event.uuid =
          ⟨false, false, false, 0, .away, true, false, [false]⟩ := by
        simp [view, enqueue, eventReady, hdelay, hdata, hpending, hfrees, hstage, hcancelled, hhands]
      rw [hv]
      exact .sent false
    · intro u hu
      simp [view, enqueue, eventReady, hdelay, hu]
    · intro u route hu
      by_cases heq : u = event.uuid
      · simp [enqueue, eventReady, hdelay, heq] at hu
      · have hold : s.delayedEventTargets u = some route := by simpa [enqueue, eventReady, hdelay, heq] using hu
        simpa [enqueue, eventReady, hdelay, heq] using h.routes u route hold
    · simp [enqueue, eventReady, hdelay, h.assertion, huuid, hroute]
    · simp [enqueue, eventReady, hdelay, hidle]
  · refine h.of_view event.uuid ?_ ?_ ?_ ?_ ?_
    · have hv : view (enqueue type target delayMs event s) event.uuid =
          ⟨true, true, true, 0, .away, true, false, []⟩ := by
        simp [view, enqueue, enqueueDelayed, cancelTimer, hdelay, hdata, hfrees, hstage, hcancelled, hhands]
      rw [hv]
      exact .waiting
    · intro u hu
      simp [view, enqueue, enqueueDelayed, cancelTimer, hdelay, hdata, hu]
    · intro u route hu
      by_cases heq : u = event.uuid
      · subst heq
        have hnew : (event.sendid, type, target) = route := by
          simpa [enqueue, enqueueDelayed, cancelTimer, hdelay, hdata] using hu
        simp [enqueue, enqueueDelayed, cancelTimer, hdelay, hdata, ← hnew]
      · have hold : s.delayedEventTargets u = some route := by
          simpa [enqueue, enqueueDelayed, cancelTimer, hdelay, hdata, heq] using hu
        simpa [enqueue, enqueueDelayed, cancelTimer, hdelay, hdata, heq] using h.routes u route hold
    · simp [enqueue, enqueueDelayed, cancelTimer, hdelay, hdata, h.assertion, huuid, hroute]
    · simp [enqueue, enqueueDelayed, cancelTimer, hdelay, hdata, hidle]

theorem fire_sound {s : State} (h : Sound s) {uuid : String} (hidle : s.timerThread = .idle)
    (hpending : s.pending uuid = true) : Sound (fire uuid s) := by
  refine h.of_view uuid ?_ ?_ h.routes h.assertion ?_
  · have hlife := h.life uuid
    generalize hv : view s uuid = v at hlife
    have hnext : view (fire uuid s) uuid = { v with pending := false, stage := .fired } := by
      rw [← hv]
      simp [view, fire, stage]
    rw [hnext]
    cases hlife with
    | waiting => exact .fired
    | unused | sent | fired | freed | handed | gone | dropped => simp [view, hpending] at hv
  · intro u hu
    simp [view, fire, stage, hu, hidle, Ne.symm hu]
  · -- Nobody waits for a callback while none runs.
    intro sendid u hu
    exact absurd (by rw [hidle, stage]) (h.deleting sendid u hu)

theorem freeTimer_sound {s : State} (h : Sound s) {uuid : String} (hfired : s.timerThread = .fired uuid)
    (hfree : ∀ sendid u, s.interpreterThread ≠ .deleting sendid u) : Sound (freeTimer uuid s) := by
  have hother : ∀ u, u ≠ uuid → view (freeTimer uuid s) u = view s u := by
    intro u hu
    by_cases hdata : (s.callbackData uuid).isSome = true
    · simp [view, freeTimer, stage, hfired, hdata, hu, Ne.symm hu]
    · simp [view, freeTimer, stage, hfired, hdata, Ne.symm hu]
  have hself : Life (view (freeTimer uuid s) uuid) := by
    have hlife := h.life uuid
    generalize hv : view s uuid = v at hlife
    cases hlife with
    | fired =>
      have hdata : (s.callbackData uuid).isSome = true := congrArg View.recorded hv
      have hfrees : s.frees uuid = 0 := congrArg View.frees hv
      have hnext : view (freeTimer uuid s) uuid = ⟨true, true, false, 1, .freed, true, false, []⟩ := by
        rw [View.mk.injEq] at hv
        simp_all [view, freeTimer, stage]
      exact hnext ▸ .freed
    | unused | sent | waiting | freed | handed | gone | dropped => simp [view, stage, hfired] at hv
  refine h.of_view uuid hself hother ?_ ?_ ?_
  · rw [freeTimer]
    split
    · exact h.routes
    · exact h.routes
  · rw [freeTimer]
    split
    · exact h.assertion
    · exact h.assertion
  · intro sendid u hu
    refine absurd (Eq.trans ?_ hu) (hfree sendid u)
    rw [freeTimer]
    split
    · rfl
    · rfl

theorem eventReady_sound {s : State} (h : Sound s) {uuid : String} (hfreed : s.timerThread = .freed uuid)
    (hidle : s.interpreterThread = .idle) : Sound { eventReady uuid s with timerThread := .handed uuid } := by
  have hlife := h.life uuid
  generalize hv : view s uuid = v at hlife
  have hnext : view { eventReady uuid s with timerThread := .handed uuid } uuid =
      { v with routed := false, stage := .handed, hands := v.hands ++ [v.cancelled] } := by
    rw [← hv]
    simp [view, eventReady, stage]
  cases hlife with
  | freed =>
    have hrouted : (s.delayedEventTargets uuid).isSome = true := congrArg View.routed hv
    refine h.of_view uuid (hnext ▸ .handed false) ?_ ?_ ?_ ?_
    · intro u hu
      simp [view, eventReady, stage, hu, hfreed, Ne.symm hu]
    · intro u route hroute
      by_cases hu : u = uuid
      · simp [eventReady, hu] at hroute
      · exact h.routes u route (by simpa [eventReady, hu] using hroute)
    · have hsome : (s.delayedEventTargets uuid).isNone = false := by simpa using hrouted
      simp [eventReady, h.assertion, hsome]
    · simp [eventReady, hidle]
  | unused | sent | waiting | fired | handed | gone | dropped => simp [view, stage, hfreed] at hv

theorem eraseRecord_sound {s : State} (h : Sound s) {uuid : String} (hhanded : s.timerThread = .handed uuid)
    (hfree : ∀ sendid u, s.interpreterThread ≠ .deleting sendid u) : Sound (eraseRecord uuid s) := by
  refine h.of_view uuid ?_ ?_ h.routes h.assertion fun sendid u hu => absurd hu (hfree sendid u)
  · have hlife := h.life uuid
    generalize hv : view s uuid = v at hlife
    have hnext : view (eraseRecord uuid s) uuid = { v with recorded := false, stage := .away } := by
      rw [← hv]
      simp [view, eraseRecord, stage]
    rw [hnext]
    cases hlife with
    | handed c => exact .gone c
    | unused | sent | waiting | fired | freed | gone | dropped => simp [view, stage, hhanded] at hv
  · intro u hu
    simp [view, eraseRecord, stage, hu, hhanded, Ne.symm hu]

/-- An event whose callback does not run is dropped, one whose callback runs is waited for. -/
theorem cancelRound_sound {s : State} (h : Sound s) {sendid uuid : String}
    (hround : s.interpreterThread = .cancelling sendid) (hrouted : routedFor sendid s uuid = true) :
    Sound (cancelRound sendid uuid s) := by
  have hsome : (s.delayedEventTargets uuid).isSome = true := by
    rw [routedFor, Option.any_eq_true] at hrouted
    obtain ⟨route, hroute, -⟩ := hrouted
    rw [hroute]
    rfl
  have hlife := h.life uuid
  generalize hv : view s uuid = v at hlife
  have hwaits : (s.callbackData uuid).isSome = true → stage uuid s.timerThread ≠ .away →
      Sound (cancelRound sendid uuid s) := by
    intro hdata hstage
    have heq : cancelRound sendid uuid s = { s with interpreterThread := .deleting sendid uuid } := by
      simp [cancelRound, hdata, hstage]
    rw [heq]
    refine ⟨h.life, h.routes, h.assertion, ?_⟩
    rintro sendid' u hu
    cases hu
    exact hstage
  cases hlife with
  | waiting =>
    have hdata : (s.callbackData uuid).isSome = true := congrArg View.recorded hv
    have hstage : stage uuid s.timerThread = .away := congrArg View.stage hv
    have heq : cancelRound sendid uuid s = dropEvent uuid s := by simp [cancelRound, hdata, hstage]
    rw [heq]
    refine h.of_view uuid ?_ ?_ ?_ ?_ ?_
    · have hnext : view (dropEvent uuid s) uuid = ⟨false, false, false, 1, .away, true, false, []⟩ := by
        rw [view, View.mk.injEq] at hv
        simp [view, dropEvent, cancelTimer, hv]
      rw [hnext]
      exact .dropped false
    · intro u hu
      simp [view, dropEvent, cancelTimer, hdata, hu]
    · intro u route hroute
      by_cases hu : u = uuid
      · simp [dropEvent, hu] at hroute
      · have hold : s.delayedEventTargets u = some route := by simpa [dropEvent, hu] using hroute
        simpa [dropEvent, cancelTimer, hdata] using h.routes u route hold
    · simpa [dropEvent, cancelTimer, hdata] using h.assertion
    · simp [dropEvent, cancelTimer, hdata, hround]
  | fired =>
    have hstage : stage uuid s.timerThread = .fired := congrArg View.stage hv
    exact hwaits (congrArg View.recorded hv) (by simp [hstage])
  | freed =>
    have hstage : stage uuid s.timerThread = .freed := congrArg View.stage hv
    exact hwaits (congrArg View.recorded hv) (by simp [hstage])
  | unused | sent | handed | gone | dropped => simp [view, hsome] at hv

/-- When `cancelDelayed` returns, no event with its id has a route. -/
theorem cancelReturns_sound {s : State} (h : Sound s) {sendid : String} (hnone : ∀ uuid, routedFor sendid s uuid = false) :
    Sound (cancelReturns sendid s) := by
  refine ⟨fun uuid => ?_, h.routes, h.assertion, by simp [cancelReturns]⟩
  have hlife := h.life uuid
  generalize hv : view s uuid = v at hlife
  have hnext : view (cancelReturns sendid s) uuid =
      { v with cancelled := v.cancelled || decide (s.sendids uuid = some sendid) } := by
    rw [← hv]
    rfl
  have hlive : v.routed = true → decide (s.sendids uuid = some sendid) = false := by
    intro hr
    rw [← hv] at hr
    obtain ⟨route, hroute⟩ := Option.isSome_iff_exists.mp hr
    rw [decide_eq_false_iff_not, h.routes uuid route hroute]
    intro heq
    have hfor := hnone uuid
    simp [routedFor, hroute, Option.some.inj heq] at hfor
  rw [hnext]
  cases hlife with
  | unused =>
    have hissued : s.sendids uuid = none := by simpa [view] using congrArg View.issued hv
    simp only [hissued, Bool.false_or]
    exact .unused
  | sent c => exact .sent _
  | waiting =>
    simp only [hlive rfl, Bool.false_or]
    exact .waiting
  | fired =>
    simp only [hlive rfl, Bool.false_or]
    exact .fired
  | freed =>
    simp only [hlive rfl, Bool.false_or]
    exact .freed
  | handed c => exact .handed _
  | gone c => exact .gone _
  | dropped c => exact .dropped _

theorem Interleaving.sound {s : State} (hs : Interleaving s) : Sound s := by
  induction hs with
  | start => exact ⟨fun _ => .unused, by simp, rfl, by simp⟩
  | step a _ h ih =>
    cases a with
    | enqueue type target delayMs event => exact enqueue_sound ih h.1 h.2.1 h.2.2
    | cancelDelayed sendid => exact ⟨ih.life, ih.routes, ih.assertion, by simp [Action.run]⟩
    | cancelRound sendid uuid => exact cancelRound_sound ih h.1 h.2
    | deleted sendid uuid => exact absurd h.2 (ih.deleting sendid uuid h.1)
    | cancelReturns sendid => exact cancelReturns_sound ih h.2
    | fire uuid => exact fire_sound ih h.1 h.2
    | freeTimer uuid => exact freeTimer_sound ih h.1 h.2
    | eventReady uuid => exact eventReady_sound ih h.1 h.2
    | eraseRecord uuid => exact eraseRecord_sound ih h.1 h.2

/-- A `cancelDelayed` that waits for the end of a callback waits for good, and so does the timer thread: the callback needs
one of the mutexes. -/
theorem deleting_stuck {s : State} (hs : Interleaving s) {sendid uuid : String}
    (hdeleting : s.interpreterThread = .deleting sendid uuid) (a : Action) : ¬ a.Enabled s := by
  have hstage := hs.sound.deleting sendid uuid hdeleting
  cases a with
  | enqueue | cancelDelayed | cancelRound | cancelReturns => simp [Action.Enabled, hdeleting]
  | deleted sendid' u =>
    rintro ⟨hthread, haway⟩
    rw [hdeleting] at hthread
    cases hthread
    exact hstage haway
  | fire u =>
    rintro ⟨hidle, -⟩
    rw [hidle] at hstage
    exact hstage rfl
  | freeTimer | eraseRecord => exact fun h => h.2 sendid uuid hdeleting
  | eventReady => simp [Action.Enabled, hdeleting]

/-- No assertion fails, an event is handed over at most once and never after it was cancelled, and its timer is freed at
most once. -/
def Orderly (s : State) : Prop :=
  s.assertionFailed = false ∧ ∀ uuid, (s.hands uuid).length ≤ 1 ∧ (∀ late ∈ s.hands uuid, late = false) ∧ s.frees uuid ≤ 1

theorem delayed_events_orderly {s : State} (hs : Interleaving s) : Orderly s := by
  have hsound := hs.sound
  refine ⟨hsound.assertion, fun uuid => ?_⟩
  have hlife := hsound.life uuid
  have hhands : s.hands uuid = (view s uuid).hands := rfl
  have hfrees : s.frees uuid = (view s uuid).frees := rfl
  rw [hhands, hfrees]
  generalize view s uuid = v at hlife
  cases hlife <;> simp

def delayedEvent (uuid sendid : String) : Event := { name := "timeout", uuid := uuid, sendid := sendid }

def runActions (l : List Action) : State := l.foldl Action.run {}

def cancelWhileReady : List Action :=
  [.enqueue "" "" 10 (delayedEvent "u" "s"), .enqueue "" "" 20 (delayedEvent "v" "t"), .fire "u", .freeTimer "u",
    .cancelDelayed "t", .cancelRound "t" "v", .cancelReturns "t", .eventReady "u", .eraseRecord "u"]

theorem delayed_events_orderly_two :
    Orderly (runActions cancelWhileReady) ∧ (runActions cancelWhileReady).hands "u" = [false] ∧
      (runActions cancelWhileReady).cancelled "v" = true := by
  have hnone : ∀ uuid, routedFor "t" (runActions (cancelWhileReady.take 6)) uuid = false := by
    intro uuid
    by_cases hv : uuid = "v"
    · exact hv ▸ by decide
    by_cases hu : uuid = "u"
    · exact hu ▸ by decide
    simp [routedFor, runActions, cancelWhileReady, Action.run, enqueue, enqueueDelayed, cancelTimer, cancelRound, dropEvent,
      fire, freeTimer, delayedEvent, stage, hv, hu]
  refine ⟨delayed_events_orderly ?_, by decide, by decide⟩
  exact ((((((((Interleaving.start.step (.enqueue "" "" 10 (delayedEvent "u" "s")) ⟨rfl, by decide, rfl⟩).step
    (.enqueue "" "" 20 (delayedEvent "v" "t")) ⟨rfl, by decide, by decide⟩).step (.fire "u") ⟨rfl, by decide⟩).step
    (.freeTimer "u") ⟨by decide, fun _ _ => InterpreterThread.noConfusion⟩).step (.cancelDelayed "t") rfl).step
    (.cancelRound "t" "v") ⟨by decide, by decide⟩).step (.cancelReturns "t") ⟨by decide, hnone⟩).step
    (.eventReady "u") ⟨by decide, by decide⟩).step (.eraseRecord "u")
    ⟨by decide, fun _ _ => InterpreterThread.noConfusion⟩

/-! ### Routes -/

/-- The operations on the two maps, one after the other. A timer that expires runs `timerCallback` to its end;
`serialize` writes the events of `_queue`, which `enqueueDelayed` does not fill, and `deserialize` reads back what it is given. -/
inductive Operation where
  | enqueue (type target : String) (delayMs : Nat) (event : Event)
  | cancelDelayed (sendid : String)
  | expire (uuid : String)
  | reset
  | serialize
  | deserialize (delayQueue : List Event)

/-- `InterpreterImpl::cancelDelayed`, while no callback runs. -/
def cancelDelayed (sendid : String) (s : State) : State :=
  cancelReturns sendid
    { s with
      callbackData := fun uuid => if routedFor sendid s uuid then none else s.callbackData uuid
      pending := fun uuid =>
        if routedFor sendid s uuid && (s.callbackData uuid).isSome then false else s.pending uuid
      frees := fun uuid =>
        if routedFor sendid s uuid && (s.callbackData uuid).isSome then s.frees uuid + 1 else s.frees uuid
      delayedEventTargets := fun uuid => if routedFor sendid s uuid then none else s.delayedEventTargets uuid }

theorem cancelRound_idle {s : State} (hidle : s.timerThread = .idle) (sendid uuid : String) :
    cancelRound sendid uuid s = dropEvent uuid s := by
  simp [cancelRound, hidle, stage]

theorem dropEvent_timerThread (uuid : String) (s : State) : (dropEvent uuid s).timerThread = s.timerThread := by
  rw [dropEvent, cancelTimer]
  split
  · rfl
  · rfl

theorem foldl_dropEvent {l : List String} (hl : l.Nodup) (s : State) :
    l.foldl (fun s uuid => dropEvent uuid s) s =
      { s with
        callbackData := fun uuid => if uuid ∈ l then none else s.callbackData uuid
        pending := fun uuid => if uuid ∈ l ∧ (s.callbackData uuid).isSome then false else s.pending uuid
        frees := fun uuid => if uuid ∈ l ∧ (s.callbackData uuid).isSome then s.frees uuid + 1 else s.frees uuid
        delayedEventTargets := fun uuid => if uuid ∈ l then none else s.delayedEventTargets uuid } := by
  induction l generalizing s with
  | nil => simp
  | cons u l ih =>
    obtain ⟨hu, hl⟩ := List.nodup_cons.mp hl
    rw [List.foldl_cons, ih hl, dropEvent, cancelTimer]
    have hne : ∀ uuid, uuid ∈ l → uuid ≠ u := fun uuid h => ne_of_mem_of_not_mem h hu
    split
    · rename_i hdata
      congr 1 <;> funext uuid <;> by_cases huuid : uuid = u <;> simp_all
    · rename_i hdata
      congr 1 <;> funext uuid <;> by_cases huuid : uuid = u <;> simp_all

/-- The rounds for the entries with the `sendid`, in whatever order the map holds them. -/
theorem cancelDelayed_eq_rounds {s : State} (hidle : s.timerThread = .idle) {sendid : String} {l : List String}
    (hl : l.Nodup) (hrouted : ∀ uuid, uuid ∈ l ↔ routedFor sendid s uuid = true) :
    cancelReturns sendid (l.foldl (fun s uuid => cancelRound sendid uuid s)
      { s with interpreterThread := .cancelling sendid }) =
      cancelDelayed sendid s := by
  have hrounds : ∀ (l : List String) (s : State), s.timerThread = .idle →
      l.foldl (fun s uuid => cancelRound sendid uuid s) s = l.foldl (fun s uuid => dropEvent uuid s) s := by
    intro l
    induction l with
    | nil => exact fun _ _ => rfl
    | cons u l ih =>
      intro s hs
      rw [List.foldl_cons, List.foldl_cons, cancelRound_idle hs, ih _ ((dropEvent_timerThread u s).trans hs)]
  rw [hrounds l { s with interpreterThread := .cancelling sendid } hidle, foldl_dropEvent hl]
  simp [cancelDelayed, cancelReturns, hrouted]

/-- `InterpreterImpl::reset`, as far as delayed events are concerned. -/
def reset (s : State) : State :=
  { s with
    callbackData := fun _ => none
    pending := fun _ => false
    frees := fun uuid => if (s.callbackData uuid).isSome then s.frees uuid + 1 else s.frees uuid }

/-- `BasicDelayedEventQueue::deserialize`. -/
def deserialize (delayQueue : List Event) (s : State) : State :=
  delayQueue.foldl (fun s event => enqueueDelayed event event.uuid s) s

/-- The events `BasicDelayedEventQueue::serialize` finds in `_queue`. -/
def serialize (_ : State) : List Event := []

def Operation.run (s : State) : Operation → State
  | .enqueue type target delayMs event => DelayedEvents.enqueue type target delayMs event s
  | .cancelDelayed sendid => DelayedEvents.cancelDelayed sendid s
  | .expire uuid =>
    if s.pending uuid then eraseRecord uuid (eventReady uuid (freeTimer uuid (fire uuid s))) else s
  | .reset => DelayedEvents.reset s
  | .serialize => s
  | .deserialize delayQueue => DelayedEvents.deserialize delayQueue s

/-- The pending events are those with a route. -/
def Routed (s : State) : Prop := ∀ uuid, (s.callbackData uuid).isSome = (s.delayedEventTargets uuid).isSome

/-- No event is pending at a reset, every event of a delay queue that is read back is pending, and no event waits under the
uuid of one that is sent at once, as `InterpreterImpl::enqueue` asserts. -/
def Operation.KeepsRoutes (s : State) : Operation → Prop
  | .enqueue _ _ delayMs event => delayMs = 0 → s.delayedEventTargets event.uuid = none
  | .reset => ∀ uuid, (s.callbackData uuid).isSome = false
  | .deserialize delayQueue => ∀ event ∈ delayQueue, (s.callbackData event.uuid).isSome = true
  | _ => True

inductive RoutingRun : State → Prop where
  | start : RoutingRun {}
  | step {s : State} (op : Operation) (hs : RoutingRun s) (h : op.KeepsRoutes s) : RoutingRun (op.run s)

theorem enqueue_routed {s : State} (h : Routed s) (type target : String) {delayMs : Nat} {event : Event}
    (hfresh : delayMs = 0 → s.delayedEventTargets event.uuid = none) : Routed (enqueue type target delayMs event s) := by
  intro uuid
  by_cases hdelay : delayMs = 0
  · have hhere : (s.callbackData event.uuid).isSome = false := by rw [h event.uuid, hfresh hdelay, Option.isSome_none]
    by_cases hu : uuid = event.uuid
    · subst hu
      simpa [enqueue, eventReady, hdelay] using hhere
    · simpa [enqueue, eventReady, hdelay, hu] using h uuid
  · have hmaps : (enqueue type target delayMs event s).callbackData uuid =
          (if uuid = event.uuid then some event else s.callbackData uuid) ∧
        (enqueue type target delayMs event s).delayedEventTargets uuid =
          if uuid = event.uuid then some (event.sendid, type, target) else s.delayedEventTargets uuid := by
      simp only [enqueue, if_neg hdelay, enqueueDelayed, cancelTimer]
      split
      · by_cases hu : uuid = event.uuid <;> simp [hu]
      · by_cases hu : uuid = event.uuid <;> simp [hu]
    rw [hmaps.1, hmaps.2]
    split
    · rfl
    · exact h uuid

theorem cancelDelayed_routed {s : State} (h : Routed s) (sendid : String) : Routed (cancelDelayed sendid s) := by
  intro uuid
  simp only [cancelDelayed, cancelReturns]
  split
  · rfl
  · exact h uuid

theorem expire_routed {s : State} (h : Routed s) (uuid : String) :
    Routed (eraseRecord uuid (eventReady uuid (freeTimer uuid (fire uuid s)))) := by
  intro u
  have hmaps : (freeTimer uuid (fire uuid s)).callbackData = s.callbackData ∧
      (freeTimer uuid (fire uuid s)).delayedEventTargets = s.delayedEventTargets := by
    rw [freeTimer]
    split
    · exact ⟨rfl, rfl⟩
    · exact ⟨rfl, rfl⟩
  simp only [eraseRecord, eventReady, hmaps.1, hmaps.2]
  by_cases hu : u = uuid
  · simp [hu]
  · simpa [hu] using h u

theorem deserialize_routed {s : State} (h : Routed s) {delayQueue : List Event}
    (hpending : ∀ event ∈ delayQueue, (s.callbackData event.uuid).isSome = true) : Routed (deserialize delayQueue s) := by
  -- Reading an event back that is pending changes neither of the two domains.
  have hround : ∀ (s : State) (event : Event), (s.callbackData event.uuid).isSome = true →
      ∀ uuid, ((enqueueDelayed event event.uuid s).callbackData uuid).isSome = (s.callbackData uuid).isSome ∧
        (enqueueDelayed event event.uuid s).delayedEventTargets uuid = s.delayedEventTargets uuid := by
    intro s event hdata uuid
    by_cases hu : uuid = event.uuid
    · subst hu
      simp [enqueueDelayed, cancelTimer, hdata]
    · simp [enqueueDelayed, cancelTimer, hdata, hu]
  rw [deserialize]
  induction delayQueue generalizing s with
  | nil => exact h
  | cons event delayQueue ih =>
    have hhere := hround s event (hpending event List.mem_cons_self)
    refine ih ?_ ?_
    · intro uuid
      rw [(hhere uuid).1, (hhere uuid).2]
      exact h uuid
    · intro event' hevent'
      rw [(hhere event'.uuid).1]
      exact hpending event' (List.mem_cons_of_mem event hevent')

theorem operation_routed {s : State} (h : Routed s) (op : Operation) (hop : op.KeepsRoutes s) : Routed (op.run s) := by
  cases op with
  | enqueue type target delayMs event => exact enqueue_routed h type target hop
  | cancelDelayed sendid => exact cancelDelayed_routed h sendid
  | expire uuid =>
    rw [Operation.run]
    split
    · exact expire_routed h uuid
    · exact h
  | reset =>
    intro uuid
    have hnone : (s.delayedEventTargets uuid).isSome = false := (h uuid).symm.trans (hop uuid)
    exact hnone.symm
  | serialize => exact h
  | deserialize delayQueue => exact deserialize_routed h hop

/-- In a run of such operations the pending events are exactly those with a route. -/
theorem delayed_events_routed {s : State} (hs : RoutingRun s) : Routed s := by
  induction hs with
  | start => exact fun _ => rfl
  | step op _ h ih => exact operation_routed ih op h

def runOperations (l : List Operation) : State := l.foldl Operation.run {}

/-- A reset forgets the timers and keeps the routes. -/
theorem reset_keeps_route :
    ¬ Routed (runOperations [.enqueue "" "" 10 (delayedEvent "u" "s"), .reset]) := by
  intro h
  exact absurd (h "u") (by decide)

theorem delayed_events_routed_serialized :
    Routed (runOperations [.enqueue "" "" 10 (delayedEvent "u" "s"), .serialize, .deserialize [],
      .enqueue "" "" 10 (delayedEvent "v" "t"), .expire "u"]) ∧
    ((runOperations [.enqueue "" "" 10 (delayedEvent "u" "s"), .serialize, .deserialize [],
      .enqueue "" "" 10 (delayedEvent "v" "t"), .expire "u"]).callbackData "v").isSome = true := by
  refine ⟨delayed_events_routed ?_, by decide⟩
  exact ((((RoutingRun.start.step (.enqueue "" "" 10 (delayedEvent "u" "s")) (absurd · (by decide))).step .serialize
    trivial).step (.deserialize []) (by simp [Operation.KeepsRoutes])).step (.enqueue "" "" 10 (delayedEvent "v" "t"))
    (absurd · (by decide))).step (.expire "u") trivial

end DelayedEvents

end Uscxml
