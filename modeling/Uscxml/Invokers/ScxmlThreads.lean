import Uscxml.FastMicroStep.Results
import Uscxml.Lib.Labelled

/-!
# The threads of an invoked session

`USCXMLInvoker` runs the session that it invokes in a thread of its own. Three threads meet at the invoker: that of the
invoking session, which forwards events, serializes and uninvokes, that of `run` with the steps of the invoked session, and
the timer thread of the invoked session, which sends delayed events. Every action stands between two points at which a
thread can be stopped. What the steps of the invoked session do is left open, as far as its flags allow it, and so is what
its steps and its serialization wait for: sessions that are nested in it, which they uninvoke or serialize, and its timer
thread, which they join or whose callbacks they wait for.
-/

namespace Uscxml

namespace USCXMLInvoker

/-- How far the invoked session is: `USCXML_CTX_TOP_LEVEL_FINAL` and `USCXML_CTX_FINISHED` of its microstepper. -/
inductive Stage where
  | running | topLevelFinal | finished
  deriving DecidableEq, Repr

/-- The stages that a step without an external event can lead to, with the states that it can return there. -/
def Advances : Stage → Stage → InterpreterState → Prop
  | .running, stage, state => stage ≠ .finished ∧ state ≠ .finished
  | .topLevelFinal, stage, state | .finished, stage, state => stage = .finished ∧ state = .finished

instance : (s t : Stage) → (state : InterpreterState) → Decidable (Advances s t state)
  | .running, _, _ | .topLevelFinal, _, _ | .finished, _, _ => inferInstanceAs (Decidable (_ ∧ _))

/-- The invoking session: in `eventFromSCXML` behind its test; in `uninvoke` in front of `stop`, in `stop` in front of
`markAsCancelled`, of the unblocking event and of the end of `join`, and behind `uninvoke`; in `serialize` in front of
`_mutex`, in the loop with `_mutex`, in `_cond.wait`, and in the `serialize` of the invoked interpreter with `_mutex`. -/
inductive Parent where
  | outside
  | forwarding (event : Event)
  | stopping | cancelling | unblocking | joining | uninvoked
  | locking | checking | waiting | saving

/-- The thread of `run`: at its `while`, in front of `_mutex`, at the start of `step`, in `dequeueExternal`, behind it with
an event that has no name, in the rest of `step`, in `ParentQueueImpl::enqueue` behind its test, in front of `notify_all`, at
the test behind the loop, in front of the `done.invoke` event, in front of the last assignment, and at the end. The rest of a
step knows what it returns. -/
inductive Child where
  | looping | entering | stepping | receiving | unblocked
  | acting (stage : Stage) (state : InterpreterState)
  | sending (event : Event) (stage : Stage) (state : InterpreterState)
  | notifying
  | leaving | finishing | closing | ended

/-- An event of the invocation in the external queue of the invoking session. -/
inductive Delivery where
  | child (event : Event)
  | timer (event : Event)
  | done

inductive Thread where
  | parent | child | timer | outside
  deriving DecidableEq, Repr

structure State where
  isActive : Bool := true
  mutex : Option Thread := none
  /-- Of the invoked interpreter. -/
  isCancelled : Bool := false
  stage : Stage := .running
  state : InterpreterState := .instantiated
  externalQueue : List Event := []
  parent : Parent := .outside
  /-- What runs on the invoked interpreter waits for a session that is nested in it, or for its timer thread. -/
  held : Bool := false
  child : Child := .looping
  /-- The event that the timer thread is to send behind its test of `_isActive`. -/
  timer : Option Event := none
  delivered : List Delivery := []

/-- The loop of `serialize` does not wait for another state. -/
def State.Serializable (s : State) : Prop := s.state = .idle ∨ s.state = .macrostepped ∨ s.state = .finished

instance (s : State) : Decidable s.Serializable := inferInstanceAs (Decidable (_ ∨ _))

inductive Action where
  | forward (event : Event) | receive
  | uninvoke | stop | markAsCancelled | unblock | join
  | serialize | lock | check | save
  | test | enter
  | advance | block | dequeue | testCancelled
  | send (event : Event) | deliver | endStep
  | notify
  | testActive | done | close
  | timerSend (event : Event) | timerDeliver
  | arrive (event : Event)
  | hold (held : Bool)

/-- Whose action it is. Events arrive from other sessions, and from the invoked one itself; sessions that are nested in it
hold its steps and its serialization up and let them go on. -/
def Action.thread : Action → Thread
  | .forward _ | .receive | .uninvoke | .stop | .markAsCancelled | .unblock | .join | .serialize | .lock | .check
  | .save => .parent
  | .test | .enter | .advance | .block | .dequeue | .testCancelled | .send _ | .deliver | .endStep | .notify
  | .testActive | .done | .close => .child
  | .timerSend _ | .timerDeliver => .timer
  | .arrive _ | .hold _ => .outside

/-- What the actions do, and in which states they can be taken. -/
inductive Step (s : State) : Action → State → Prop where
  | forward (event : Event) (h : s.parent = .outside) :
      Step s (.forward event) { s with parent := if s.isActive then .forwarding event else .outside }
  | receive {event : Event} (h : s.parent = .forwarding event) :
      Step s .receive { s with parent := .outside, externalQueue := s.externalQueue ++ [event] }
  | uninvoke (h : s.parent = .outside) : Step s .uninvoke { s with isActive := false, parent := .stopping }
  -- The destructor calls `stop` too.
  | stop (h : s.parent = .outside ∨ s.parent = .stopping) :
      Step s .stop { s with isActive := false, parent := .cancelling }
  | markAsCancelled (h : s.parent = .cancelling) :
      Step s .markAsCancelled { s with isCancelled := true, parent := .unblocking }
  | unblock (h : s.parent = .unblocking) :
      Step s .unblock { s with externalQueue := s.externalQueue ++ [{}], parent := .joining }
  | join (h : s.parent = .joining) (hc : s.child = .ended) : Step s .join { s with parent := .uninvoked }
  | serialize (h : s.parent = .outside) : Step s .serialize { s with parent := .locking }
  | lock (h : s.parent = .locking) (hm : s.mutex = none) :
      Step s .lock { s with parent := .checking, mutex := some .parent }
  | check (h : s.parent = .checking) :
      Step s .check
        { s with
          parent := if s.Serializable then .saving else .waiting
          mutex := if s.Serializable then s.mutex else none }
  | save (h : s.parent = .saving) (hh : s.held = false) : Step s .save { s with parent := .outside, mutex := none }
  | test (h : s.child = .looping) : Step s .test { s with child := if s.state = .finished then .leaving else .entering }
  | enter (h : s.child = .entering) (hm : s.mutex = none) :
      Step s .enter { s with child := .stepping, mutex := some .child }
  | advance {stage : Stage} {state : InterpreterState} (h : s.child = .stepping) (ha : Advances s.stage stage state)
      (hh : s.held = false) :
      Step s .advance { s with child := .acting stage state }
  | block (h : s.child = .stepping) (hs : s.stage = .running) (hh : s.held = false) :
      Step s .block { s with child := .receiving }
  | dequeue {stage : Stage} {state : InterpreterState} {event : Event} {queue : List Event} (h : s.child = .receiving)
      (hq : s.externalQueue = event :: queue) (ha : Advances .running stage state) :
      Step s .dequeue
        { s with externalQueue := queue, child := if event.toBool then .acting stage state else .unblocked }
  | testCancelled (h : s.child = .unblocked) :
      Step s .testCancelled
        { s with child := if s.isCancelled then .acting .topLevelFinal .cancelled else .acting .running .idle }
  | send (event : Event) {stage : Stage} {state : InterpreterState} (h : s.child = .acting stage state)
      (hh : s.held = false) :
      Step s (.send event) { s with child := if s.isActive then .sending event stage state else .acting stage state }
  | deliver {event : Event} {stage : Stage} {state : InterpreterState} (h : s.child = .sending event stage state) :
      Step s .deliver { s with child := .acting stage state, delivered := s.delivered ++ [.child event] }
  | endStep {stage : Stage} {state : InterpreterState} (h : s.child = .acting stage state) (hh : s.held = false) :
      Step s .endStep { s with child := .notifying, stage := stage, state := state, mutex := none }
  | notify (h : s.child = .notifying) :
      Step s .notify
        { s with child := .looping, parent := match s.parent with | .waiting => .locking | parent => parent }
  | testActive (h : s.child = .leaving) :
      Step s .testActive { s with child := if s.isActive then .finishing else .closing }
  | done (h : s.child = .finishing) : Step s .done { s with child := .closing, delivered := s.delivered ++ [.done] }
  | close (h : s.child = .closing) : Step s .close { s with child := .ended, isActive := false }
  | timerSend (event : Event) (h : s.timer = none) :
      Step s (.timerSend event) { s with timer := if s.isActive then some event else none }
  | timerDeliver {event : Event} (h : s.timer = some event) :
      Step s .timerDeliver { s with timer := none, delivered := s.delivered ++ [.timer event] }
  | arrive (event : Event) : Step s (.arrive event) { s with externalQueue := s.externalQueue ++ [event] }
  | hold (held : Bool) : Step s (.hold held) { s with held := held }

def Run (s : State) (l : List Action) (s' : State) : Prop := Labelled.Run Step s l s'

/-- The states that the threads come to after `invoke`. -/
def Reachable (s : State) : Prop := ∃ l, Run {} l s

variable {s s' : State} {l : List Action}

/-! ### What a step of the interpreter is here -/

theorem Advances.finished {s t : Stage} {state : InterpreterState} (h : Advances s t state) (hs : s ≠ .running) :
    t = .finished := by
  cases s with
  | running => exact absurd rfl hs
  | topLevelFinal => exact h.1
  | finished => exact h.1

theorem Advances.finished_iff {s t : Stage} {state : InterpreterState} (h : Advances s t state) :
    state = .finished ↔ t = .finished := by
  cases s with
  | running => exact iff_of_false h.2 h.1
  | topLevelFinal => exact iff_of_true h.2 h.1
  | finished => exact iff_of_true h.2 h.1

theorem exists_advances (s : Stage) : ∃ t state, Advances s t state := by
  cases s with
  | running => exact ⟨.running, .idle, by decide⟩
  | topLevelFinal => exact ⟨.finished, .finished, by decide⟩
  | finished => exact ⟨.finished, .finished, by decide⟩

section Step

open FastMicroStep

variable {ω : Type} (T : Tables) (cb : Callbacks ω)

def stageOf (f : Flags) : Stage := if f.finished then .finished else if f.topLevelFinal then .topLevelFinal else .running

theorem stageOf_eq_finished {f : Flags} : stageOf f = .finished ↔ f.finished = true := by
  rw [stageOf]
  split
  · simp_all
  · split <;> simp_all

theorem stageOf_of_runs {m : St ω} (h : Runs m) : stageOf m.flags = .running := by
  rw [stageOf, h.finished, h.topLevelFinal]
  rfl

theorem selectAndStep_fst (m : St ω) : (selectAndStep T cb m).1 = .returned .microstepped := by
  simp only [selectAndStep]
  split <;> rfl

/-- Only the step that completes the session, and those behind it, return at the end. -/
theorem step_finished_iff (m : St ω) : (step T cb m).1 = .returned .finished ↔ stageOf m.flags ≠ .running := by
  have harises := phase_arises T cb m
  rw [step_eq_phase]
  generalize phase T cb m = phase at harises
  cases harises with
  | finished h => simp [Phase.finish, stageOf, h]
  | completion h ht => simp [Phase.finish, stageOf, h, ht]
  | start h =>
    have hflags : m.flags = {} := by simpa [Flags.pristine] using h
    simp [Phase.finish, stageOf, hflags]
  | eventless h hs => simp [Phase.finish, selectAndStep_fst, stageOf_of_runs h]
  | internal h hs he => simp [Phase.finish, selectAndStep_fst, stageOf_of_runs h]
  | external h event w hd he => simp [Phase.finish, selectAndStep_fst, stageOf_of_runs h.toRuns]
  | stable h hs => simp [Phase.finish, stageOf_of_runs h.toRuns]
  | thrown h w u hd => simp [Phase.finish, stageOf_of_runs h.toRuns]
  | unblocked h event w hd he =>
    rw [Phase.finish]
    split <;> simp [stageOf_of_runs h.toRuns]

/-- Every step that returns leads on as `Advances` says. -/
theorem step_advances {m : St ω} {state : InterpreterState} (hstep : (step T cb m).1 = .returned state) :
    Advances (stageOf m.flags) (stageOf (step T cb m).2.flags) state := by
  have hafter : stageOf (step T cb m).2.flags = .finished ↔ state = .finished := by
    rw [stageOf_eq_finished, (step_flags T cb m).1, hstep, StepResult.returned.injEq]
  have hbefore : state = .finished ↔ stageOf m.flags ≠ .running := by
    rw [← step_finished_iff T cb, hstep, StepResult.returned.injEq]
  cases hstage : stageOf m.flags with
  | running =>
    have hne : state ≠ .finished := fun h => hbefore.mp h hstage
    exact ⟨mt hafter.mp hne, hne⟩
  | topLevelFinal =>
    have heq := hbefore.mpr (by simp [hstage])
    exact ⟨hafter.mpr heq, heq⟩
  | finished =>
    have heq := hbefore.mpr (by simp [hstage])
    exact ⟨hafter.mpr heq, heq⟩

/-- A nameless event ends a cancelled session, and is nothing to others. -/
theorem step_of_nameless {m : St ω} (hasks : AsksExternal cb m) {event : Event} {w : ω}
    (hd : cb.dequeueExternal m.configuration (drained T cb m).env = (.ok event, w)) (he : event.toBool = false) :
    (step T cb m).1 = .returned (if m.isCancelled then .cancelled else .idle) ∧
      stageOf (step T cb m).2.flags = if m.isCancelled then .topLevelFinal else .running := by
  have hflags : (drained T cb m).flags = m.flags := by rw [drained_toMicro]
  have hconf : (drained T cb m).configuration = m.configuration := by rw [drained_toMicro]
  have hcancelled : (drained T cb m).isCancelled = m.isCancelled := by rw [drained_toMicro]
  have hphase : phase T cb m = phaseExternal cb (drained T cb m) := by
    simp only [phase, hasks.finished, hasks.topLevelFinal, hasks.pristine, hasks.spontaneous, hasks.internal,
      Bool.false_eq_true, if_false]
    rfl
  have hunblocked : phaseExternal cb (drained T cb m) = .unblocked (dequeued event w (drained T cb m)) := by
    rw [phaseExternal, hflags, hasks.stable, hconf, hd]
    simp [he]
  rw [step_eq_phase, hphase, hunblocked, Phase.finish]
  cases hc : m.isCancelled with
  | true => simp [dequeued, emit, hcancelled, hc, stageOf, hflags, hasks.finished]
  | false => simp [dequeued, emit, hcancelled, hc, stageOf, hflags, hasks.finished, hasks.topLevelFinal]

/-- The actions of the child's thread offer what a step of the microstepper does that is not held up, up to the content that
it executes. -/
theorem child_follows {m : St ω} {state : InterpreterState} (hstep : (step T cb m).1 = .returned state)
    (hchild : s.child = .stepping) (hstage : s.stage = stageOf m.flags) (hcancelled : s.isCancelled = m.isCancelled)
    (hqueue : AsksExternal cb m → ∃ event queue w, s.externalQueue = event :: queue ∧
      cb.dequeueExternal m.configuration (drained T cb m).env = (.ok event, w)) (hheld : s.held = false) :
    ∃ l s', Run s l s' ∧ (∀ a ∈ l, a.thread = .child) ∧
      s'.child = .acting (stageOf (step T cb m).2.flags) state := by
  have hadvances := step_advances T cb hstep
  by_cases hasks : AsksExternal cb m
  · obtain ⟨event, queue, w, hevent, hd⟩ := hqueue hasks
    have hrunning := stageOf_of_runs hasks.toRuns
    rw [hrunning] at hadvances hstage
    have hblock := Step.block hchild hstage hheld
    have hdequeue := Step.dequeue (s := { s with child := .receiving }) rfl hevent hadvances
    have hrun := (Labelled.Run.single hblock).snoc hdequeue
    cases he : event.toBool with
    | true =>
      refine ⟨_, _, hrun, by simp [Action.thread], ?_⟩
      simp [he]
    | false =>
      obtain ⟨hresult, hflags⟩ := step_of_nameless T cb hasks hd he
      obtain rfl : state = if m.isCancelled then .cancelled else .idle := by simpa using hstep.symm.trans hresult
      refine ⟨_, _, hrun.snoc (.testCancelled (by simp [he])), by simp [Action.thread], ?_⟩
      cases hc : m.isCancelled <;> simp [hflags, hcancelled, hc]
  · rw [← hstage] at hadvances
    exact ⟨_, _, .single (.advance hchild hadvances hheld), by simp [Action.thread], rfl⟩

end Step

/-! ### What holds in all interleavings -/

/-- `uninvoke` has cleared `_isActive`, or `stop` has. -/
def Parent.Stops : Parent → Prop
  | .stopping | .cancelling | .unblocking | .joining | .uninvoked => True
  | _ => False

/-- `stop` is behind `markAsCancelled`. -/
def Parent.Cancels : Parent → Prop
  | .unblocking | .joining | .uninvoked => True
  | _ => False

/-- The thread of `run` is in `step` of the invoked interpreter. -/
def Child.Steps : Child → Prop
  | .stepping | .receiving | .unblocked | .acting _ _ | .sending _ _ _ => True
  | _ => False

/-- The thread of `run` is behind its loop. -/
def Child.Left : Child → Prop
  | .leaving | .finishing | .closing | .ended => True
  | _ => False

/-- The thread of `run` is in a step, and not at the external queue. -/
def Child.Works : Child → Prop
  | .stepping | .acting _ _ => True
  | _ => False

/-- What the step that the thread of `run` is in leads to. -/
def Child.outcome : Child → Option (Stage × InterpreterState)
  | .acting stage state | .sending _ stage state => some (stage, state)
  | _ => none

/-- Uninvoking has its order, and ends behind the thread of `run`. -/
structure Stopped (s : State) : Prop where
  isActive : s.isActive = false ↔ s.parent.Stops ∨ s.child = .ended
  isCancelled : s.isCancelled = true ↔ s.parent.Cancels
  ended : s.parent = .uninvoked → s.child = .ended

/-- `_mutex` is held by the steps of the invoked session and by `serialize` behind it. -/
structure Locked (s : State) : Prop where
  child : s.mutex = some .child ↔ s.child.Steps
  parent : s.mutex = some .parent ↔ s.parent = .checking ∨ s.parent = .saving
  held : s.mutex = none ∨ s.mutex = some .child ∨ s.mutex = some .parent

/-- What the thread of `run` knows about the stage of its session. -/
structure Staged (s : State) : Prop where
  left : s.child.Left → s.state = .finished
  finished : s.state = .finished → s.stage = .finished
  running : s.child = .receiving ∨ s.child = .unblocked → s.stage = .running
  outcome : ∀ stage state, s.child.outcome = some (stage, state) →
    (s.stage ≠ .running → stage = .finished) ∧ (state = .finished → stage = .finished)

/-- Whoever waits for the condition of the invoker is still to be notified. -/
def Woken (s : State) : Prop :=
  s.parent = .waiting → ¬ s.child.Left ∧ (s.child = .looping → s.state ≠ .finished)

theorem stopped_kept : Labelled.Kept Step Stopped := by
  intro s a s' hs h
  obtain ⟨hactive, hcancelled, hended⟩ := hs
  cases h <;> constructor <;> grind [Parent.Stops, Parent.Cancels]

theorem locked_kept : Labelled.Kept Step Locked := by
  intro s a s' hs h
  obtain ⟨hchild, hparent, hheld⟩ := hs
  cases h <;> constructor <;> grind [Child.Steps]

theorem staged_kept : Labelled.Kept Step Staged := by
  intro s a s' hs h
  obtain ⟨hleft, hfinished, hrunning, houtcome⟩ := hs
  cases h with
  | advance h ha =>
    refine ⟨by simp [Child.Left], hfinished, by simp, ?_⟩
    rintro _ _ ⟨⟩
    exact ⟨ha.finished, ha.finished_iff.mp⟩
  | dequeue h hq ha =>
    refine ⟨?_, hfinished, fun _ => hrunning (.inl h), ?_⟩
    · split <;> simp [Child.Left]
    · grind [Child.outcome, Advances.finished, Advances.finished_iff]
  | endStep h =>
    have hlater := houtcome _ _ (by rw [h]; rfl)
    exact ⟨by simp [Child.Left], hlater.2, by simp, by simp [Child.outcome]⟩
  | _ => constructor <;> grind [Child.Left, Child.outcome]

structure Inv (s : State) : Prop where
  stopped : Stopped s
  locked : Locked s
  staged : Staged s
  woken : Woken s

theorem inv_kept : Labelled.Kept Step Inv := by
  intro s a s' hs h
  refine ⟨stopped_kept s a s' hs.stopped h, locked_kept s a s' hs.locked h, staged_kept s a s' hs.staged h, ?_⟩
  have hwoken := hs.woken
  have hleft := hs.staged.left
  have hlocked := hs.locked
  rw [Woken] at *
  cases h <;> grind [Child.Left, Child.Steps, State.Serializable]

theorem Reachable.inv (hs : Reachable s) : Inv s := by
  obtain ⟨l, h⟩ := hs
  refine h.kept inv_kept ⟨?_, ?_, ?_, ?_⟩
  · exact ⟨by simp [Parent.Stops], by simp [Parent.Cancels], by simp⟩
  · exact ⟨by simp [Child.Steps], by simp, .inl rfl⟩
  · exact ⟨by simp [Child.Left], by simp, by simp, by simp [Child.outcome]⟩
  · simp [Woken]

/-! ### What reaches the invoking session -/

def Delivery.isDone : Delivery → Bool
  | .done => true
  | _ => false

/-- What the thread of `run` has tested `_isActive` for and not yet delivered. -/
def Child.passed : Child → List Delivery
  | .sending event _ _ => [.child event]
  | .finishing => [.done]
  | _ => []

def State.passed (s : State) : List Delivery := s.child.passed ++ s.timer.toList.map .timer

/-- When `_isActive` is cleared, all that still comes has been on its way. -/
theorem step_perm (hs : s.isActive = false) {a : Action} (h : Step s a s') :
    s'.isActive = false ∧ (s'.delivered ++ s'.passed).Perm (s.delivered ++ s.passed) := by
  cases h with
  | deliver h => exact ⟨hs, by simp [State.passed, Child.passed, h]⟩
  | done h => exact ⟨hs, by simp [State.passed, Child.passed, h]⟩
  | timerDeliver h =>
    refine ⟨hs, ?_⟩
    simp only [State.passed, h, Option.toList_none, Option.toList_some, List.map_nil, List.map_cons, List.append_nil,
      List.append_assoc]
    exact (List.perm_append_comm).append_left _
  | check h => simp [hs, State.passed]
  | notify h => simp [hs, State.passed, Child.passed, h]
  | test h =>
    refine ⟨hs, ?_⟩
    split <;> simp [State.passed, Child.passed, h]
  | dequeue h hq ha =>
    refine ⟨hs, ?_⟩
    split <;> simp [State.passed, Child.passed, h]
  | testCancelled h =>
    refine ⟨hs, ?_⟩
    split <;> simp [State.passed, Child.passed, h]
  | _ => simp_all [State.passed, Child.passed]

/-- The `done.invoke` event comes when the thread of `run` ends, unless the invoker was stopped before. -/
structure Once (s : State) : Prop where
  before : s.child ≠ .closing → s.child ≠ .ended → s.delivered.countP Delivery.isDone = 0
  once : s.delivered.countP Delivery.isDone ≤ 1
  closed : s.child = .closing ∨ s.child = .ended → ¬ s.parent.Stops → s.delivered.countP Delivery.isDone = 1

theorem once_kept : Labelled.Kept Step fun s => Inv s ∧ Once s := by
  intro s a s' hs h
  obtain ⟨hinv, hbefore, honce, hclosed⟩ := hs
  refine ⟨inv_kept s a s' hinv h, ?_⟩
  have hactive := hinv.stopped.isActive
  cases h <;> constructor <;> grind [Delivery.isDone, Parent.Stops]

theorem Reachable.once (hs : Reachable s) : Once s := by
  obtain ⟨l, h⟩ := hs
  exact (h.kept once_kept ⟨Reachable.inv ⟨[], .nil⟩, by simp, by simp, by simp⟩).2

theorem Reachable.append (hs : Reachable s) (h : Run s l s') : Reachable s' := by
  obtain ⟨l', h'⟩ := hs
  exact ⟨_, h'.append h⟩

/-- Behind the `done.invoke` event only the timer thread delivers. -/
theorem delivered_of_closed (hs : s.child = .closing ∨ s.child = .ended) (h : Run s l s') :
    ∃ events : List Event, s'.delivered = s.delivered ++ events.map .timer := by
  have hkept : Labelled.Kept Step fun s => s.child = .closing ∨ s.child = .ended := by
    intro s a s' hs h
    cases h <;> grind
  refine h.rel hkept (R := fun s s' => ∃ events : List Event, s'.delivered = s.delivered ++ events.map .timer) ?_ ?_ ?_ hs
  · exact fun s => ⟨[], by simp⟩
  · rintro s s' s'' ⟨es, hs⟩ ⟨es', hs'⟩
    exact ⟨es ++ es', by simp [hs, hs']⟩
  · intro s a s' hs h
    cases h with
    | timerDeliver h => exact ⟨[_], rfl⟩
    | deliver h => simp [h] at hs
    | done h => simp [h] at hs
    | _ => exact ⟨[], by simp⟩

theorem perm_of_inactive (hs : s.isActive = false) (h : Run s l s') :
    (s'.delivered ++ s'.passed).Perm (s.delivered ++ s.passed) := by
  refine h.rel (I := fun s => s.isActive = false)
    (R := fun s s' => (s'.delivered ++ s'.passed).Perm (s.delivered ++ s.passed)) ?_ ?_ ?_ ?_ hs
  · exact fun s a s' hs h => (step_perm hs h).1
  · exact fun s => .refl _
  · exact fun s s' s'' hs hs' => hs'.trans hs
  · exact fun s a s' hs h => (step_perm hs h).2

/-- Behind `uninvoke` only an event comes that the timer thread was about to send. -/
theorem delivered_of_uninvoked (hs : Inv s) (huninvoked : s.parent = .uninvoked) (h : Run s l s') :
    s'.delivered = s.delivered ∨ ∃ event, s.timer = some event ∧ s'.delivered = s.delivered ++ [.timer event] := by
  have hactive : s.isActive = false := hs.stopped.isActive.mpr (.inl (by rw [huninvoked]; trivial))
  have hended := hs.stopped.ended huninvoked
  have hkept : Labelled.Kept Step fun s' => (s'.parent = .uninvoked ∧ s'.child = .ended ∧ s'.isActive = false) ∧
      (s'.delivered = s.delivered ∧ s'.timer = s.timer ∨
        ∃ event, s.timer = some event ∧ s'.delivered = s.delivered ++ [.timer event] ∧ s'.timer = none) := by
    intro s' a s'' hs h
    cases h <;> simp_all
  have hlater := (h.kept hkept ⟨⟨huninvoked, hended, hactive⟩, .inl ⟨rfl, rfl⟩⟩).2
  rcases hlater with ⟨heq, -⟩ | ⟨event, htimer, heq, -⟩
  · exact .inl heq
  · exact .inr ⟨event, htimer, heq⟩

/-- What an invocation delivers to the session that invoked it, from one state to a later one. -/
structure Delivers (s s' : State) : Prop where
  /-- One `done.invoke` event. -/
  once : s'.delivered.countP Delivery.isDone ≤ 1
  /-- It comes, when nobody stops the invoker. -/
  comes : s'.child = .ended → ¬ s'.parent.Stops → s'.delivered.countP Delivery.isDone = 1
  /-- It is the last event that the thread of `run` delivers. -/
  last : s.delivered.countP Delivery.isDone = 1 → ∃ events : List Event, s'.delivered = s.delivered ++ events.map .timer
  /-- When `_isActive` is cleared, only those events still come that were behind the test of it. -/
  passed : s.isActive = false → (s'.delivered ++ s'.passed).Perm (s.delivered ++ s.passed)
  /-- When `uninvoke` has returned, that is one event of the timer thread at most. -/
  uninvoked : s.parent = .uninvoked → s'.delivered = s.delivered ∨ ∃ event, s.timer = some event ∧
    s'.delivered = s.delivered ++ [.timer event]

theorem run_delivers (hs : Reachable s) (h : Run s l s') : Delivers s s' := by
  have hs' := hs.append h
  constructor
  · exact hs'.once.once
  · exact fun hended => hs'.once.closed (.inr hended)
  · intro hdone
    apply delivered_of_closed _ h
    by_contra hne
    rw [not_or] at hne
    rw [hs.once.before hne.1 hne.2] at hdone
    exact absurd hdone (by decide)
  · exact fun hactive => perm_of_inactive hactive h
  · exact fun huninvoked => delivered_of_uninvoked hs.inv huninvoked h

/-- `_isActive` is cleared while the thread of `run` is behind the test of it with an event. -/
def stoppedLate : State where
  isActive := false
  mutex := some .child
  parent := .cancelling
  child := .sending { name := "e" } .running .microstepped

theorem stoppedLate_reachable : Reachable stoppedLate := by
  have htest : Run {} _ { child := .entering } := Labelled.Run.nil.snoc (.test rfl)
  have henter : Run {} _ { child := .stepping, mutex := some .child } := htest.snoc (.enter rfl rfl)
  have hadvance : Run {} _ { child := .acting .running .microstepped, mutex := some .child } :=
    henter.snoc (.advance rfl (by decide) rfl)
  have hsend : Run {} _ { child := .sending { name := "e" } .running .microstepped, mutex := some .child } :=
    hadvance.snoc (.send { name := "e" } rfl rfl)
  exact ⟨_, hsend.snoc (.stop (.inl rfl))⟩

theorem run_delivers_late :
    Delivers stoppedLate
      { stoppedLate with child := .acting .running .microstepped, delivered := [.child { name := "e" }] } :=
  run_delivers stoppedLate_reachable (Labelled.Run.single (.deliver rfl))

/-! ### Where the threads wait for each other -/

/-- The step that the thread of `run` is in ends with the session, or behind it. -/
def Child.Ends : Child → Prop
  | .unblocked => True
  | .acting stage _ | .sending _ stage _ => stage ≠ .running
  | _ => False

instance : (c : Child) → Decidable c.Ends
  | .acting _ _ | .sending _ _ _ => inferInstanceAs (Decidable (_ ≠ _))
  | .unblocked => .isTrue trivial
  | .looping | .entering | .stepping | .receiving | .notifying | .leaving | .finishing | .closing | .ended => .isFalse id

/-- The cancelled session asks for no further external event. -/
def State.Ending (s : State) : Prop := s.stage ≠ .running ∨ s.child.Ends

instance (s : State) : Decidable s.Ending := inferInstanceAs (Decidable (_ ∨ _))

/-- The external events that the cancelled session can still ask for. -/
def State.ahead (s : State) : Nat := if s.Ending then 0 else (s.externalQueue.takeWhile Event.toBool).length + 1

/-- `stop` is behind the unblocking event, and there is one unless the session ends. -/
def Unblocked (s : State) : Prop :=
  s.parent = .joining ∨ s.parent = .uninvoked → (∃ event ∈ s.externalQueue, event.toBool = false) ∨ s.Ending

/-- A cancelled session that is to end does not go back. -/
theorem Step.ending {a : Action} (h : Step s a s') (hs : Inv s) (hcancelled : s.isCancelled = true) (he : s.Ending) :
    s'.Ending := by
  have houtcome := hs.staged.outcome
  rw [State.Ending] at *
  cases h with
  | advance h ha =>
    refine .inr (he.elim (fun hne => ?_) (fun hends => absurd hends (by simp [Child.Ends, h])))
    simp [Child.Ends, ha.finished hne]
  | dequeue h hq ha =>
    exact absurd (hs.staged.running (.inl h)) (he.resolve_right (by simp [Child.Ends, h]))
  | endStep h =>
    have hlater := houtcome _ _ (by rw [h]; rfl)
    refine .inl (he.elim (fun hne => ?_) (fun hends => ?_))
    · simp [hlater.1 hne]
    · simpa [Child.Ends, h] using hends
  | testCancelled h => simp [hcancelled, Child.Ends]
  | _ => grind [Child.Ends]

theorem unblocked_kept : Labelled.Kept Step fun s => Inv s ∧ Unblocked s := by
  intro s a s' hs h
  obtain ⟨hinv, hs⟩ := hs
  refine ⟨inv_kept s a s' hinv h, ?_⟩
  have hcancelled (hjoining : s.parent = .joining ∨ s.parent = .uninvoked) : s.isCancelled = true := by
    apply hinv.stopped.isCancelled.mpr
    rcases hjoining with heq | heq <;> rw [heq] <;> trivial
  by_cases hjoining : s.parent = .joining ∨ s.parent = .uninvoked
  · rcases hs hjoining with hnameless | hending
    · -- A nameless event leaves the queue only when the thread of `run` finds it.
      obtain ⟨event, hmem, hevent⟩ := hnameless
      cases h with
      | dequeue h hq ha =>
        intro _
        rw [hq] at hmem
        rcases List.mem_cons.mp hmem with rfl | hmem
        · exact .inr (.inr (by simp [hevent, Child.Ends]))
        · exact .inl ⟨event, hmem, hevent⟩
      | receive h => exact fun _ => .inl ⟨event, List.mem_append_left _ hmem, hevent⟩
      | unblock h => exact fun _ => .inl ⟨event, List.mem_append_left _ hmem, hevent⟩
      | arrive e => exact fun _ => .inl ⟨event, List.mem_append_left _ hmem, hevent⟩
      | _ => exact fun _ => .inl ⟨event, hmem, hevent⟩
    · exact fun _ => .inr (h.ending hinv (hcancelled hjoining) hending)
  · rw [Unblocked]
    cases h with
    | unblock h => exact fun _ => .inl ⟨{}, by simp, rfl⟩
    | join h hc => exact absurd (.inl h) hjoining
    | notify h => grind
    | check h => grind
    | forward event h => grind
    | _ => simp_all

theorem Reachable.unblocked (hs : Reachable s) : Unblocked s := by
  obtain ⟨l, h⟩ := hs
  exact (h.kept unblocked_kept ⟨Reachable.inv ⟨[], .nil⟩, by simp [Unblocked]⟩).2

theorem State.ahead_le (s : State) : s.ahead ≤ (s.externalQueue.takeWhile Event.toBool).length + 1 := by
  rw [ahead]
  split <;> omega

theorem takeWhile_append_of_exists {p : Event → Bool} {queue : List Event} (h : ∃ event ∈ queue, p event = false)
    (l : List Event) : (queue ++ l).takeWhile p = queue.takeWhile p := by
  induction queue with
  | nil => simp at h
  | cons event queue ih =>
    cases hp : p event with
    | false => simp [hp]
    | true =>
      obtain ⟨e, hmem, he⟩ := h
      have hmem : e ∈ queue := (List.mem_cons.mp hmem).resolve_left fun heq => by simp [heq, hp] at he
      rw [List.cons_append, List.takeWhile_cons_of_pos hp, List.takeWhile_cons_of_pos hp, ih ⟨e, hmem, he⟩]

def Action.isDequeue : Action → Bool
  | .dequeue => true
  | _ => false

/-- Every external event that the cancelled session asks for is one less. -/
theorem Step.ahead_le {a : Action} (h : Step s a s') (hs : Inv s) (hun : Unblocked s)
    (hjoining : s.parent = .joining ∨ s.parent = .uninvoked) :
    (if a.isDequeue then 1 else 0) + s'.ahead ≤ s.ahead := by
  have hcancelled : s.isCancelled = true := by
    apply hs.stopped.isCancelled.mpr
    rcases hjoining with heq | heq <;> rw [heq] <;> trivial
  by_cases he : s.Ending
  · have hzero : s'.ahead = 0 := by rw [State.ahead, if_pos (h.ending hs hcancelled he)]
    have hother : a.isDequeue = false := by
      cases h with
      | dequeue h hq ha =>
        exact absurd (hs.staged.running (.inl h)) (he.resolve_right (by simp [Child.Ends, h]))
      | _ => rfl
    simp [hzero, hother]
  · have hnameless := (hun hjoining).resolve_right he
    have hahead : s.ahead = (s.externalQueue.takeWhile Event.toBool).length + 1 := if_neg he
    have hle := s'.ahead_le
    rw [hahead]
    cases h with
    | @dequeue stage state event queue h hq ha =>
      rw [hq]
      cases hevent : event.toBool with
      | true =>
        rw [List.takeWhile_cons_of_pos hevent]
        rw [List.length_cons]
        simp only [hevent, if_true] at hle
        simp only [Action.isDequeue, if_true]
        omega
      | false =>
        have hending : State.Ending { s with externalQueue := queue, child := .unblocked } := .inr trivial
        simp [State.ahead, if_pos hending, Action.isDequeue]
    | receive h => simpa [Action.isDequeue, takeWhile_append_of_exists hnameless] using hle
    | unblock h => simpa [Action.isDequeue, takeWhile_append_of_exists hnameless] using hle
    | arrive e => simpa [Action.isDequeue, takeWhile_append_of_exists hnameless] using hle
    | _ => simpa [Action.isDequeue] using hle

/-- Behind `stop` the session takes the events in front of the unblocking one, and it. -/
theorem countP_dequeue_le (hs : Reachable s) (hjoining : s.parent = .joining) (h : Run s l s') :
    l.countP Action.isDequeue ≤ (s.externalQueue.takeWhile Event.toBool).length + 1 := by
  have hkept : Labelled.Kept Step fun s => (Inv s ∧ Unblocked s) ∧ (s.parent = .joining ∨ s.parent = .uninvoked) := by
    intro s a s' hs h
    refine ⟨unblocked_kept s a s' hs.1 h, ?_⟩
    have hparent := hs.2
    cases h <;> grind
  have hle := h.countP_add_le (p := Action.isDequeue) (μ := State.ahead) hkept
    (fun s a s' hs h => h.ahead_le hs.1.1 hs.1.2 hs.2) ⟨⟨hs.inv, hs.unblocked⟩, .inl hjoining⟩
  have := s.ahead_le
  omega

/-- Neither the parent's thread nor that of `run` can go on. -/
def Stuck (s : State) : Prop := ∀ a s', Step s a s' → a.thread ≠ .parent ∧ a.thread ≠ .child

/-- `serialize` waits for `_mutex`, or to be notified, and the thread of `run` for an event with `_mutex`. -/
def WaitsForEvent (s : State) : Prop :=
  (s.parent = .locking ∨ s.parent = .waiting) ∧ s.child = .receiving ∧ s.externalQueue = []

/-- What runs on the invoked interpreter with `_mutex` is held up: its serialization, while the thread of `run` waits for
`_mutex` or is at its end, or its step, while the parent's thread waits for `_mutex`, to be notified, or in `join`. -/
def HeldUp (s : State) : Prop :=
  s.held = true ∧
    (s.parent = .saving ∧ (s.child = .entering ∨ s.child = .ended) ∨
      (s.parent = .joining ∨ s.parent = .locking ∨ s.parent = .waiting) ∧ s.child.Works)

theorem child_stuck (h : ∀ a s', Step s a s' → a.thread ≠ .child) :
    s.child = .ended ∨ s.child = .entering ∧ s.mutex ≠ none ∨ s.child = .receiving ∧ s.externalQueue = [] ∨
      s.child.Works ∧ s.held = true := by
  cases hc : s.child with
  | looping => exact absurd rfl (h _ _ (.test hc))
  | entering => exact .inr (.inl ⟨rfl, fun hm => h _ _ (.enter hc hm) rfl⟩)
  | stepping =>
    refine .inr (.inr (.inr ⟨trivial, ?_⟩))
    by_contra hheld
    obtain ⟨stage, state, ha⟩ := exists_advances s.stage
    exact h _ _ (.advance hc ha (Bool.not_eq_true _ ▸ hheld)) rfl
  | receiving =>
    cases hq : s.externalQueue with
    | nil => exact .inr (.inr (.inl ⟨rfl, rfl⟩))
    | cons event queue =>
      have ha : Advances .running .running .idle := by decide
      exact absurd rfl (h _ _ (.dequeue hc hq ha))
  | unblocked => exact absurd rfl (h _ _ (.testCancelled hc))
  | acting stage state =>
    refine .inr (.inr (.inr ⟨trivial, ?_⟩))
    by_contra hheld
    exact h _ _ (.endStep hc (Bool.not_eq_true _ ▸ hheld)) rfl
  | sending event stage state => exact absurd rfl (h _ _ (.deliver hc))
  | notifying => exact absurd rfl (h _ _ (.notify hc))
  | leaving => exact absurd rfl (h _ _ (.testActive hc))
  | finishing => exact absurd rfl (h _ _ (.done hc))
  | closing => exact absurd rfl (h _ _ (.close hc))
  | ended => exact .inl rfl

theorem parent_stuck (h : ∀ a s', Step s a s' → a.thread ≠ .parent) :
    s.parent = .joining ∧ s.child ≠ .ended ∨ s.parent = .locking ∧ s.mutex ≠ none ∨ s.parent = .waiting ∨
      s.parent = .uninvoked ∨ s.parent = .saving ∧ s.held = true := by
  cases hp : s.parent with
  | outside => exact absurd rfl (h _ _ (.uninvoke hp))
  | forwarding event => exact absurd rfl (h _ _ (.receive hp))
  | stopping => exact absurd rfl (h _ _ (.stop (.inr hp)))
  | cancelling => exact absurd rfl (h _ _ (.markAsCancelled hp))
  | unblocking => exact absurd rfl (h _ _ (.unblock hp))
  | joining => exact .inl ⟨rfl, fun hc => h _ _ (.join hp hc) rfl⟩
  | uninvoked => exact .inr (.inr (.inr (.inl rfl)))
  | saving =>
    refine .inr (.inr (.inr (.inr ⟨rfl, ?_⟩)))
    by_contra hheld
    exact h _ _ (.save hp (Bool.not_eq_true _ ▸ hheld)) rfl
  | locking => exact .inr (.inl ⟨rfl, fun hm => h _ _ (.lock hp hm) rfl⟩)
  | checking => exact absurd rfl (h _ _ (.check hp))
  | waiting => exact .inr (.inr (.inl rfl))

/-- With `_mutex` in the hands of the parent's thread, this waits for no one or is held up. -/
theorem held_of_parent_stuck (hs : Inv s) (h : ∀ a s', Step s a s' → a.thread ≠ .parent) (hm : s.mutex = some .parent) :
    s.parent = .saving ∧ s.held = true := by
  have hp := parent_stuck h
  rcases hs.locked.parent.mp hm with hchecking | hsaving
  · simp [hchecking] at hp
  · simpa [hsaving] using hp

theorem Child.Works.steps {c : Child} (h : c.Works) : c.Steps := by
  cases c with
  | stepping | acting stage state => trivial
  | looping | entering | receiving | unblocked | sending event stage state | notifying | leaving | finishing | closing
    | ended => exact h.elim

theorem waits_of_stuck (hs : Inv s) (hun : Unblocked s) (hparent : s.parent ≠ .uninvoked) (h : Stuck s) :
    WaitsForEvent s ∨ HeldUp s := by
  have hp := parent_stuck fun a s' hstep => (h a s' hstep).1
  have hc := child_stuck fun a s' hstep => (h a s' hstep).2
  have hheld := held_of_parent_stuck hs fun a s' hstep => (h a s' hstep).1
  by_cases hm : s.mutex = some .parent
  · -- The thread of `run` is not in a step.
    have hsaving := hheld hm
    have hsteps : ¬ s.child.Steps := by
      rw [← hs.locked.child, hm]
      exact nofun
    refine .inr ⟨hsaving.2, .inl ⟨hsaving.1, ?_⟩⟩
    rcases hc with hended | hentering | hreceiving | hworks
    · exact .inr hended
    · exact .inl hentering.1
    · rw [hreceiving.1] at hsteps
      exact absurd trivial hsteps
    · exact absurd hworks.1.steps hsteps
  · -- In front of `_mutex` the thread of `run` waits for no one.
    have hentering : ¬ (s.child = .entering ∧ s.mutex ≠ none) := by
      intro hx
      have hother : s.mutex ≠ some .child := by
        rw [Ne, hs.locked.child, hx.1]
        exact id
      exact hm ((hs.locked.held.resolve_left hx.2).resolve_left hother)
    have hrest : s.child ≠ .ended →
        s.child = .receiving ∧ s.externalQueue = [] ∨ s.child.Works ∧ s.held = true := fun hne =>
      (hc.resolve_left hne).resolve_left hentering
    rcases hp with ⟨hjoining, hne⟩ | ⟨hlocking, hmutex⟩ | hwaiting | huninvoked | hsaving
    · rcases hrest hne with hreceiving | hworks
      · -- The unblocking event is in the queue, or the session asks for none.
        rcases hun (.inl hjoining) with hnameless | hending
        · simp [hreceiving.2] at hnameless
        · exact absurd (hs.staged.running (.inl hreceiving.1)) (hending.resolve_right (by simp [Child.Ends, hreceiving.1]))
      · exact .inr ⟨hworks.2, .inr ⟨.inl hjoining, hworks.1⟩⟩
    · have hsteps : s.child.Steps := by
        rw [← hs.locked.child]
        exact (hs.locked.held.resolve_left hmutex).resolve_right hm
      have hne : s.child ≠ .ended := by
        intro hended
        rw [hended] at hsteps
        exact hsteps
      rcases hrest hne with hreceiving | hworks
      · exact .inl ⟨.inl hlocking, hreceiving⟩
      · exact .inr ⟨hworks.2, .inr ⟨.inr (.inl hlocking), hworks.1⟩⟩
    · have hne : s.child ≠ .ended := by
        intro hended
        have hleft := (hs.woken hwaiting).1
        rw [hended] at hleft
        exact hleft trivial
      rcases hrest hne with hreceiving | hworks
      · exact .inl ⟨.inr hwaiting, hreceiving⟩
      · exact .inr ⟨hworks.2, .inr ⟨.inr (.inr hwaiting), hworks.1⟩⟩
    · exact absurd huninvoked hparent
    · exact absurd (hs.locked.parent.mpr (.inr hsaving.1)) hm

theorem stuck_of_waits (hs : Inv s) (h : WaitsForEvent s ∨ HeldUp s) : Stuck s := by
  intro a s' hstep
  rcases h with ⟨hparent, hchild, hqueue⟩ | ⟨hheld, ⟨hparent, hchild⟩ | ⟨hparent, hworks⟩⟩
  · have hmutex : s.mutex ≠ none := by
      have hheld : s.mutex = some .child := by
        rw [hs.locked.child, hchild]
        trivial
      simp [hheld]
    rcases hparent with hparent | hparent <;> cases hstep <;> simp_all [Action.thread]
  · have hmutex : s.mutex ≠ none := by
      have hheld : s.mutex = some .parent := hs.locked.parent.mpr (.inr hparent)
      simp [hheld]
    rcases hchild with hchild | hchild <;> cases hstep <;> simp_all [Action.thread]
  · have hmutex : s.mutex ≠ none := by
      have hheld : s.mutex = some .child := hs.locked.child.mpr hworks.steps
      simp [hheld]
    cases hstep <;> grind [Action.thread, Child.Works]

theorem stuck_iff (hs : Reachable s) (hparent : s.parent ≠ .uninvoked) : Stuck s ↔ WaitsForEvent s ∨ HeldUp s :=
  ⟨waits_of_stuck hs.inv hs.unblocked hparent, stuck_of_waits hs.inv⟩

/-- Only what comes from elsewhere ends the waiting. -/
theorem waits_kept (hs : Reachable s) (hwaits : WaitsForEvent s ∨ HeldUp s) (h : Run s l s')
    (hl : ∀ a ∈ l, a.thread ≠ .outside) : WaitsForEvent s' ∨ HeldUp s' := by
  induction h with
  | nil => exact hwaits
  | snoc h hstep ih =>
    have hwaits' := ih fun a ha => hl a (List.mem_append_left _ ha)
    have hstuck := stuck_of_waits (hs.append h).inv hwaits' _ _ hstep
    have hother := hl _ (List.mem_append_right _ (List.mem_singleton_self _))
    cases hstep <;> simp_all [Action.thread, WaitsForEvent, HeldUp]

/-- What the threads can wait for: `uninvoke` comes back after the events in front of the unblocking one, while the session
ends its macrosteps and is not held up in them, and only `serialize` can be without hope otherwise, as long as no event comes
and nested sessions hold it up. -/
structure Waits (s s' : State) (l : List Action) : Prop where
  join : s.parent = .joining → l.countP Action.isDequeue ≤ (s.externalQueue.takeWhile Event.toBool).length + 1
  stuck : s.parent ≠ .uninvoked → (Stuck s ↔ WaitsForEvent s ∨ HeldUp s)
  forever : Stuck s → s.parent ≠ .uninvoked → (∀ a ∈ l, a.thread ≠ .outside) → Stuck s'

theorem run_waits (hs : Reachable s) (h : Run s l s') : Waits s s' l := by
  constructor
  · exact fun hjoining => countP_dequeue_le hs hjoining h
  · exact fun hparent => stuck_iff hs hparent
  · intro hstuck hparent hl
    have hwaits := (stuck_iff hs hparent).mp hstuck
    exact stuck_of_waits (hs.append h).inv (waits_kept hs hwaits h hl)

/-- `serialize` is not notified any more: the thread of `run` waits for an event. -/
def unserialized : State where
  mutex := some .child
  state := .microstepped
  parent := .waiting
  child := .receiving

theorem unserialized_reachable : Reachable unserialized := by
  have htest : Run {} _ { child := .entering } := Labelled.Run.nil.snoc (.test rfl)
  have henter : Run {} _ { child := .stepping, mutex := some .child } := htest.snoc (.enter rfl rfl)
  have hadvance : Run {} _ { child := .acting .running .microstepped, mutex := some .child } :=
    henter.snoc (.advance rfl (by decide) rfl)
  have hend : Run {} _ { child := .notifying, state := .microstepped } := hadvance.snoc (.endStep rfl rfl)
  have hnotify : Run {} _ { child := .looping, state := .microstepped } := hend.snoc (.notify rfl)
  have hserialize : Run {} _ { child := .looping, state := .microstepped, parent := .locking } :=
    hnotify.snoc (.serialize rfl)
  have hlock : Run {} _ { child := .looping, state := .microstepped, parent := .checking, mutex := some .parent } :=
    hserialize.snoc (.lock rfl rfl)
  have hwait : Run {} _ { child := .looping, state := .microstepped, parent := .waiting } := hlock.snoc (.check rfl)
  have htest' : Run {} _ { child := .entering, state := .microstepped, parent := .waiting } := hwait.snoc (.test rfl)
  have henter' : Run {} _ { child := .stepping, state := .microstepped, parent := .waiting, mutex := some .child } :=
    htest'.snoc (.enter rfl rfl)
  exact ⟨_, henter'.snoc (.block rfl rfl rfl)⟩

theorem run_waits_unserialized : Stuck unserialized ∧ Stuck { unserialized with timer := some { name := "e" } } := by
  have hwaits := run_waits unserialized_reachable (Labelled.Run.single (.timerSend { name := "e" } rfl))
  have hstuck := (hwaits.stuck Parent.noConfusion).mpr (.inl ⟨.inr rfl, rfl, rfl⟩)
  exact ⟨hstuck, hwaits.forever hstuck Parent.noConfusion (by simp [Action.thread])⟩

end USCXMLInvoker

end Uscxml
