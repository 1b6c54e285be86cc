import Uscxml.FastMicroStep.Tables
import Uscxml.Messages
import Mathlib.Data.Finset.Card

/-!
# `FastMicroStep::step`

One call of `step`, block by block as the labels of the source divide it. The microstepper talks to the rest
of the interpreter through `MicroStepCallbacks`; whatever these do happens in an environment `ω` that the
microstepper never looks into, so a statement about every environment is one about every behaviour of the
queues, of the data model and of executable content. `calls` is the list of the calls to monitors and of those
callbacks whose order the program is about.
-/

namespace Uscxml

/-- The bits of `_flags`. `USCXML_CTX_TRANSITION_FOUND` is cleared by the step that sets it and is part of
the selection below. -/
structure Flags where
  spontaneous : Bool := false
  initialized : Bool := false
  topLevelFinal : Bool := false
  finished : Bool := false
  stable : Bool := false
  deriving DecidableEq, Repr

/-- `USCXML_CTX_PRISTINE`: no bit is set. -/
def Flags.pristine (f : Flags) : Bool := f = {}

inductive InterpreterState where
  | finished | undef | idle | initialized | instantiated | microstepped | macrostepped | cancelled
  deriving DecidableEq, Repr

/-- How a call of `step` ends: it returns a state, or an error leaves it (only `dequeueExternal` lets one
through, from a `<finalize>`). -/
inductive StepResult where
  | returned (state : InterpreterState)
  | thrown
  deriving DecidableEq, Repr

/-- The calls out of the microstepper. `afterMicroStep` records the configuration a monitor can then read. -/
inductive Call where
  | beforeProcessingEvent (event : Event)
  | beforeMicroStep
  | beforeExitingState (state : TreePath)
  | afterExitingState (state : TreePath)
  | beforeTakingTransition (transition : TransId)
  | afterTakingTransition (transition : TransId)
  | beforeEnteringState (state : TreePath)
  | afterEnteringState (state : TreePath)
  | afterMicroStep (configuration : Finset TreePath)
  | onStableConfiguration
  | beforeCompletion
  | afterCompletion
  | reportIssue
  | process (block : Ref)
  | initData (data : Ref)
  | invoke (invoke : Ref)
  | uninvoke (invoke : Ref)
  | raiseDoneEvent (state : TreePath)
  | dequeueExternal

/-- `MicroStepCallbacks`. What `process` and `invoke` throw is caught by the caller and changes nothing else. The
first argument of a callback that can evaluate expressions is the configuration, since these may ask for it
(`isInState`). -/
structure Callbacks (ω : Type) where
  dequeueInternal : ω → Event × ω
  dequeueExternal : Finset TreePath → ω → Except Unit Event × ω
  isMatched : Event → String → ω → Bool × ω
  raiseDoneEvent : Finset TreePath → TreePath → Option Ref → ω → ω
  isTrue : Finset TreePath → String → ω → Bool × ω
  initData : Finset TreePath → Ref → ω → ω
  process : Finset TreePath → Ref → ω → ω
  invoke : Finset TreePath → Ref → ω → ω
  uninvoke : Finset TreePath → Ref → ω → ω

/-- The members of `FastMicroStep` that a step changes. -/
structure Micro where
  flags : Flags := {}
  configuration : Finset TreePath := ∅
  invocations : Finset TreePath := ∅
  history : Finset TreePath := ∅
  initializedData : Finset TreePath := ∅
  microstepConfigurations : Finset (Finset TreePath) := ∅
  isCancelled : Bool := false
  event : Event := {}

/-- The microstepper, its environment and the calls made so far. -/
structure St (ω : Type) extends Micro where
  env : ω
  calls : List Call := []

namespace FastMicroStep

variable {ω : Type} (T : Tables) (cb : Callbacks ω)

/-! ### Calls -/

def emit (c : Call) (s : St ω) : St ω := { s with calls := s.calls ++ [c] }

def process (r : Ref) (s : St ω) : St ω := { emit (.process r) s with env := cb.process s.configuration r s.env }

def initData (r : Ref) (s : St ω) : St ω := { emit (.initData r) s with env := cb.initData s.configuration r s.env }

def invoke (r : Ref) (s : St ω) : St ω := { emit (.invoke r) s with env := cb.invoke s.configuration r s.env }

def uninvoke (r : Ref) (s : St ω) : St ω := { emit (.uninvoke r) s with env := cb.uninvoke s.configuration r s.env }

def raiseDoneEvent (state : TreePath) (doneData : Option Ref) (s : St ω) : St ω :=
  { emit (.raiseDoneEvent state) s with env := cb.raiseDoneEvent s.configuration state doneData s.env }

def each (f : Ref → St ω → St ω) (l : List Ref) (s : St ω) : St ω := l.foldl (fun s r => f r s) s

/-! ### `SELECT_TRANSITIONS` -/

/-- The sets the selection loop fills, and the environment its questions leave behind. -/
structure Selection (ω : Type) where
  conflicts : Finset TransId := ∅
  targetSet : Finset TreePath := ∅
  exitSet : Finset TreePath := ∅
  transSet : Finset TransId := ∅
  found : Bool := false
  env : ω

/-- Is the transition of the kind the event asks for, eventless or not? -/
def kindMatches (event : Event) (t : TransitionInfo) : Bool :=
  (t.event = "" && !event.toBool) || (t.event ≠ "" && event.toBool)

/-- The last two questions about a transition: its event descriptor, and then its condition. -/
def enabled (configuration : Finset TreePath) (event : Event) (t : TransitionInfo) (w : ω) : Bool × ω :=
  let (matched, w) := if event.toBool then cb.isMatched event t.event w else (true, w)
  if matched then if t.cond = "" then (true, w) else cb.isTrue configuration t.cond w else (false, w)

/-- The body of the selection loop. -/
def selectTransition (configuration : Finset TreePath) (event : Event) (s : Selection ω) (i : TransId) :
    Selection ω :=
  let t := T.trans i
  if t.history || t.initial then s
  else if t.source ∈ configuration ∧ i ∉ s.conflicts ∧ kindMatches event t = true then
    let (holds, w) := enabled cb configuration event t s.env
    if holds then
      { conflicts := s.conflicts ∪ t.conflicts
        targetSet := s.targetSet ∪ t.target
        exitSet := s.exitSet ∪ t.exitSet
        transSet := insert i s.transSet
        found := true
        env := w }
    else { s with env := w }
  else s

/-- The selection loop, in the order of `_transitions`. -/
def selectTransitions (configuration : Finset TreePath) (event : Event) (w : ω) : Selection ω :=
  T.transitions.foldl (selectTransition T cb configuration event) { env := w }

/-! ### `REMEMBER_HISTORY` -/

def isHistoryType (t : StateType) : Bool := t = .historyShallow || t = .historyDeep

def rememberHistory (configuration exitSet history : Finset TreePath) : Finset TreePath :=
  T.states.foldl (fun history i =>
    if isHistoryType (T.state i).type ∧ (T.state i).parent ∈ exitSet then
      (history \ (T.state i).completion) ∪ ((T.state i).completion ∩ configuration)
    else history) history

/-! ### `ESTABLISH_ENTRYSET` -/

/-- Iterate for ancestors. -/
def addAncestors (entrySet : Finset TreePath) : Finset TreePath :=
  T.states.foldl (fun es i => if i ∈ es then es ∪ (T.state i).ancestors else es) entrySet

structure Entry where
  entrySet : Finset TreePath
  transSet : Finset TransId

/-- The states of `set` behind `i`, in document order. -/
def behind (i : TreePath) (set : Finset TreePath) : List TreePath := T.states.filter fun k => i < k && k ∈ set

theorem mem_behind {T : Tables} {i k : TreePath} {S : Finset TreePath} :
    k ∈ behind T i S ↔ k ∈ T.states ∧ i < k ∧ k ∈ S := by
  simp [behind]

/-- A history without a record whose parent is inactive: its default transition. -/
def enterDefault (i : TreePath) (e : Entry) : Entry :=
  match T.transitions.find? fun j => (T.trans j).source = i with
  | none => e
  | some j =>
    let entrySet := e.entrySet ∪ (T.trans j).target
    let entrySet :=
      if (T.state i).type = .historyDeep ∧ Disjoint (T.trans j).target (T.state i).children then
        match behind T i (T.trans j).target with
        | [] => entrySet
        | k :: _ => entrySet ∪ (T.state k).ancestors
      else entrySet
    { entrySet, transSet := insert j e.transSet }

def addNestedHistories (i : TreePath) (entrySet : Finset TreePath) : Finset TreePath :=
  (behind T i (T.state i).completion).foldl (fun es j =>
    if j ∈ es ∧ (T.state j).hasHistory then
      (behind T j (T.state j).children).foldl (fun es k =>
        if isHistoryType (T.state k).type then insert k es else es) es
    else es) entrySet

def enterHistory (configuration history : Finset TreePath) (i : TreePath) (e : Entry) : Entry :=
  if Disjoint (T.state i).completion history ∧ (T.state i).parent ∉ configuration then enterDefault T i e
  else
    let entrySet := e.entrySet ∪ ((T.state i).completion ∩ history)
    { e with
      entrySet :=
        if (T.state i).hasHistory ∧ (T.state i).type = .historyDeep then addNestedHistories T i entrySet
        else entrySet }

def enterInitial (i : TreePath) (e : Entry) : Entry :=
  (T.transitions.filter fun j => (T.trans j).source = i).foldl (fun e j =>
    { transSet := insert j e.transSet
      entrySet := (behind T i (T.trans j).target).foldl (fun es k => es ∪ (T.state k).ancestors)
        (e.entrySet.erase i ∪ (T.trans j).target) }) e

/-- A compound state in the entry set: complete it unless a child is there or stays active. -/
def enterCompound (configuration exitSet : Finset TreePath) (i : TreePath) (entrySet : Finset TreePath) : Finset TreePath :=
  let s := T.state i
  if Disjoint entrySet s.children ∧ (Disjoint configuration s.children ∨ ¬ Disjoint exitSet s.children) then
    let es := entrySet ∪ s.completion
    if Disjoint s.completion s.children then
      match behind T i s.completion with
      | [] => es
      | j :: _ => es ∪ (T.state j).ancestors
    else es
  else entrySet

/-- Iterate for descendants: the body of the loop. -/
def descend (configuration exitSet history : Finset TreePath) (e : Entry) (i : TreePath) : Entry :=
  if i ∈ e.entrySet then
    match (T.state i).type with
    | .final | .atomic => e
    | .parallel => { e with entrySet := e.entrySet ∪ (T.state i).completion }
    | .historyShallow | .historyDeep => enterHistory T configuration history i e
    | .initial => enterInitial T i e
    | .compound => { e with entrySet := enterCompound T configuration exitSet i e.entrySet }
  else e

def establishEntrySet (configuration exitSet history targetSet : Finset TreePath) (transSet : Finset TransId) :
    Entry :=
  T.states.foldl (descend T configuration exitSet history)
    { entrySet := addAncestors T targetSet, transSet }

/-! ### `EXIT_STATES` and `TAKE_TRANSITIONS` -/

def exitState (exitSet : Finset TreePath) (s : St ω) (i : TreePath) : St ω :=
  if i ∈ exitSet ∧ i ∈ s.configuration then
    let s := emit (.beforeExitingState i) s
    let s := each (process cb) (T.state i).onExit s
    emit (.afterExitingState i) { s with configuration := s.configuration.erase i }
  else s

def exitStates (exitSet : Finset TreePath) (s : St ω) : St ω := T.states.reverse.foldl (exitState T cb exitSet) s

def takeTransition (i : TransId) (s : St ω) : St ω :=
  let s := emit (.beforeTakingTransition i) s
  let s := each (process cb) (T.trans i).onTrans.toList s
  emit (.afterTakingTransition i) s

/-- The selected transitions; those of histories and `<initial>`s are taken on entry. -/
def takeTransitions (transSet : Finset TransId) (s : St ω) : St ω :=
  (T.transitions.filter fun i => i ∈ transSet && !((T.trans i).history || (T.trans i).initial)).foldl
    (fun s i => takeTransition T cb i s) s

/-! ### Done events -/

/-- Climb from the parent of an active final state: a parallel all of whose descendants were removed is
removed as well. The number of ancestors bounds the loop. -/
def removeParallels (nFinalParent : TreePath) : Nat → TreePath → Finset TreePath → Finset TreePath
  | 0, _, tmpStates => tmpStates
  | n + 1, pState, tmpStates =>
    let nParent := (T.state pState).parent
    if (T.state nParent).type = .parallel ∧ Disjoint tmpStates (T.state nParent).children then
      let tmpStates := tmpStates.erase nParent
      if tmpStates = ∅ ∨ nParent = nFinalParent then tmpStates
      else removeParallels nFinalParent n nParent tmpStates
    else tmpStates

/-- One active state below the parallel: a final one removes its parent and everything below that. -/
def removeFinal (nFinalParent : TreePath) (tmpStates : Finset TreePath) (k : TreePath) : Finset TreePath :=
  if nFinalParent ∈ (T.state k).ancestors ∧ (T.state k).type = .final then
    let stateParent := (T.state k).parent
    removeParallels T nFinalParent (T.state stateParent).ancestors.card stateParent
      ((symmDiff tmpStates (T.state stateParent).children).erase stateParent)
  else tmpStates

/-- What is left of the descendants of a parallel when the active final states are removed. -/
def leftOver (configuration : Finset TreePath) (nFinalParent : TreePath) : Finset TreePath :=
  (T.states.filter (· ∈ configuration)).foldl (removeFinal T nFinalParent) (T.state nFinalParent).children

/-- Climb from the parent of the entered final state as long as the ancestors are parallels. -/
def raiseParallels : Nat → TreePath → St ω → St ω
  | 0, _, s => s
  | n + 1, pFinalParent, s =>
    let nFinalParent := (T.state pFinalParent).parent
    if (T.state nFinalParent).type = .parallel then
      raiseParallels n nFinalParent
        (if leftOver T s.configuration nFinalParent = ∅ then
          raiseDoneEvent cb nFinalParent (T.state nFinalParent).doneData s
        else s)
    else s

def handleFinal (i : TreePath) (s : St ω) : St ω :=
  if (T.state i).ancestors.card = 1 ∧ [] ∈ (T.state i).ancestors then
    { s with flags := { s.flags with topLevelFinal := true } }
  else
    let pFinalParent := (T.state i).parent
    raiseParallels T cb (T.state pFinalParent).ancestors.card pFinalParent
      (raiseDoneEvent cb pFinalParent (T.state i).doneData s)

/-! ### `ENTER_STATES` -/

/-- The transitions of the pseudo-states of `i` that were taken. -/
def pseudoTransitions (transSet : Finset TransId) (i : TreePath) : List TransId :=
  T.transitions.filter fun j =>
    j ∈ transSet && ((T.trans j).history || (T.trans j).initial) && (T.state (T.trans j).source).parent = i

def enterState (e : Entry) (s : St ω) (i : TreePath) : St ω :=
  if i ∈ e.entrySet ∧ i ∉ s.configuration ∧ (T.state i).type.pseudo = false then
    let s := emit (.beforeEnteringState i) s
    let s := { s with configuration := insert i s.configuration }
    let s :=
      if i ∉ s.initializedData then
        let s := each (initData cb) (T.state i).data s
        { s with initializedData := insert i s.initializedData }
      else s
    let s := each (process cb) (T.state i).onEntry s
    let s := emit (.afterEnteringState i) s
    let s := (pseudoTransitions T e.transSet i).foldl (fun s j => takeTransition T cb j s) s
    if (T.state i).type = .final then handleFinal T cb i s else s
  else s

def enterStates (e : Entry) (s : St ω) : St ω := T.states.foldl (enterState T cb e) s

/-! ### The step -/

/-- From `ESTABLISH_ENTRYSET` to the end of the microstep. -/
def microstep (targetSet exitSet : Finset TreePath) (transSet : Finset TransId) (s : St ω) : St ω :=
  let e := establishEntrySet T s.configuration exitSet s.history targetSet transSet
  let s := exitStates T cb exitSet s
  let s := takeTransitions T cb e.transSet s
  let s := enterStates T cb e s
  let s := emit (.afterMicroStep s.configuration) s
  let s := if s.configuration ∈ s.microstepConfigurations then emit .reportIssue s else s
  { s with microstepConfigurations := insert s.configuration s.microstepConfigurations }

/-- From `SELECT_TRANSITIONS` on, with the event in `_event`. -/
def selectAndStep (s : St ω) : StepResult × St ω :=
  let sel := selectTransitions T cb s.configuration s.event s.env
  let exitSet := sel.exitSet ∩ s.configuration
  let s := { s with env := sel.env, flags := { s.flags with stable := false } }
  if sel.found then
    let s := emit .beforeMicroStep { s with flags := { s.flags with spontaneous := true } }
    let s := { s with history := rememberHistory T s.configuration exitSet s.history }
    (.returned .microstepped, microstep T cb sel.targetSet exitSet sel.transSet s)
  else (.returned .microstepped, { s with flags := { s.flags with spontaneous := false } })

/-- Manage invocations: the body of the loop. -/
def manageInvocation (s : St ω) (i : TreePath) : St ω :=
  let s :=
    if i ∉ s.configuration ∧ i ∈ s.invocations then
      { each (uninvoke cb) (T.state i).invoke s with invocations := s.invocations.erase i }
    else s
  if i ∈ s.configuration ∧ i ∉ s.invocations then
    { each (invoke cb) (T.state i).invoke s with invocations := insert i s.invocations }
  else s

def manageInvocations (s : St ω) : St ω := T.states.foldl (manageInvocation T cb) s

/-- Completion: leave one state and cancel its invocations. The configuration stays as it is. -/
def completeState (s : St ω) (i : TreePath) : St ω :=
  let s := if i ∈ s.configuration then each (process cb) (T.state i).onExit s else s
  if i ∈ s.invocations then
    { each (uninvoke cb) (T.state i).invoke s with invocations := s.invocations.erase i }
  else s

def complete (s : St ω) : St ω :=
  let s := emit .beforeCompletion s
  let s := T.states.reverse.foldl (completeState T cb) s
  emit .afterCompletion { s with flags := { s.flags with finished := true } }

/-- The part of `step` behind an empty internal queue. -/
def stepExternal (s : St ω) : StepResult × St ω :=
  let s := manageInvocations T cb s
  if s.flags.stable = false then
    let s := emit .onStableConfiguration s
    (.returned .macrostepped,
      { s with microstepConfigurations := ∅, flags := { s.flags with stable := true } })
  else
    let (r, w) := cb.dequeueExternal s.configuration s.env
    let s := { emit .dequeueExternal s with env := w }
    match r with
    | .error _ => (.thrown, s)
    | .ok event =>
      let s := { s with event := event }
      if event.toBool then selectAndStep T cb (emit (.beforeProcessingEvent event) s)
      else if s.isCancelled then
        (.returned .cancelled, { s with flags := { s.flags with topLevelFinal := true } })
      else (.returned .idle, s)

/-- `FastMicroStep::step` of an initialised microstepper. -/
def step (s : St ω) : StepResult × St ω :=
  if s.flags.finished then (.returned .finished, s)
  else if s.flags.topLevelFinal then (.returned .finished, complete T cb s)
  else if s.flags.pristine then
    let s := { s with flags := { s.flags with spontaneous := true, initialized := true } }
    (.returned .microstepped, microstep T cb (T.state []).completion ∅ ∅ (emit .beforeMicroStep s))
  else if s.flags.spontaneous then selectAndStep T cb { s with event := {} }
  else
    let (event, w) := cb.dequeueInternal s.env
    let s := { s with event := event, env := w }
    if event.toBool then selectAndStep T cb (emit (.beforeProcessingEvent event) s)
    else stepExternal T cb s

def markAsCancelled (s : St ω) : St ω := { s with isCancelled := true }

def reset (s : St ω) : St ω :=
  { s with
    isCancelled := false
    flags := {}
    configuration := ∅
    history := ∅
    initializedData := ∅
    invocations := ∅ }

/-- The states of a run: any number of steps, between which the environment may change in any way and the
microstepper may be cancelled. -/
inductive Reachable : St ω → Prop where
  | init (w : ω) : Reachable { env := w }
  | step {s : St ω} : Reachable s → Reachable (step T cb s).2
  | environment {s : St ω} (w : ω) : Reachable s → Reachable { s with env := w }
  | cancel {s : St ω} : Reachable s → Reachable (markAsCancelled s)

/-- An environment that only delivers external events: descriptors are names, every condition holds and
content does nothing. -/
def externalEvents : Callbacks (List Event) where
  dequeueInternal w := ({}, w)
  dequeueExternal
    | _, [] => (.ok {}, [])
    | _, event :: w => (.ok event, w)
  isMatched event descriptor w := (event.name = descriptor, w)
  raiseDoneEvent _ _ _ w := w
  isTrue _ _ w := (true, w)
  initData _ _ w := w
  process _ _ w := w
  invoke _ _ w := w
  uninvoke _ _ w := w

def steps (n : Nat) (s : St ω) : St ω := (fun s => (step T cb s).2)^[n] s

theorem Reachable.steps {s : St ω} (hs : Reachable T cb s) (n : Nat) : Reachable T cb (steps T cb n s) := by
  induction n generalizing s with
  | zero => exact hs
  | succ n ih => exact ih hs.step

end FastMicroStep

end Uscxml
