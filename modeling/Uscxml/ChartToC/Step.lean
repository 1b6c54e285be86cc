import Uscxml.ChartToC.Tables
import Uscxml.FastMicroStep.Effects

/-!
# The generated `uscxml_step`

The function that `ChartToC::writeFSM` writes, block by block. Where a block is that of `FastMicroStep::step` over
other tables it is taken from there: the history, the entry set and the selection, which differs in the pointers that
can be `NULL`. The generated code goes back to its label `DEQUEUE_EVENT` when an event selects no transition; a pass is
what it does from there until it returns or goes back. An environment answers the callbacks, and `acts` is the list of
what was done.
-/

namespace Uscxml

namespace ChartToC

open FastMicroStep (Selection Entry Microstep)

/-- The bits of `ctx->flags`. `USCXML_CTX_TRANSITION_FOUND` is cleared by the pass that sets it. -/
structure CtxFlags where
  spontaneous : Bool := false
  initialized : Bool := false
  topLevelFinal : Bool := false
  finished : Bool := false
  deriving DecidableEq, Repr

/-- `USCXML_CTX_PRISTINE`: no bit is set. -/
def CtxFlags.pristine (f : CtxFlags) : Bool := f = {}

/-- What the generated code does: it leaves a state, takes a transition, enters a state, runs a block of content (a
global script is one), hands a block of data over to be initialised, raises a done event, starts or cancels an
invocation, and returns from a microstep. -/
inductive Act where
  | exit (state : TreePath)
  | take (transition : TransId)
  | enter (state : TreePath)
  | exec (block : Ref)
  | initData (block : List Ref)
  | raiseDone (state : TreePath)
  | invoke (invocation : Ref) (uninvoke : Bool)
  | settle (configuration : Finset TreePath)

/-- The function pointers of `uscxml_ctx`, those that may be `NULL` as options, and the functions written for content
and conditions. A block of content says whether it returned `USCXML_ERR_OK`. -/
structure Functions (ω : Type) where
  dequeueInternal : Option (ω → Option Event × ω)
  dequeueExternal : Option (Finset TreePath → ω → Option Event × ω)
  isMatched : Event → String → ω → Bool × ω
  isEnabled : Finset TreePath → String → ω → Bool × ω
  raiseDoneEvent : Finset TreePath → TreePath → Option Ref → ω → ω
  execContentInit : Option (Finset TreePath → List Ref → ω → ω)
  exec : Finset TreePath → Ref → ω → Bool × ω
  invoke : Finset TreePath → Ref → Bool → ω → ω

/-- `uscxml_ctx`. When `err` is set, the call has returned early because of it. -/
structure Ctx (ω : Type) where
  flags : CtxFlags := {}
  config : Finset TreePath := ∅
  history : Finset TreePath := ∅
  invocations : Finset TreePath := ∅
  initializedData : Finset TreePath := ∅
  event : Option Event := none
  err : Bool := false
  env : ω
  acts : List Act := []

/-- The return values: `USCXML_ERR_OK`, `USCXML_ERR_IDLE`, `USCXML_ERR_DONE`, and what a block of content returned. -/
inductive Ret where
  | ok | idle | done | error
  deriving DecidableEq, Repr

variable {ω : Type} (M : Machine) (f : Functions ω)

/-! ### Content -/

def act (a : Act) (c : Ctx ω) : Ctx ω := { c with acts := c.acts ++ [a] }

def exec (r : Ref) (c : Ctx ω) : Bool × Ctx ω :=
  let (ok, w) := f.exec c.config r c.env
  (ok, { act (.exec r) c with env := w })

/-- The functions for `<onentry>`, `<onexit>` and global scripts run every block, whatever the one before returned. -/
def execAll (blocks : List Ref) (c : Ctx ω) : Ctx ω := blocks.foldl (fun c r => (exec f r c).2) c

def raiseDoneEvent (state : TreePath) (doneData : Option Ref) (c : Ctx ω) : Ctx ω :=
  { act (.raiseDone state) c with env := f.raiseDoneEvent c.config state doneData c.env }

/-- The function for the `<invoke>`s of a state. -/
def invokeAll (invocations : List Ref) (uninvoke : Bool) (c : Ctx ω) : Ctx ω :=
  invocations.foldl (fun c r => { act (.invoke r uninvoke) c with env := f.invoke c.config r uninvoke c.env }) c

/-! ### `SELECT_TRANSITIONS` -/

/-- Is it spontaneous with an event or vice versa? -/
def kindMatches (event : Option Event) (t : Transition) : Bool :=
  (t.event.isNone && event.isNone) || (t.event.isSome && event.isSome)

/-- Is it enabled? -/
def enabled (config : Finset TreePath) (event : Option Event) (t : Transition) (w : ω) : Bool × ω :=
  let (matched, w) :=
    match event with
    | none => (true, w)
    | some event => f.isMatched event (t.event.getD "") w
  if matched then
    if t.condition.isNone then (true, w) else f.isEnabled config (t.isEnabled.getD "") w
  else (false, w)

def selectTransition (config : Finset TreePath) (event : Option Event) (s : Selection ω) (i : TransId) : Selection ω :=
  let t := M.transition i
  if t.history || t.initial then s
  else if t.source ∈ config ∧ i ∉ s.conflicts ∧ kindMatches event t = true then
    let (holds, w) := enabled f config event t s.env
    if holds then
      { conflicts := s.conflicts ∪ t.conflicts
        targetSet := s.targetSet ∪ t.target
        exitSet := s.exitSet ∪ t.exitSet
        transSet := insert i s.transSet
        found := true
        env := w }
    else { s with env := w }
  else s

def selectTransitions (config : Finset TreePath) (event : Option Event) (w : ω) : Selection ω :=
  M.transitions.foldl (selectTransition M f config event) { env := w }

/-! ### `EXIT_STATES` and `TAKE_TRANSITIONS` -/

def exitState (exitSet : Finset TreePath) (c : Ctx ω) (i : TreePath) : Ctx ω :=
  if i ∈ exitSet ∧ i ∈ c.config then
    let c := execAll f (M.state i).onExit (act (.exit i) c)
    { c with config := c.config.erase i }
  else c

def exitStates (exitSet : Finset TreePath) (c : Ctx ω) : Ctx ω := M.states.reverse.foldl (exitState M f exitSet) c

def takeTransition (c : Ctx ω) (i : TransId) : Ctx ω :=
  if c.err then c
  else
    let c := act (.take i) c
    match (M.transition i).onTrans with
    | none => c
    | some r =>
      let (ok, c) := exec f r c
      { c with err := !ok }

def takeTransitions (transSet : Finset TransId) (c : Ctx ω) : Ctx ω :=
  (M.transitions.filter fun i => i ∈ transSet && !((M.transition i).history || (M.transition i).initial)).foldl
    (takeTransition M f) c

/-! ### `ENTER_STATES` -/

/-- What is left in `tmp_states` for the parallel `j`: scan the active states below it in document order, a final one
removes its ancestors. -/
def tmpStates (config : Finset TreePath) (j : TreePath) : Finset TreePath :=
  M.states.foldl (fun tmp k =>
    if j ∈ (M.state k).ancestors ∧ k ∈ config then
      if (M.state k).type = .final then tmp \ (M.state k).ancestors else insert k tmp
    else tmp) ∅

/-- Are we the last final state to leave a parallel state? -/
def raiseParallel (i : TreePath) (c : Ctx ω) (j : TreePath) : Ctx ω :=
  if (M.state j).type = .parallel ∧ j ∈ (M.state i).ancestors then
    if tmpStates M c.config j = ∅ then raiseDoneEvent f j none c else c
  else c

def handleFinal (i : TreePath) (c : Ctx ω) : Ctx ω :=
  let c :=
    if (M.ancestorBytes i).getD 0 0 = 0x01 then { c with flags := { c.flags with topLevelFinal := true } }
    else raiseDoneEvent f (M.state i).parent (M.state i).doneData c
  M.states.foldl (raiseParallel M f i) c

def initializeData (i : TreePath) (c : Ctx ω) : Ctx ω :=
  if i ∉ c.initializedData then
    let c :=
      match f.execContentInit with
      | some init =>
        if (M.state i).data ≠ [] then
          { act (.initData (M.state i).data) c with env := init c.config (M.state i).data c.env }
        else c
      | none => c
    { c with initializedData := insert i c.initializedData }
  else c

/-- The history and initial transitions below `i` that were taken. -/
def pseudoTransitions (transSet : Finset TransId) (i : TreePath) : List TransId :=
  M.transitions.filter fun j =>
    j ∈ transSet && ((M.transition j).history || (M.transition j).initial) &&
      (M.state (M.transition j).source).parent = i

/-- Enter one state, unless the call has returned. -/
def enterState (e : Entry) (c : Ctx ω) (i : TreePath) : Ctx ω :=
  if c.err then c
  else if i ∈ e.entrySet ∧ i ∉ c.config ∧ (M.state i).type.pseudo = false then
    let c := act (.enter i) { c with config := insert i c.config }
    let c := initializeData M f i c
    let c := execAll f (M.state i).onEntry c
    let c := (pseudoTransitions M e.transSet i).foldl (takeTransition M f) c
    if c.err = false ∧ (M.state i).type = .final then handleFinal M f i c else c
  else c

def enterStates (e : Entry) (c : Ctx ω) : Ctx ω := M.states.foldl (enterState M f e) c

/-! ### The step -/

/-- From `ESTABLISH_ENTRY_SET` to the end. -/
def microstep (targetSet exitSet : Finset TreePath) (transSet : Finset TransId) (c : Ctx ω) : Ret × Ctx ω :=
  let e := FastMicroStep.establishEntrySet M.tables c.config exitSet c.history targetSet transSet
  let c := exitStates M f exitSet c
  let c := takeTransitions M f e.transSet c
  let c := enterStates M f e c
  if c.err then (.error, c) else (.ok, act (.settle c.config) c)

def manageInvocation (c : Ctx ω) (i : TreePath) : Ctx ω :=
  let c :=
    if i ∉ c.config ∧ i ∈ c.invocations then
      { invokeAll f (M.state i).invoke true c with invocations := c.invocations.erase i }
    else c
  if i ∈ c.config ∧ i ∉ c.invocations then
    { invokeAll f (M.state i).invoke false c with invocations := insert i c.invocations }
  else c

/-- Exit all remaining states; the configuration stays as it is. -/
def completeState (c : Ctx ω) (i : TreePath) : Ctx ω :=
  let c := if i ∈ c.config then execAll f (M.state i).onExit c else c
  if i ∈ c.invocations then
    { invokeAll f (M.state i).invoke true c with invocations := c.invocations.erase i }
  else c

def complete (c : Ctx ω) : Ctx ω :=
  let c := M.states.reverse.foldl (completeState M f) c
  { c with flags := { c.flags with finished := true } }

/-- Where the code goes next: it returns, or it goes to `ESTABLISH_ENTRY_SET` or `SELECT_TRANSITIONS`. -/
inductive Jump (ω : Type) where
  | leave (ret : Ret) (c : Ctx ω)
  | establish (c : Ctx ω)
  | select (c : Ctx ω)

def dequeueEvent (c : Ctx ω) : Jump ω :=
  if c.flags.spontaneous then .select { c with event := none }
  else
    let (event, c) :=
      match f.dequeueInternal with
      | some dequeue =>
        let (event, w) := dequeue c.env
        (event, { c with event := event, env := w })
      | none => (none, c)
    if event.isSome then .select c
    else
      let c := M.states.foldl (manageInvocation M f) c
      match f.dequeueExternal with
      | none => .leave .done c
      | some dequeue =>
        let (event, w) := dequeue c.config c.env
        let c := { c with event := event, env := w }
        if event.isSome then .select c else .leave .idle c

/-- The part of `DEQUEUE_EVENT` behind the internal events. -/
def dequeueOutside (c : Ctx ω) : Jump ω :=
  let c := M.states.foldl (manageInvocation M f) c
  match f.dequeueExternal with
  | none => .leave .done c
  | some dequeue =>
    let (event, w) := dequeue c.config c.env
    let c := { c with event := event, env := w }
    if event.isSome then .select c else .leave .idle c

theorem dequeueEvent_cases (c : Ctx ω) : (∃ event w, dequeueEvent M f c = .select { c with event := event, env := w }) ∨
    ∃ event w, dequeueEvent M f c = dequeueOutside M f { c with event := event, env := w } := by
  rw [dequeueEvent]
  split
  · exact Or.inl ⟨none, c.env, rfl⟩
  · cases f.dequeueInternal with
    | none => exact Or.inr ⟨c.event, c.env, rfl⟩
    | some dequeue =>
      simp only
      split
      · exact Or.inl ⟨_, _, rfl⟩
      · exact Or.inr ⟨_, _, rfl⟩

theorem dequeueOutside_cases (c : Ctx ω) :
    (∃ event w, dequeueOutside M f c = .select { M.states.foldl (manageInvocation M f) c with event := event, env := w }) ∨
      ∃ ret event w,
        dequeueOutside M f c = .leave ret { M.states.foldl (manageInvocation M f) c with event := event, env := w } := by
  rw [dequeueOutside]
  cases f.dequeueExternal with
  | none => exact Or.inr ⟨.done, _, _, rfl⟩
  | some dequeue =>
    simp only
    split
    · exact Or.inl ⟨_, _, rfl⟩
    · exact Or.inr ⟨.idle, _, _, rfl⟩

/-- From the start of the function. On the first call the array `exit_set` is not cleared; it is only read together
with the configuration, which is empty. -/
def enterStep (c : Ctx ω) : Jump ω :=
  let c := { c with err := false }
  if c.flags.finished then .leave .done c
  else if c.flags.topLevelFinal then .leave .done (complete M f c)
  else if c.flags.pristine then
    let c := execAll f M.script c
    .establish { c with flags := { c.flags with spontaneous := true, initialized := true } }
  else dequeueEvent M f c

/-- The end of a pass: what the call returns, or `none` when it goes back to `DEQUEUE_EVENT`. -/
def Jump.follow : Jump ω → Option Ret × Ctx ω
  | .leave ret c => (some ret, c)
  | .establish c =>
    let (ret, c) := microstep M f (M.state []).completion ∅ ∅ c
    (some ret, c)
  | .select c =>
    let sel := selectTransitions M f c.config c.event c.env
    let c := { c with env := sel.env }
    if sel.found then
      let exitSet := sel.exitSet ∩ c.config
      let c :=
        { c with
          flags := { c.flags with spontaneous := true }
          history := FastMicroStep.rememberHistory M.tables c.config exitSet c.history }
      let (ret, c) := microstep M f sel.targetSet exitSet sel.transSet c
      (some ret, c)
    else (none, { c with flags := { c.flags with spontaneous := false } })

/-- The passes behind the first one, at most `n` of them. -/
def repeatPasses : Nat → Ctx ω → Option (Ret × Ctx ω)
  | 0, _ => none
  | n + 1, c =>
    match (dequeueEvent M f c).follow M f with
    | (some ret, c) => some (ret, c)
    | (none, c) => repeatPasses n c

/-- `uscxml_step`, when it returns after at most `n` further passes. -/
def uscxmlStep (n : Nat) (c : Ctx ω) : Option (Ret × Ctx ω) :=
  match (enterStep M f c).follow M f with
  | (some ret, c) => some (ret, c)
  | (none, c) => repeatPasses M f n c

/-- One pass, from the start of the function. -/
def onePass (c : Ctx ω) : Ctx ω := ((enterStep M f c).follow M f).2

/-- The states between passes of a run. Callbacks are answered by the environment, which may change in any way in
between. -/
inductive Reachable : Ctx ω → Prop where
  | init (w : ω) : Reachable { env := w }
  | pass {c : Ctx ω} : Reachable c → Reachable (onePass M f c)
  | environment {c : Ctx ω} (w : ω) : Reachable c → Reachable { c with env := w }

/-- Callbacks that only deliver external events: descriptors are names, every condition holds and content does
nothing. -/
def externalEvents : Functions (List Event) where
  dequeueInternal := some fun w => (none, w)
  dequeueExternal := some fun _ w => (w.head?, w.tail)
  isMatched event descriptor w := (event.name = descriptor, w)
  isEnabled _ _ w := (true, w)
  raiseDoneEvent _ _ _ w := w
  execContentInit := some fun _ _ w => w
  exec _ _ w := (true, w)
  invoke _ _ _ w := w

/-- The microstep of a pass, if it takes one. -/
def microstepOf (c : Ctx ω) : Option Microstep :=
  match enterStep M f c with
  | .leave _ _ => none
  | .establish c => some ⟨c.config, c.history, (M.state []).completion, ∅, ∅⟩
  | .select c =>
    let sel := selectTransitions M f c.config c.event c.env
    let exitSet := sel.exitSet ∩ c.config
    if sel.found then
      some ⟨c.config, FastMicroStep.rememberHistory M.tables c.config exitSet c.history, sel.targetSet, exitSet,
        sel.transSet⟩
    else none

end ChartToC

end Uscxml
