import Uscxml.ChartToC.Step
import Uscxml.ChartToPromela.EntrySet
import Uscxml.EventTrie

/-!
# The process `step` of the Promela model

The process that `ChartToPromela::writeFSM` writes for a document without nested machines, block by block. Its arrays are
those of `ChartToC::prepare`, and the entry set is the block of `EntrySet`. The process is one `do` loop: a pass of it
dequeues an event or tries without one, selects transitions, and takes a microstep when it has found any or when no state is
active, which is how the initial configuration is entered. Behind the loop stands what terminates the machine. Conditions are
expressions of Promela and change nothing. A condition is written between `&&` and a closing parenthesis as it is, so that
an `||` in it ends the conjunction it should be part of.
-/

namespace Uscxml

namespace ChartToPromela

open FastMicroStep (Selection Entry)

/-- What the arrays are initialised with: the bits of a transition for histories and `<initial>`s are set by tag names with
the prefix of the document. `data` are the elements behind `_varInitializers`, and `hasId` says for which states a done event
is written. -/
structure Model extends ChartToC.Machine where
  data : List Ref
  hasId : TreePath → Bool
  trie : EventTrie

section Tables

variable {β : Type} (d : Document β)

def transition (t : TransId) : ChartToC.Transition :=
  { ChartToC.transition d t with
    history := d.tag? t.1 = some .history
    initial := d.tag? t.1 = some .initial }

/-- The model of a document whose pseudo-states stand first, when `words` are the events of the analyzer. -/
def model (words : List (List Char)) : Model :=
  { ChartToC.machine d with
    transition := transition d
    data := d.states.flatMap (FastMicroStep.dataRefs d)
    hasId := fun p => (d.id? p).isSome
    trie := eventTrie words }

end Tables

/-- What the process runs against: the channels `iQ` and `eQ`, expressions and executable content. `disjuncts` are the
operands of the outermost `||` of an expression, as Promela reads it. -/
structure Process (ω : Type) where
  dequeueInternal : ω → Option (Uscxml.Event × ω)
  dequeueExternal : Finset TreePath → ω → Option (Uscxml.Event × ω)
  disjuncts : String → List String
  isTrue : Finset TreePath → String → ω → Bool
  raiseDone : Finset TreePath → TreePath → Option Ref → ω → ω
  initData : Ref → ω → ω
  exec : Finset TreePath → Ref → ω → ω

/-- The variables of the process. No event is `USCXML_EVENT_SPONTANEOUS`, and the process has `terminated` when it has come
to its end. -/
structure Vars (ω : Type) where
  spontaneous : Bool := true
  transitionFound : Bool := false
  topLevelFinal : Bool := false
  finished : Bool := false
  terminated : Bool := false
  config : Finset TreePath := ∅
  history : Finset TreePath := ∅
  event : Option Uscxml.Event := none
  env : ω
  acts : List ChartToC.Act := []

variable {ω : Type} (M : Model) (P : Process ω)

/-! ### Content -/

def act (a : ChartToC.Act) (v : Vars ω) : Vars ω := { v with acts := v.acts ++ [a] }

def exec (r : Ref) (v : Vars ω) : Vars ω := { act (.exec r) v with env := P.exec v.config r v.env }

def execAll (blocks : List Ref) (v : Vars ω) : Vars ω := blocks.foldl (fun v r => exec P r v) v

def raiseDone (state : TreePath) (doneData : Option Ref) (v : Vars ω) : Vars ω :=
  { act (.raiseDone state) v with env := P.raiseDone v.config state doneData v.env }

/-! ### `SELECT_TRANSITIONS` -/

def passes (event : Option Uscxml.Event) (t : ChartToC.Transition) : Bool :=
  match t.event with
  | none => true
  | some text =>
    match promelaEvents M.trie text.toList with
    | none => true
    | some events => event.any fun e => events.contains e.name.toList

/-- The operand that is written for the transition `k`, when `i` is the one that is asked about. Only the first part of a
condition with an `||` belongs to the conjunction. -/
def operand (config : Finset TreePath) (event : Option Uscxml.Event) (w : ω) (i k : TransId) : Bool :=
  let t := M.transition k
  match t.isEnabled.map P.disjuncts with
  | none | some [] => i = k && passes M event t
  | some (e :: others) => (i = k && passes M event t && P.isTrue config e w) || others.any fun e => P.isTrue config e w

def enabled (config : Finset TreePath) (event : Option Uscxml.Event) (w : ω) (i : TransId) : Bool :=
  M.transitions.any (operand M P config event w i)

def selectTransition (config : Finset TreePath) (event : Option Uscxml.Event) (s : Selection ω) (i : TransId) :
    Selection ω :=
  let t := M.transition i
  if t.history || t.initial then s
  else if t.source ∈ config ∧ i ∉ s.conflicts ∧ ChartToC.kindMatches event t = true ∧
      enabled M P config event s.env i = true then
    { s with
      found := true
      conflicts := s.conflicts ∪ t.conflicts
      targetSet := s.targetSet ∪ t.target
      exitSet := s.exitSet ∪ t.exitSet
      transSet := insert i s.transSet }
  else s

/-- The loop over the transitions. Without transitions it is not written, and the flag keeps its value. -/
def selectTransitions (v : Vars ω) : Selection ω :=
  M.transitions.foldl (selectTransition M P v.config v.event)
    { found := v.transitionFound && M.transitions.isEmpty, env := v.env }

/-! ### `EXIT_STATES` and `TAKE_TRANSITIONS` -/

def exitState (exitSet : Finset TreePath) (v : Vars ω) (i : TreePath) : Vars ω :=
  if i ∈ exitSet ∧ i ∈ v.config then
    let v := execAll P (M.state i).onExit (act (.exit i) v)
    { v with config := v.config.erase i }
  else v

def exitStates (exitSet : Finset TreePath) (v : Vars ω) : Vars ω := M.states.reverse.foldl (exitState M P exitSet) v

def takeTransition (v : Vars ω) (i : TransId) : Vars ω :=
  execAll P (M.transition i).onTrans.toList (act (.take i) v)

def takeTransitions (transSet : Finset TransId) (v : Vars ω) : Vars ω :=
  (M.transitions.filter fun i => i ∈ transSet && !((M.transition i).history || (M.transition i).initial)).foldl
    (takeTransition M P) v

/-! ### `ENTER_STATES` -/

/-- `states[states[i].parent].children[1]`: is the state with the number 1 a sibling? -/
def looksTopLevel (i : TreePath) : Bool := M.states[1]?.any fun s => s ∈ (M.state (M.state i).parent).children

/-- Are we the last final state to leave a parallel state? -/
def raiseParallel (i : TreePath) (v : Vars ω) (j : TreePath) : Vars ω :=
  if (M.state j).type = .parallel ∧ j ∈ (M.state i).ancestors then
    if ChartToC.tmpStates M.toMachine v.config j = ∅ ∧ M.hasId j = true then raiseDone P j (M.state j).doneData v else v
  else v

def handleFinal (i : TreePath) (v : Vars ω) : Vars ω :=
  let v :=
    if looksTopLevel M i then { v with topLevelFinal := true, finished := true }
    else if M.hasId (M.state i).parent then raiseDone P (M.state i).parent (M.state i).doneData v
    else v
  M.states.foldl (raiseParallel M P i) v

def enterState (e : Entry) (v : Vars ω) (i : TreePath) : Vars ω :=
  if i ∈ e.entrySet ∧ i ∉ v.config ∧ (M.state i).type.pseudo = false then
    let v := act (.enter i) { v with config := insert i v.config }
    let v := execAll P (M.state i).onEntry v
    let v := (ChartToC.pseudoTransitions M.toMachine e.transSet i).foldl (takeTransition M P) v
    if (M.state i).type = .final then handleFinal M P i v else v
  else v

def enterStates (e : Entry) (v : Vars ω) : Vars ω := M.states.foldl (enterState M P e) v

/-! ### The process -/

/-- Only remember history on non-initial entry. -/
def rememberHistory (exitSet : Finset TreePath) (v : Vars ω) : Vars ω :=
  if v.config = ∅ then v
  else { v with history := FastMicroStep.rememberHistory M.tables v.config exitSet v.history }

/-- From `ESTABLISH_ENTRY_SET` to the end of a pass. -/
def microstep (targetSet exitSet : Finset TreePath) (transSet : Finset TransId) (v : Vars ω) : Vars ω :=
  let e := establishEntrySet M.tables v.config exitSet v.history targetSet transSet
  let v := exitStates M P exitSet v
  let v := takeTransitions M P e.transSet v
  let v := enterStates M P e v
  act (.settle v.config) v

/-- From `SELECT_TRANSITIONS` on. -/
def select (v : Vars ω) : Vars ω :=
  let sel := selectTransitions M P v
  let exitSet := sel.exitSet ∩ v.config
  if v.config = ∅ then
    -- enter initial configuration
    microstep M P (M.state []).completion exitSet sel.transSet
      (rememberHistory M exitSet { v with spontaneous := true, transitionFound := true })
  else if sel.found then
    microstep M P sel.targetSet exitSet sel.transSet
      (rememberHistory M exitSet { v with spontaneous := true, transitionFound := true })
  else { v with spontaneous := false, transitionFound := false }

/-- Dequeue an event. With both channels empty the process is blocked. -/
def dequeueEvent (v : Vars ω) : Option (Vars ω) :=
  if v.spontaneous then some { v with event := none }
  else
    match P.dequeueInternal v.env with
    | some (event, w) => some { v with event := some event, env := w }
    | none => (P.dequeueExternal v.config v.env).map fun r => { v with event := some r.1, env := r.2 }

/-- Behind `TERMINATE_MACHINE`: exit all remaining states; the configuration stays as it is. -/
def terminateState (v : Vars ω) (i : TreePath) : Vars ω :=
  if i ∈ v.config ∧ v.topLevelFinal = true then execAll P (M.state i).onExit v else v

def terminateMachine (v : Vars ω) : Vars ω :=
  { M.states.reverse.foldl (terminateState M P) v with terminated := true }

/-- What the process does next, when it is not blocked: a pass of its loop, or its end. -/
def pass (v : Vars ω) : Vars ω :=
  if v.terminated then v
  else if v.finished then terminateMachine M P v
  else ((dequeueEvent P v).map (select M P)).getD v

/-- Before the first pass: `init` has run `_varInitializers`, and the process the global scripts. -/
def start (w : ω) : Vars ω := execAll P M.script { env := M.data.foldl (fun w r => P.initData r w) w }

end ChartToPromela

end Uscxml
