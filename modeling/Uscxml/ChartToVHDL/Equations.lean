import Uscxml.ChartToC.Tables

/-!
# The equations of `ChartToVHDL`

The generator of VHDL takes over the tables of `ChartToC::prepare` and writes one concurrent assignment for every signal.
An assignment is a tree of `VNode`s; what it means is what the printed text means, in which an `and` starts with `'1'` and
an `or` with `'0'`. The signals of a clock cycle are a valuation that satisfies all assignments.
-/

namespace Uscxml

namespace ChartToVHDL

open ChartToC (Machine machine)

/-- The signals of the micro stepper, with the position in the name. -/
inductive Signal where
  | stateActive (state : TreePath)
  | stateNext (state : TreePath)
  | inExitSet (state : TreePath)
  | inEntrySet (state : TreePath)
  | inCompleteEntrySet (state : TreePath)
  | inCompleteEntrySetUp (state : TreePath)
  | inOptimalTransitionSet (transition : TransId)
  | completed
  deriving DecidableEq, Repr

/-- `VNode`: a line names a signal or is the literal `'0'`. -/
inductive VNode where
  | line (signal : Signal)
  | zero
  | vand (v : List VNode)
  | vor (v : List VNode)
  | vnot (v : VNode)

mutual

/-- The value of the text that `print` writes. -/
def VNode.eval (σ : Signal → Bool) : VNode → Bool
  | .line signal => σ signal
  | .zero => false
  | .vand v => VNode.evalAnd σ v
  | .vor v => VNode.evalOr σ v
  | .vnot v => !v.eval σ

/-- The loop of `VAnd::print`, behind `'1'`. -/
def VNode.evalAnd (σ : Signal → Bool) : List VNode → Bool
  | [] => true
  | n :: v => n.eval σ && VNode.evalAnd σ v

/-- The loop of `VOr::print`, behind `'0'`. -/
def VNode.evalOr (σ : Signal → Bool) : List VNode → Bool
  | [] => false
  | n :: v => n.eval σ || VNode.evalOr σ v

end

/-- `VASSIGN`. -/
structure VAssign where
  signal : Signal
  tree : VNode

def Satisfies (σ : Signal → Bool) (l : List VAssign) : Prop := ∀ a ∈ l, σ a.signal = a.tree.eval σ

section Write

variable {β : Type} (d : Document β) (M : Machine)

/-- The character of `targetBools` at a state. A transition without a `target` attribute has no such string, and what
`operator[]` finds behind the end of the empty one is up to the environment. -/
def targetBit (stray : TransId → TreePath → Bool) (transition : TransId) (state : TreePath) : Bool :=
  if ((d.trans? transition).bind (·.target)).isSome then state ∈ (M.transition transition).target
  else stray transition state

def writeExitSet : List VAssign :=
  M.states.map fun state =>
    let exitsetters := (M.transitions.filter fun t => state ∈ (M.transition t).exitSet).map fun t =>
      VNode.line (.inOptimalTransitionSet t)
    ⟨.inExitSet state, .vand [.line (.stateActive state), .vor exitsetters]⟩

def writeEntrySet : List VAssign :=
  M.states.map fun state =>
    ⟨.inEntrySet state,
      .vand [.line (.inCompleteEntrySet state), .vor [.line (.inExitSet state), .vnot (.line (.stateActive state))]]⟩

/-- The first loop of `writeCompleteEntrySet`. The test whether `tmp_state` is a child of the state looks up the state
itself. -/
def writeCompleteEntrySetUp (stray : TransId → TreePath → Bool) : List VAssign :=
  (M.states.filter (· ≠ [])).map fun state =>
    let optimalEntrysetters := (M.transitions.filter fun t => targetBit d M stray t state).map fun t =>
      VNode.line (.inOptimalTransitionSet t)
    let completeEntrysetters :=
      if d.isCompound state || d.isParallel state then
        (M.states.filter fun _ => state ∈ (M.state state).children).map fun tmpState =>
          VNode.line (.inCompleteEntrySetUp tmpState)
      else []
    ⟨.inCompleteEntrySetUp state, .vor [.vor optimalEntrysetters, .vor completeEntrysetters]⟩

/-- The attribute `initial` of an element, empty when there is none. A chart has the ids of it, and the text is that with one
blank between two of them; the source compares the text with all its blanks. -/
def initialText (p : TreePath) : String := (((d.elem? p).bind (·.initial)).map (String.intercalate " ")).getD ""

/-- Is a child of a compound state its default completion? -/
def isDefault (state : TreePath) : Bool :=
  let parentInit := initialText d state.parent
  (parentInit ≠ "" && (d.id? state).getD "" = parentInit) ||
    (parentInit = "" && M.states.idxOf state.parent + 1 = M.states.idxOf state)

/-- The completion of a state by its parent. -/
def descendantCompletion (state : TreePath) : List VNode :=
  if d.isCompound state.parent then
    if isDefault d M state then
      VNode.line (.inEntrySet state.parent) ::
        (M.states.filter fun tmpState => tmpState ≠ state && tmpState ∈ (M.state state.parent).children).map fun tmpState =>
          .vnot (.vand [.line (.stateActive tmpState), .vnot (.line (.inExitSet tmpState))])
    else [.zero]
  else if d.isParallel state.parent then [.line (.inCompleteEntrySet state.parent)]
  else []

/-- The second loop of `writeCompleteEntrySet`. -/
def writeCompleteEntrySet : List VAssign :=
  (M.states.filter (· ≠ [])).map fun state =>
    ⟨.inCompleteEntrySet state, .vor [.line (.inCompleteEntrySetUp state), .vand (descendantCompletion d M state)]⟩

def writeActiveStateNplusOne : List VAssign :=
  M.states.map fun state =>
    if state = [] then ⟨.stateNext state, .vnot (.line .completed)⟩
    else
      ⟨.stateNext state, .vor [.line (.inCompleteEntrySet state),
        .vand [.vnot (.line (.inExitSet state)), .line (.stateActive state)]]⟩

/-- The assignment of `completed_sig` in `writeSystemSignalMapping`. -/
def writeCompleted : List VAssign :=
  let topLevelFinal := (d.children []).filter fun c => d.tag? c = some .final
  [⟨.completed, .vor (topLevelFinal.map fun f => .line (.stateActive f))⟩]

end Write

/-- The assignments for the next states of a document whose pseudo-states stand first. -/
def assignments {β : Type} (d : Document β) (stray : TransId → TreePath → Bool) : List VAssign :=
  writeExitSet (machine d) ++ writeEntrySet (machine d) ++ writeCompleteEntrySetUp d (machine d) stray ++
    writeCompleteEntrySet d (machine d) ++ writeActiveStateNplusOne (machine d) ++ writeCompleted d

/-- What `ChartToVHDL` emits for the next states of a document. -/
def emitted {β : Type} (d : Document β) (stray : TransId → TreePath → Bool) : List VAssign :=
  assignments (ChartToC.resortStates d) stray

/-- The signals that come from elsewhere: the active states and the selected transitions. The signal of the root in the
complete entry set is set by a reset and cleared by the first clock edge. -/
structure Inputs (C : Finset TreePath) (S : Finset TransId) (σ : Signal → Bool) : Prop where
  active : ∀ p, σ (.stateActive p) = true ↔ p ∈ C
  optimal : ∀ t, σ (.inOptimalTransitionSet t) = true ↔ t ∈ S
  root : σ (.inCompleteEntrySet []) = false

/-! ### The values of the assignments -/

section Values

variable {σ : Signal → Bool}

theorem evalAnd_iff {v : List VNode} : VNode.evalAnd σ v = true ↔ ∀ n ∈ v, n.eval σ = true := by
  induction v with
  | nil => simp [VNode.evalAnd]
  | cons n v ih => simp [VNode.evalAnd, ih]

theorem evalOr_iff {v : List VNode} : VNode.evalOr σ v = true ↔ ∃ n ∈ v, n.eval σ = true := by
  induction v with
  | nil => simp [VNode.evalOr]
  | cons n v ih => simp [VNode.evalOr, ih]

@[simp] theorem eval_line (s : Signal) : (VNode.line s).eval σ = σ s := by rw [VNode.eval]

@[simp] theorem eval_zero : VNode.zero.eval σ = false := by rw [VNode.eval]

@[simp] theorem eval_vand_iff {v : List VNode} : (VNode.vand v).eval σ = true ↔ ∀ n ∈ v, n.eval σ = true := by
  rw [VNode.eval, evalAnd_iff]

@[simp] theorem eval_vor_iff {v : List VNode} : (VNode.vor v).eval σ = true ↔ ∃ n ∈ v, n.eval σ = true := by
  rw [VNode.eval, evalOr_iff]

@[simp] theorem eval_vnot (n : VNode) : (VNode.vnot n).eval σ = !n.eval σ := by rw [VNode.eval]

end Values

end ChartToVHDL

end Uscxml
