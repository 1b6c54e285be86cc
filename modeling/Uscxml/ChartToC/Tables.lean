import Uscxml.FastMicroStep.Tables
import Uscxml.ChartToC.Resort

/-!
# The tables of `ChartToC::prepare`

The generator of C numbers the states and transitions of a document as the interpreter does and writes for each of
them the constant record that the generated `uscxml_step` reads. The sets of a record are arrays of `unsigned char`
with one bit for every position; here they are finite sets of paths again, which is what `BIT_HAS` finds in the
bytes that `writeCharArrayInitList` writes. The bytes themselves are kept where the generated code looks at one.
-/

namespace Uscxml

namespace ChartToC

/-! ### Bit arrays -/

/-- The loop of `writeCharArrayInitList` behind `index` bits of the byte `currChar`. -/
def writeCharArrayFrom : Nat → Nat → List Bool → List Nat
  | index, currChar, [] => if index ≠ 0 then [currChar] else []
  | index, currChar, b :: bits =>
    let currChar := if b then currChar ||| 1 <<< index else currChar
    if index + 1 = 8 then currChar :: writeCharArrayFrom 0 0 bits else writeCharArrayFrom (index + 1) currChar bits

/-- `writeCharArrayInitList`: the bytes of a string of zeros and ones. -/
def writeCharArrayInitList (boolString : List Bool) : List Nat := writeCharArrayFrom 0 0 boolString

def bitHas (idx : Nat) (bitset : List Nat) : Bool := (bitset.getD (idx / 8) 0).testBit (idx % 8)

theorem testBit_setAt {c i : Nat} (hc : c < 2 ^ i) (b : Bool) (j : Nat) :
    (if b then c ||| 1 <<< i else c).testBit j = if j = i then b else c.testBit j := by
  have hzero : c.testBit i = false := Nat.testBit_lt_two_pow hc
  cases b with
  | false =>
    rw [if_neg Bool.false_ne_true]
    split
    · rename_i h
      rw [h, hzero]
    · rfl
  | true =>
    rw [if_pos rfl, Nat.testBit_or, Nat.one_shiftLeft, Nat.testBit_two_pow]
    split
    · rename_i h
      simp [h]
    · rename_i h
      simp [Ne.symm h]

theorem setAt_lt {c i : Nat} (hc : c < 2 ^ i) (b : Bool) : (if b then c ||| 1 <<< i else c) < 2 ^ (i + 1) := by
  have hlt : c < 2 ^ (i + 1) := hc.trans_le (Nat.pow_le_pow_right (by decide) (Nat.le_succ i))
  cases b with
  | false => exact hlt
  | true =>
    refine Nat.or_lt_two_pow hlt ?_
    rw [Nat.one_shiftLeft]
    exact Nat.pow_lt_pow_right (by decide) (Nat.lt_succ_self i)

theorem bitHas_writeCharArrayFrom (bits : List Bool) {i c : Nat} (hi : i < 8) (hc : c < 2 ^ i) (j : Nat) :
    bitHas j (writeCharArrayFrom i c bits) = if j < i then c.testBit j else bits.getD (j - i) false := by
  induction bits generalizing i c j with
  | nil =>
    have hhigh : ∀ k, i ≤ k → c.testBit k = false :=
      fun k hk => Nat.testBit_lt_two_pow (hc.trans_le (Nat.pow_le_pow_right (by decide) hk))
    rw [writeCharArrayFrom]
    split
    · -- The last byte is not full.
      rcases Nat.lt_or_ge j 8 with hj | hj
      · rw [bitHas, Nat.div_eq_of_lt hj, Nat.mod_eq_of_lt hj]
        split
        · rfl
        · rename_i hge
          simpa using hhigh j (Nat.not_lt.mp hge)
      · obtain ⟨k, hk⟩ : ∃ k, j / 8 = k + 1 := ⟨j / 8 - 1, by omega⟩
        have hnot : ¬ j < i := by omega
        simp [bitHas, hk, hnot]
    · rename_i hzero
      obtain rfl : i = 0 := by omega
      simp [bitHas]
  | cons b bits ih =>
    rw [writeCharArrayFrom]
    split
    · rename_i hfull
      obtain rfl : i = 7 := by omega
      rcases Nat.lt_or_ge j 8 with hj | hj
      · rw [bitHas, Nat.div_eq_of_lt hj, Nat.mod_eq_of_lt hj, List.getD_cons_zero, testBit_setAt hc]
        rcases Nat.lt_or_ge j 7 with hj7 | hj7
        · rw [if_neg (by omega), if_pos hj7]
        · obtain rfl : j = 7 := by omega
          simp
      · have hdiv : j / 8 = (j - 8) / 8 + 1 := by omega
        have hmod : j % 8 = (j - 8) % 8 := by omega
        have hrest := ih (i := 0) (c := 0) (by decide) (by decide) (j - 8)
        rw [bitHas] at hrest
        rw [bitHas, hdiv, hmod, List.getD_cons_succ, hrest, if_neg (by omega), if_neg (by omega)]
        have hsub : j - 7 = j - 8 + 1 := by omega
        simp [hsub]
    · rename_i hmore
      rw [ih (by omega) (setAt_lt hc b), testBit_setAt hc]
      rcases Nat.lt_trichotomy j i with hj | rfl | hj
      · rw [if_pos (by omega), if_neg (by omega), if_pos hj]
      · rw [if_pos (by omega), if_pos rfl, if_neg (by omega)]
        simp
      · rw [if_neg (by omega), if_neg (by omega)]
        have hsub : j - i = j - (i + 1) + 1 := by omega
        simp [hsub]

/-- The generated code finds in an array the bits it was written from. -/
theorem bitHas_writeCharArrayInitList (bits : List Bool) (j : Nat) :
    bitHas j (writeCharArrayInitList bits) = bits.getD j false := by
  rw [writeCharArrayInitList, bitHas_writeCharArrayFrom bits (by decide) (by decide), if_neg (Nat.not_lt_zero j), Nat.sub_zero]

theorem writeCharArrayFrom_lt (bits : List Bool) {i c : Nat} (hi : i < 8) (hc : c < 2 ^ i) :
    ∀ byte ∈ writeCharArrayFrom i c bits, byte < 256 := by
  have hbyte : ∀ {i c : Nat}, i ≤ 8 → c < 2 ^ i → c < 256 :=
    fun hi hc => hc.trans_le (Nat.pow_le_pow_right (by decide) hi)
  induction bits generalizing i c with
  | nil =>
    rw [writeCharArrayFrom]
    split
    · intro byte h
      rw [List.mem_singleton] at h
      exact h ▸ hbyte hi.le hc
    · simp
  | cons b bits ih =>
    rw [writeCharArrayFrom]
    split
    · intro byte h
      rcases List.mem_cons.mp h with rfl | h
      · exact hbyte hi (setAt_lt hc b)
      · exact ih (by decide) (by decide) byte h
    · exact ih (by omega) (setAt_lt hc b)

/-! ### Completions -/

variable {β : Type} (d : Document β)

/-- What `setHistoryCompletion` keeps from one history to the next: the states that histories of other parents stand
for, those that the histories of the current parent stand for, that parent, and the completions found so far. -/
structure HistoryPass where
  covered : List TreePath := []
  perParentCovered : List TreePath := []
  parent : Option TreePath := none
  completions : List (TreePath × List TreePath) := []

/-- The states a history stands for, less those that are covered. -/
def uncovered (history : TreePath) (covered : List TreePath) : List TreePath :=
  d.states.filter fun s =>
    s ≠ history && s ∉ covered && !d.isHistory s &&
      (if (d.elem? history).any (·.deep) then isDescendant s history.parent else s ≠ [] && s.parent = history.parent)

/-- The body of the loop of `setHistoryCompletion`. -/
def coverHistory (a : HistoryPass) (history : TreePath) : HistoryPass :=
  let a :=
    if a.parent ≠ some history.parent then
      { a with covered := a.covered ++ a.perParentCovered, perParentCovered := [], parent := some history.parent }
    else a
  let completion := uncovered d history a.covered
  { a with
    perParentCovered := a.perParentCovered ++ completion
    completions := a.completions ++ [(history, completion)] }

/-- `setHistoryCompletion`, over the histories in postfix order. -/
def setHistoryCompletion : HistoryPass := (d.tree.postorder.filter d.isHistory).foldl (coverHistory d) {}

def historyCompletion (history : TreePath) : List TreePath :=
  ((setHistoryCompletion d).completions.find? fun c => c.1 = history).elim [] (·.2)

/-- `setStateCompletion`. -/
def completion (state : TreePath) : List (Option TreePath) :=
  if d.isHistory state then (historyCompletion d state).map some
  else if d.isParallel state then (d.getChildStates state true).map some
  else FastMicroStep.initialCompletion d state

/-! ### The records -/

/-- `escape`: the characters that cannot stand in a string literal, and those that can. -/
def escapeChar (c : Char) : List Char :=
  if c = '\\' then ['\\', '\\']
  else if c = '\x00' then ['\\', '0']
  else if c = '"' then ['\\', '"']
  else if c = '\x07' then ['\\', 'a']
  else if c = '\x08' then ['\\', 'b']
  else if c = '\x0c' then ['\\', 'f']
  else if c = '\n' then ['\\', 'n']
  else if c = '\r' then ['\\', 'r']
  else if c = '\t' then ['\\', 't']
  else if c = '\x0b' then ['\\', 'v']
  else [c]

def escape (a : String) : String := String.ofList (a.toList.flatMap escapeChar)

/-- The type `writeStates` writes. An `<initial>` is recognised by its tag name, prefix included. -/
def stateType (p : TreePath) : StateType :=
  if d.xmlPrefix = "" ∧ d.tag? p = some .initial then .initial
  else if d.isFinal p then .final
  else if d.isHistory p then if (d.elem? p).any (·.deep) then .historyDeep else .historyShallow
  else if d.isAtomic p then .atomic
  else if d.isParallel p then .parallel
  else .compound

/-- The attribute `hasHistoryChild`: of a state with a history among its children, and of a history when there is
another one below its parent. -/
def hasHistoryChild (p : TreePath) : Bool :=
  (d.children p).any d.isHistory ||
    (d.isHistory p && d.states.any fun s => s ≠ p && isDescendant s p.parent && d.isHistory s)

/-- A `uscxml_state`, with the blocks of executable content that its functions run. With early binding all data
belongs to the root. -/
def stateInfo (p : TreePath) : StateInfo where
  completion := (d.states.filter fun s => some s ∈ completion d p).toFinset
  children := (d.children p).toFinset
  ancestors := (d.states.filter fun s => isDescendant p s).toFinset
  parent := p.parent
  data :=
    match d.binding with
    | .early => if p = [] then d.states.flatMap (FastMicroStep.dataRefs d) else []
    | .late => FastMicroStep.dataRefs d p
  invoke := FastMicroStep.refs (.invoke p) ((d.elem? p).elim 0 (·.invoke.length))
  onEntry := FastMicroStep.refs (.onEntry p) ((d.elem? p).elim 0 (·.onEntry.length))
  onExit := FastMicroStep.refs (.onExit p) ((d.elem? p).elim 0 (·.onExit.length))
  doneData := if (d.elem? p).any (·.doneData.isSome) then some (.doneData p) else none
  type := stateType d p
  hasHistory := hasHistoryChild d p

def ancestorBytes (p : TreePath) : List Nat := writeCharArrayInitList (d.states.map fun s => isDescendant p s)

/-- A `uscxml_transition`. `isEnabled` is the expression that the function of this name evaluates. -/
structure Transition where
  source : TreePath
  target : Finset TreePath
  event : Option String
  condition : Option String
  isEnabled : Option String
  onTrans : Option Ref
  history : Bool
  initial : Bool
  conflicts : Finset TransId
  exitSet : Finset TreePath

/-- `_hasNativeDataModel`. -/
def hasNativeDataModel : Bool := d.datamodel = "native"

def transition (t : TransId) : Transition where
  source := t.1
  target :=
    match (d.trans? t).bind (·.target) with
    | some targets => (d.states.filter fun s => (d.id? s).any fun i => escape i ∈ targets).toFinset
    | none => ∅
  event := (d.trans? t).bind (·.event)
  condition := if hasNativeDataModel d then none else (d.trans? t).bind (·.cond)
  isEnabled := (d.trans? t).bind (·.cond)
  onTrans := if (d.trans? t).any (·.content.isSome) then some (.transition t.1 t.2) else none
  history := d.xmlPrefix = "" ∧ d.tag? t.1 = some .history
  initial := d.xmlPrefix = "" ∧ d.tag? t.1 = some .initial
  conflicts := ((FastMicroStep.postFixTransitions d).filter fun t' => d.conflicts t t').toFinset
  exitSet := (d.states.filter fun s => s ∈ d.getExitSet t).toFinset

/-- A `uscxml_machine`. -/
structure Machine where
  states : List TreePath
  state : TreePath → StateInfo
  ancestorBytes : TreePath → List Nat
  transitions : List TransId
  transition : TransId → Transition
  script : List Ref

/-- The part of a machine that the blocks shared with the interpreter read. -/
def Machine.tables (M : Machine) : Tables where
  states := M.states
  state := M.state
  transitions := M.transitions
  trans t :=
    { conflicts := (M.transition t).conflicts
      exitSet := (M.transition t).exitSet
      source := (M.transition t).source
      target := (M.transition t).target
      onTrans := (M.transition t).onTrans
      event := (M.transition t).event.getD ""
      cond := (M.transition t).condition.getD ""
      history := (M.transition t).history
      initial := (M.transition t).initial }

/-- The machine of a document whose pseudo-states stand first. -/
def machine : Machine where
  states := d.states
  state := stateInfo d
  ancestorBytes := ancestorBytes d
  transitions := FastMicroStep.postFixTransitions d
  transition := transition d
  script := FastMicroStep.refs .script d.tree.root.script.length

/-- `ChartToC::prepare`, and what the `write` functions make of it. -/
def prepare : Machine := machine (resortStates d)

variable {d}

@[simp] theorem mem_stateInfo_children {p s : TreePath} :
    s ∈ (stateInfo d p).children ↔ s ∈ d.states ∧ s ≠ [] ∧ s.parent = p := by
  simp [stateInfo]

@[simp] theorem mem_stateInfo_ancestors {p a : TreePath} : a ∈ (stateInfo d p).ancestors ↔ a ∈ d.states ∧ p.Below a := by
  simp [stateInfo]

theorem bitHas_ancestorBytes (p : TreePath) (k : Nat) :
    bitHas k (ancestorBytes d p) = (d.states[k]?).any fun s => isDescendant p s := by
  rw [ancestorBytes, bitHas_writeCharArrayInitList, List.getD_eq_getElem?_getD, List.getElem?_map]
  cases d.states[k]? <;> rfl

end ChartToC

end Uscxml
