import Uscxml.EventDescriptors
import Uscxml.Messages.EventData

/-!
# Breakpoints

`Breakpoint::matches`, which compares a breakpoint of the user with one that the debugger makes for what the interpreter is
about to do, and the data that breakpoints are sent as. `matches` evaluates the condition of a breakpoint, and only an
exception that comes out of the evaluation makes a difference.
-/

namespace Uscxml

open Data

namespace Breakpoint

inductive When where
  | undef
  | after
  | before
  | on
  deriving DecidableEq, Repr

/-- `Breakpoint::Subject`. -/
inductive Subject where
  | undef
  | state
  | transition
  | stable
  | microstep
  | event
  | invoker
  | executable
  deriving DecidableEq, Repr

inductive Action where
  | undef
  | enter
  | exit
  | invoke
  | uninvoke
  deriving DecidableEq, Repr

/-- The text `toData` writes; there is none for what is not specified. -/
def When.text : When → String
  | undef => ""
  | after => "after"
  | before => "before"
  | on => "on"

def Subject.text : Subject → String
  | undef => ""
  | state => "state"
  | transition => "transition"
  | stable => "stable"
  | microstep => "microstep"
  | event => "event"
  | invoker => "invoker"
  | executable => "executable"

def Action.text : Action → String
  | undef => ""
  | enter => "enter"
  | exit => "exit"
  | invoke => "invoke"
  | uninvoke => "cancel"

/-- The text the constructor reads. -/
def When.ofText (atom : String) : When :=
  if atom = "before" then before else if atom = "after" then after else if atom = "on" then on else undef

def Action.ofText (atom : String) : Action :=
  if atom = "enter" then enter
  else if atom = "exit" then exit
  else if atom = "invoke" then invoke
  else if atom = "cancel" then uninvoke
  else undef

def Subject.ofText (atom : String) : Subject :=
  if atom = "state" then state
  else if atom = "transition" then transition
  else if atom = "stable" then stable
  else if atom = "microstep" then microstep
  else if atom = "event" then event
  else if atom = "invoker" then invoker
  else if atom = "executable" then executable
  else undef

theorem When.ofText_text (w : When) : When.ofText w.text = w := by
  cases w <;> decide

theorem Subject.ofText_text (s : Subject) : Subject.ofText s.text = s := by
  cases s <;> decide

theorem Action.ofText_text (a : Action) : Action.ofText a.text = a := by
  cases a <;> decide

end Breakpoint

open Breakpoint

structure Breakpoint (Node : Type) where
  enabled : Bool := true
  when : When := .undef
  subject : Subject := .undef
  action : Action := .undef
  element : Option Node := none
  invokeId : String := ""
  invokeType : String := ""
  eventName : String := ""
  executableName : String := ""
  executableXPath : String := ""
  stateId : String := ""
  transSourceId : String := ""
  transTargetId : String := ""
  condition : String := ""

namespace Breakpoint

variable {Node : Type}

/-- `if (data.hasKey(key)) field = data.at(key).atom`, for a field that is empty before. -/
def textAt (key : String) (data : Data) : String := (data.at? key).elim "" Data.atom

/-- `Breakpoint::Breakpoint(const Data&)`. -/
def fromData (data : Data) : Breakpoint Node where
  when := When.ofText (textAt "when" data)
  action := Action.ofText (textAt "action" data)
  subject := Subject.ofText (textAt "subject" data)
  condition := textAt "condition" data
  invokeId := textAt "invokeId" data
  invokeType := textAt "invokeType" data
  eventName := textAt "eventName" data
  executableName := textAt "execName" data
  executableXPath := textAt "execXPath" data
  stateId := textAt "stateId" data
  transSourceId := textAt "source" data
  transTargetId := textAt "target" data

/-- `if (text.length() > 0) data.compound[key] = Data(text, Data::VERBATIM)`. -/
def putText (key text : String) (data : Data) : Data := if 0 < text.length then put key (ofText text) data else data

def toData (xPathForNode : Node → String) (b : Breakpoint Node) : Data :=
  let data := putText "subject" b.subject.text Data.empty
  let data := putText "when" b.when.text data
  let data := putText "action" b.action.text data
  let data := putText "invokeId" b.invokeId data
  let data := putText "invokeType" b.invokeType data
  let data := putText "eventName" b.eventName data
  let data := putText "execName" b.executableName data
  let data := putText "execXPath" b.executableXPath data
  let data := b.element.elim data fun element => put "xpath" (ofText (xPathForNode element)) data
  let data := putText "stateId" b.stateId data
  let data := putText "source" b.transSourceId data
  let data := putText "target" b.transTargetId data
  putText "condition" b.condition data

/-- `Breakpoint::matches`. `isTrue` is `InterpreterImpl::isTrue` in the present state of the data model; it gives `none` when
it throws. -/
def matchesOther (isTrue : String → Option Bool) (b other : Breakpoint Node) : Bool :=
  if b.subject ≠ .undef ∧ other.subject ≠ b.subject then false
  else if b.when ≠ .undef ∧ other.when ≠ b.when then false
  else if b.action ≠ .undef ∧ other.action ≠ b.action then false
  else if 0 < b.invokeId.length ∧ b.invokeId ≠ other.invokeId then false
  else if 0 < b.invokeType.length ∧ b.invokeType ≠ other.invokeType then false
  else if 0 < b.stateId.length ∧ b.stateId ≠ other.stateId then false
  else if 0 < b.eventName.length ∧ nameMatch b.eventName.toList other.eventName.toList = false then false
  else if 0 < b.executableName.length ∧ b.executableName ≠ other.executableName then false
  else if 0 < b.transSourceId.length ∧ b.transSourceId ≠ other.transSourceId then false
  else if 0 < b.transTargetId.length ∧ b.transTargetId ≠ other.transTargetId then false
  -- what `isTrue` returns is not looked at
  else if 0 < b.condition.length ∧ isTrue b.condition = none then false
  else true

/-! ### What a breakpoint says -/

/-- The other breakpoint agrees with all that is specified, but for the event and the condition. -/
structure Agrees (b other : Breakpoint Node) : Prop where
  subject : b.subject ≠ .undef → other.subject = b.subject
  when : b.when ≠ .undef → other.when = b.when
  action : b.action ≠ .undef → other.action = b.action
  invokeId : b.invokeId ≠ "" → other.invokeId = b.invokeId
  invokeType : b.invokeType ≠ "" → other.invokeType = b.invokeType
  stateId : b.stateId ≠ "" → other.stateId = b.stateId
  executableName : b.executableName ≠ "" → other.executableName = b.executableName
  transSourceId : b.transSourceId ≠ "" → other.transSourceId = b.transSourceId
  transTargetId : b.transTargetId ≠ "" → other.transTargetId = b.transTargetId

def Described (b other : Breakpoint Node) : Prop :=
  b.eventName = "" ∨ AnyMatches b.eventName.toList other.eventName.toList

def Named (b other : Breakpoint Node) : Prop :=
  b.eventName = "" ∨ nameMatch b.eventName.toList other.eventName.toList = true

def Meant (isTrue : String → Option Bool) (b other : Breakpoint Node) : Prop :=
  Agrees b other ∧ Described b other ∧ (b.condition = "" ∨ isTrue b.condition = some true)

/-- What makes `matches` right: where the rest agrees and the event is described, an event that is found has a condition that
is not false, and one that is missed has a condition that is not true; where the event is not described, one that is found has
a condition that throws. -/
def Meets (isTrue : String → Option Bool) (b other : Breakpoint Node) : Prop :=
  Agrees b other →
    (Described b other → Named b other → b.condition ≠ "" → isTrue b.condition ≠ some false) ∧
      (Described b other → ¬ Named b other → b.condition ≠ "" ∧ isTrue b.condition ≠ some true) ∧
      (¬ Described b other → Named b other → b.condition ≠ "" ∧ isTrue b.condition = none)

theorem guard_iff {p : Prop} [Decidable p] {rest : Bool} : (if p then false else rest) = true ↔ ¬ p ∧ rest = true := by
  by_cases h : p <;> simp [h]

theorem length_pos_iff {text : String} : 0 < text.length ↔ text ≠ "" := by
  rw [Nat.pos_iff_ne_zero, ne_eq, ne_eq, String.length_eq_zero_iff]

theorem qualifier_iff {text other : String} : ¬ (0 < text.length ∧ text ≠ other) ↔ (text ≠ "" → other = text) := by
  rw [length_pos_iff, not_and, not_ne_iff]
  exact ⟨fun h hne => (h hne).symm, fun h hne => (h hne).symm⟩

theorem matchesOther_iff (isTrue : String → Option Bool) (b other : Breakpoint Node) :
    b.matchesOther isTrue other = true ↔
      Agrees b other ∧ Named b other ∧ (b.condition ≠ "" → isTrue b.condition ≠ none) := by
  have hname : ¬ (0 < b.eventName.length ∧ nameMatch b.eventName.toList other.eventName.toList = false) ↔ Named b other := by
    rw [length_pos_iff, not_and, Bool.not_eq_false, Named]
    exact Decidable.imp_iff_not_or.trans (or_congr_left not_not)
  have hcondition : ¬ (0 < b.condition.length ∧ isTrue b.condition = none) ↔ (b.condition ≠ "" → isTrue b.condition ≠ none) := by
    rw [length_pos_iff, not_and]
  rw [matchesOther]
  simp only [guard_iff, qualifier_iff, hname, hcondition]
  simp only [not_and, not_not, and_true]
  constructor
  · rintro ⟨hsubject, hwhen, haction, hid, htype, hstate, hnamed, hexec, hsource, htarget, hthrows⟩
    exact ⟨⟨hsubject, hwhen, haction, hid, htype, hstate, hexec, hsource, htarget⟩, hnamed, hthrows⟩
  · rintro ⟨h, hnamed, hthrows⟩
    exact ⟨h.subject, h.when, h.action, h.invokeId, h.invokeType, h.stateId, hnamed, h.executableName, h.transSourceId,
      h.transTargetId, hthrows⟩

theorem matchesOther_meant_iff (isTrue : String → Option Bool) (b other : Breakpoint Node) :
    (b.matchesOther isTrue other = true ↔ b.Meant isTrue other) ↔ b.Meets isTrue other := by
  rw [matchesOther_iff, Meant, Meets]
  by_cases hagrees : Agrees b other
  · simp only [hagrees, true_and, forall_const]
    by_cases hdescribed : Described b other <;> by_cases hnamed : Named b other <;> by_cases hempty : b.condition = "" <;>
      rcases isTrue b.condition with - | (- | -) <;> simp [hdescribed, hnamed, hempty]
  · exact iff_of_true (iff_of_false (fun h => hagrees h.1) fun h => hagrees h.1) fun h => absurd h hagrees

/-! ### Breakpoints as data -/

theorem at?_putText (key key' text : String) (data : Data) :
    (putText key text data).at? key' = if key = key' ∧ text ≠ "" then some (ofText text) else data.at? key' := by
  rw [putText]
  split
  · rename_i h
    rw [at?_put]
    by_cases hkey : key = key' <;> simp [hkey, length_pos_iff.mp h]
  · rename_i h
    rw [length_pos_iff, not_not] at h
    rw [if_neg fun hput => hput.2 h]

theorem elim_ofText (text : String) : (if text = "" then none else some (ofText text)).elim "" Data.atom = text := by
  split
  · rename_i h
    exact h.symm
  · rfl

theorem at?_element (xPathForNode : Node → String) (element : Option Node) (data : Data) {key : String} (hkey : "xpath" ≠ key) :
    (element.elim data fun element => put "xpath" (ofText (xPathForNode element)) data).at? key = data.at? key := by
  cases element with
  | none => rfl
  | some element =>
    rw [Option.elim_some, at?_put, if_neg hkey]

/-- All that a breakpoint specifies comes back, but for the element. -/
theorem fromData_toData (xPathForNode : Node → String) (b : Breakpoint Node) :
    (fromData (toData xPathForNode b) : Breakpoint Node) = { b with element := none, enabled := true } := by
  have hnone : ∀ key, Data.empty.at? key = none := fun _ => rfl
  simp [fromData, textAt, toData, at?_putText, at?_element, hnone, elim_ofText, When.ofText_text, Subject.ofText_text,
    Action.ofText_text]

/-- The breakpoint that is read back matches what the other one does. -/
theorem matchesOther_fromData (xPathForNode : Node → String) (isTrue : String → Option Bool) (b other : Breakpoint Node) :
    (fromData (toData xPathForNode b) : Breakpoint Node).matchesOther isTrue other = b.matchesOther isTrue other := by
  rw [fromData_toData]
  rfl

/-- A breakpoint and what is read back of it match what is meant, exactly where neither the answer of the condition
nor what `nameMatch` makes of the event is in the way. -/
theorem matchesOther_correct_iff (xPathForNode : Node → String) (isTrue : String → Option Bool) (b other : Breakpoint Node) :
    ((b.matchesOther isTrue other = true ↔ b.Meant isTrue other) ∧
        (fromData (toData xPathForNode b) : Breakpoint Node).matchesOther isTrue other = b.matchesOther isTrue other) ↔
      b.Meets isTrue other := by
  rw [and_iff_left (matchesOther_fromData xPathForNode isTrue b other), matchesOther_meant_iff]

/-- A breakpoint whose condition is false matches. -/
theorem false_condition_matches :
    ¬ (matchesOther (fun _ => some false) ({ condition := "false" } : Breakpoint Unit) {} = true ↔
      Meant (fun _ => some false) ({ condition := "false" } : Breakpoint Unit) {}) := by
  intro h
  obtain ⟨-, -, hcondition⟩ := h.mp (by decide)
  exact absurd hcondition (by decide)

end Breakpoint

end Uscxml
