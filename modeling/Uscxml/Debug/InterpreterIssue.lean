import Uscxml.EventTrie
import Uscxml.Lib.Fold
import Uscxml.LegalCompletion
import Uscxml.Configurations
import Uscxml.Reachability

/-!
# Issues of a document

`InterpreterIssue::forInterpreter` of `debug/InterpreterIssue.cpp` as far as it looks at states, transitions and where
elements stand. Plugins, the data model and what is inside executable content and invocations are not asked here. The
issues stand in the order of the source but for those of illegal target sets, which the source keeps in a map from pointers.
-/

namespace Uscxml

variable {β : Type}

inductive IssueSeverity where
  | fatal | warning | info
  deriving DecidableEq, Repr

/-- What an issue points to: a state or pseudo-state, or another child of one. -/
inductive IssueNode where
  | element (p : TreePath)
  | child (r : Ref)
  deriving DecidableEq, Repr

/-- The node of a transition. -/
def IssueNode.transition (t : TransId) : IssueNode := .child (.transition t.1 t.2)

structure Issue where
  message : String
  node : IssueNode
  severity : IssueSeverity
  deriving DecidableEq, Repr

/-- `LOCALNAME`. -/
def Tag.localName : Tag → String
  | .scxml => "scxml"
  | .state => "state"
  | .parallel => "parallel"
  | .final => "final"
  | .initial => "initial"
  | .history => "history"

namespace Document

/-! ### The elements -/

variable (d : Document β)

/-- `nodeSets[localName]`: the root is in no set. -/
def nodeSet (localName : Tag) : List TreePath := d.states.filter fun p => p ≠ [] ∧ d.tag? p = some localName

def allStates : List TreePath := d.nodeSet .state ++ d.nodeSet .parallel ++ d.nodeSet .history ++ d.nodeSet .final

/-- `nodeSets["transition"]`. -/
def allTransitions : List TransId := d.states.flatMap d.transIds

/-- The states below an element that the `initial` attribute can name. -/
def childsOf (p : TreePath) : List TreePath :=
  (d.states.filter fun q => isDescendant q p && d.tag? q = some .state) ++
    (d.states.filter fun q => isDescendant q p && d.tag? q = some .parallel) ++
    (d.states.filter fun q => isDescendant q p && d.tag? q = some .final) ++
    (d.states.filter fun q => isDescendant q p && d.tag? q = some .history)

/-! ### States -/

/-- What is put in front of a message when the document has a `name`. -/
def sInterpreter (name : Option String) : String := name.elim "" fun name => "[" ++ name ++ "]: "

/-- The transition of a history with the id `stateId`. -/
def historyIssues (name : Option String) (p : TreePath) (stateId : String) : List Issue :=
  let pre := sInterpreter name
  match d.transIds p with
  | [] => [⟨pre ++ "History pseudo-state with id '" ++ stateId ++ "' has no default transition", .element p, .fatal⟩]
  | [t] =>
    (if (d.trans? t).any (·.cond.isSome) then
      [⟨pre ++ "Transition in history pseudo-state '" ++ stateId ++ "' must not have a condition", .transition t, .fatal⟩]
    else []) ++
    (if (d.trans? t).any (·.event.isSome) then
      [⟨pre ++ "Transition in history pseudo-state '" ++ stateId ++ "' must not have an event attribute",
        .transition t, .fatal⟩]
    else []) ++
    if (d.trans? t).any (·.target.isNone) then
      [⟨pre ++ "Transition in history pseudo-state '" ++ stateId ++ "' has no target", .transition t, .fatal⟩]
    else
      (d.getTargetStates t).flatMap fun target =>
        if (d.elem? p).any (·.deep) then
          if isDescendant target p.parent then []
          else [⟨pre ++ "Transition in deep history pseudo-state '" ++ stateId ++ "' has illegal target state '" ++
            (d.id? target).getD "" ++ "'", .transition t, .fatal⟩]
        else if target ≠ [] ∧ target.parent = p.parent then []
        else [⟨pre ++ "Transition in shallow history pseudo-state '" ++ stateId ++ "' has illegal target state '" ++
          (d.id? target).getD "" ++ "'", .transition t, .fatal⟩]
  | _ => [⟨pre ++ "History pseudo-state with id '" ++ stateId ++ "' has multiple transitions", .element p, .fatal⟩]

/-- `seenStates` and the issues found so far. -/
structure Seen where
  seenStates : List (String × TreePath) := []
  issues : List Issue := []

/-- One round of the loop over all states, of which those in `reachable` can be reached. -/
def checkState (name : Option String) (reachable : List TreePath) (acc : Seen) (p : TreePath) : Seen :=
  let pre := sInterpreter name
  match d.id? p with
  | none =>
    if d.tag? p = some .final then acc
    else { acc with issues := acc.issues ++ [⟨pre ++ "State has no 'id' attribute", .element p, .fatal⟩] }
  | some stateId =>
    if stateId = "" then
      { acc with issues := acc.issues ++ [⟨pre ++ "State has empty 'id' attribute", .element p, .fatal⟩] }
    else
      let issues := acc.issues ++ (if d.tag? p = some .history then d.historyIssues name p stateId else []) ++
        (if p ∈ reachable then []
        else [⟨pre ++ "State with id '" ++ stateId ++ "' is unreachable", .element p, .warning⟩])
      if (acc.seenStates.lookup stateId).isSome then
        { acc with
          issues := issues ++ [⟨pre ++ "Duplicate state with id '" ++ stateId ++ "'", .element p, .fatal⟩] }
      else { seenStates := acc.seenStates ++ [(stateId, p)], issues }

def checkStates (name : Option String) (reachable : List TreePath) : Seen :=
  d.allStates.foldl (d.checkState name reachable) {}

/-- What `seenStates` holds after the loop, which depends on nothing but the ids. -/
def seen (stateId : String) : Option TreePath := (d.checkStates none []).seenStates.lookup stateId

/-! ### Transitions -/

def targetIssues (name : Option String) : List Issue :=
  d.allTransitions.flatMap fun t =>
    match (d.trans? t).bind (·.target) with
    | none => []
    | some targetIds =>
      (if targetIds.length = 0 then
        [⟨sInterpreter name ++ "Transition has empty target state list", .transition t, .fatal⟩]
      else []) ++
      targetIds.flatMap fun targetId =>
        if (d.seen targetId).isNone then
          [⟨sInterpreter name ++ "Transition has non-existant target state with id '" ++ targetId ++ "'",
            .transition t, .fatal⟩]
        else []

/-- Will the earlier transition always be enabled when the later is? -/
def alwaysEnabled (earlierTransition transition : TransitionElem β) : Bool :=
  earlierTransition.cond.isNone &&
    match earlierTransition.event with
    | none => true
    | some eventDescs =>
      match transition.event with
      | none => false
      | some events => (tokenize events.toList).all fun event => nameMatch eventDescs.toList event

/-- Is there a transition in front of this one that makes it redundant? -/
def redundant (t : TransId) : Bool :=
  (List.range t.2).any fun k =>
    (d.trans? (t.1, k)).any fun earlierTransition => (d.trans? t).any (alwaysEnabled earlierTransition)

def redundancyIssue (t : TransId) : Issue := ⟨"Transition can never be optimally enabled", .transition t, .info⟩

def redundancyIssues : List Issue :=
  d.allStates.flatMap fun p => ((d.transIds p).filter d.redundant).map redundancyIssue

/-! ### Histories -/

def kidsAt : Forest (Elem β) → TreePath → Forest (Elem β)
  | kids, [] => kids
  | .nil, _ => .nil
  | .cons _ kids _, 0 :: p => kidsAt kids p
  | .cons _ _ next, (k + 1) :: p => kidsAt next (k :: p)

def configurationsOf (p : TreePath) : List (Finset TreePath) :=
  match d.tag? p with
  | none => []
  | some localName => if d.xmlPrefix = "" then configurationsLoop p localName (kidsAt d.tree.kids p) 0 true [] else [{p}]

def historyUseIssues : List Issue :=
  (d.nodeSet .history).flatMap fun history =>
    if d.isAtomic history.parent then
      [⟨"Useless history '" ++ (d.id? history).getD "" ++ "' in atomic state", .element history, .info⟩]
    else if (d.configurationsOf history.parent).length ≤ 1 then
      [⟨"Useless history '" ++ (d.id? history).getD "" ++ "' in state with single legal configuration",
        .element history, .info⟩]
    else []

/-! ### Initial states -/

/-- The value of the `initial` attribute. -/
def initialAttr (p : TreePath) : Option (List String) := (d.elem? p).bind (·.initial)

def initialAttrIssues : List Issue :=
  (d.allStates ++ [[]]).flatMap fun state =>
    ((d.initialAttr state).getD []).flatMap fun stateId =>
      match d.seen stateId with
      | none => [⟨"Initial attribute has invalid target state with id '" ++ stateId ++ "'", .element state, .fatal⟩]
      | some s =>
        if s ∈ d.childsOf state then []
        else [⟨"Initial attribute references non-child state '" ++ stateId ++ "'", .element state, .fatal⟩]

/-- The target sets that are looked at. The `initial` attribute of the root is not among them. -/
def targetIdSets : List (IssueNode × List String) :=
  (d.allTransitions.filterMap fun t => ((d.trans? t).bind (·.target)).map fun ids => (.transition t, ids)) ++
    d.allStates.filterMap fun p => (d.initialAttr p).map fun ids => (.element p, ids)

def illegalTargetIssues : List Issue :=
  d.targetIdSets.flatMap fun set =>
    if set.2.all (fun targetId => (d.seen targetId).isSome) && !d.hasLegalCompletion (set.2.filterMap d.seen) then
      [⟨"Target states cause illegal configuration", set.1, .fatal⟩]
    else []

def initTransitions (initial : TreePath) : List TransId :=
  (d.states.filter fun p => initial <+: p).flatMap d.transIds

/-- The checks of one transition inside an `<initial>`. -/
def initTransIssues (t : TransId) : List Issue :=
  (if (d.trans? t).any (·.cond.isSome) then
    [⟨"Initial transition cannot have a condition", .transition t, .fatal⟩] else []) ++
  (if (d.trans? t).any (·.event.isSome) then
    [⟨"Initial transition cannot be eventful", .transition t, .fatal⟩] else []) ++
  if d.isState t.1.parent true then
    (((d.trans? t).bind (·.target)).getD []).flatMap fun stateId =>
      if (d.seen stateId).any (· ∈ d.childsOf t.1.parent) then []
      else [⟨"Target of initial transition references non-child state '" ++ stateId ++ "'", .transition t, .fatal⟩]
  else []

def initialIssues : List Issue :=
  ((d.nodeSet .initial).flatMap fun initial =>
    if (d.initTransitions initial).length ≠ 1 then
      [⟨"Initial element must define exactly one transition", .element initial, .fatal⟩]
    else []) ++
  ((d.nodeSet .initial).flatMap d.initTransitions).flatMap d.initTransIssues

/-! ### Where elements stand -/

def execContentSet : List String :=
  ["if", "elseif", "else", "foreach", "raise", "send", "cancel", "assign", "script", "log"]

def validChildren : List (String × List String) :=
  [("scxml", ["state", "parallel", "final", "datamodel", "script"]),
    ("state",
      ["onentry", "onexit", "transition", "state", "parallel", "history", "datamodel", "invoke", "initial", "final"]),
    ("parallel", ["onentry", "onexit", "transition", "state", "parallel", "history", "datamodel", "invoke"]),
    ("transition", execContentSet), ("onentry", execContentSet), ("onexit", execContentSet), ("finalize", execContentSet),
    ("if", execContentSet), ("elseif", execContentSet), ("else", execContentSet), ("foreach", execContentSet),
    ("initial", ["transition"]), ("history", ["transition"]), ("final", ["onentry", "onexit", "donedata"]),
    ("datamodel", ["data"]), ("donedata", ["content", "param"]), ("send", ["content", "param"]),
    ("invoke", ["content", "param", "finalize"])]

/-- The inverse of `validChildren`. -/
def validParents (localName : String) : List String :=
  (validChildren.filter fun parent => parent.2.contains localName).map (·.1)

/-- An element that is no child an element with the name of its parent can have. -/
def parentIssue (localName : String) (parent : TreePath) (node : IssueNode) : List Issue :=
  let parentName := (d.tag? parent).elim "" Tag.localName
  if (validParents localName).contains parentName then []
  else [⟨"Element " ++ localName ++ " can be no child of " ++ parentName, node, .warning⟩]

def childIssues (localName : String) (count : Elem β → Nat) (node : TreePath → Nat → Ref) : List Issue :=
  d.states.flatMap fun p => (List.range ((d.elem? p).elim 0 count)).flatMap fun k =>
    d.parentIssue localName p (.child (node p k))

/-- States and pseudo-states. A `<scxml>` can be anywhere. -/
def elementIssues (states : List TreePath) : List Issue :=
  states.flatMap fun p =>
    match d.tag? p with
    | none | some .scxml => []
    | some localName => d.parentIssue localName.localName p.parent (.element p)

/-- The required attribute of a `<data>`, whose parent is the `<datamodel>`. -/
def dataIssues : List Issue :=
  d.states.flatMap fun p => ((d.elem? p).elim [] (·.data)).zipIdx.flatMap fun data =>
    match data.1.id with
    | none => [⟨"Element data is missing required attribute 'id'", .child (.data p data.2), .warning⟩]
    | some id =>
      if id = "" then [⟨"Required attribute 'id' of element data is empty", .child (.data p data.2), .warning⟩] else []

def parentIssues : List Issue :=
  d.elementIssues d.allStates ++ d.childIssues "script" (·.script.length) (fun _ => .script) ++
    d.childIssues "transition" (·.transitions.length) .transition ++ d.elementIssues (d.nodeSet .initial) ++
    d.childIssues "onentry" (·.onEntry.length) .onEntry ++ d.childIssues "onexit" (·.onExit.length) .onExit ++
    d.dataIssues ++
    d.childIssues "donedata" (fun e => if e.doneData.isSome then 1 else 0) (fun p _ => .doneData p) ++
    d.childIssues "invoke" (·.invoke.length) .invoke

/-! ### Attribute constraints -/

def attributeIssues : List Issue :=
  ((d.nodeSet .initial).flatMap fun initial =>
    (if (d.initialAttr initial.parent).isSome then
      [⟨"State with initial attribute cannot have <initial> child ", .element initial.parent, .warning⟩] else []) ++
    if d.isAtomic initial.parent then
      [⟨"Atomic state cannot have <initial> child ", .element initial.parent, .warning⟩] else []) ++
  d.allStates.flatMap fun p =>
    if d.isAtomic p && (d.initialAttr p).isSome then
      [⟨"Atomic state cannot have initial attribute ", .element p, .warning⟩] else []

/-- `InterpreterIssue::forInterpreter` of a document with the attribute `name`. There is no answer when the search for
reachable states follows a null pointer. -/
def forInterpreter (name : Option String) : Option (List Issue) :=
  d.getReachableStates.map fun reachable =>
    (d.checkStates name reachable).issues ++ d.targetIssues name ++ d.redundancyIssues ++ d.historyUseIssues ++
      d.initialAttrIssues ++ d.illegalTargetIssues ++ d.initialIssues ++ d.parentIssues ++ d.attributeIssues

/-! ### Severities -/

variable {d}

theorem historyIssues_severity {name : Option String} {p : TreePath} (stateId : String) {i : Issue}
    (hi : i ∈ d.historyIssues name p stateId) : i.severity = .fatal := by
  unfold historyIssues at hi
  grind

theorem checkStates_severity {name : Option String} {reachable : List TreePath} {i : Issue}
    (hi : i ∈ (d.checkStates name reachable).issues) : i.severity ≠ .info := by
  have hround : ∀ acc : Seen, ∀ p ∈ d.allStates, (∀ i ∈ acc.issues, i.severity ≠ .info) →
      ∀ i ∈ (d.checkState name reachable acc p).issues, i.severity ≠ .info := by
    intro acc p _ h i hi
    have hhistory : ∀ stateId, i ∈ d.historyIssues name p stateId → i.severity = .fatal :=
      fun stateId h => historyIssues_severity stateId h
    simp only [checkState] at hi
    grind
  exact List.foldl_invariant (fun acc : Seen => ∀ i ∈ acc.issues, i.severity ≠ .info) hround
    (List.forall_mem_nil _) i hi

theorem targetIssues_severity {name : Option String} {i : Issue} (hi : i ∈ d.targetIssues name) : i.severity = .fatal := by
  simp only [targetIssues, List.mem_flatMap] at hi
  grind

theorem initialAttrIssues_severity {i : Issue} (hi : i ∈ d.initialAttrIssues) : i.severity = .fatal := by
  simp only [initialAttrIssues, List.mem_flatMap] at hi
  grind

theorem illegalTargetIssues_severity {i : Issue} (hi : i ∈ d.illegalTargetIssues) : i.severity = .fatal := by
  simp only [illegalTargetIssues, List.mem_flatMap] at hi
  grind

theorem initialIssues_severity {i : Issue} (hi : i ∈ d.initialIssues) : i.severity = .fatal := by
  simp only [initialIssues, initTransIssues, List.mem_append, List.mem_flatMap] at hi
  grind

theorem parentIssues_severity {i : Issue} (hi : i ∈ d.parentIssues) : i.severity = .warning := by
  have hparent : ∀ {localName p node}, i ∈ d.parentIssue localName p node → i.severity = .warning := by
    intro localName p node hi
    simp only [parentIssue] at hi
    grind
  have hchild : ∀ {localName count node}, i ∈ d.childIssues localName count node → i.severity = .warning := by
    intro localName count node hi
    simp only [childIssues, List.mem_flatMap] at hi
    obtain ⟨p, -, k, -, hi⟩ := hi
    exact hparent hi
  have helement : ∀ {states}, i ∈ d.elementIssues states → i.severity = .warning := by
    intro states hi
    simp only [elementIssues, List.mem_flatMap] at hi
    obtain ⟨p, -, hi⟩ := hi
    split at hi
    · exact absurd hi List.not_mem_nil
    · exact absurd hi List.not_mem_nil
    · exact hparent hi
  have hdata : i ∈ d.dataIssues → i.severity = .warning := by
    intro hi
    simp only [dataIssues, List.mem_flatMap] at hi
    grind
  simp only [parentIssues, List.mem_append] at hi
  grind

theorem attributeIssues_severity {i : Issue} (hi : i ∈ d.attributeIssues) : i.severity = .warning := by
  simp only [attributeIssues, List.mem_append, List.mem_flatMap] at hi
  grind

/-- Only redundant transitions and useless histories are no more than an information. -/
theorem info_cases {name : Option String} {issues : List Issue} (h : d.forInterpreter name = some issues) {i : Issue}
    (hi : i ∈ issues) (hinfo : i.severity = .info) : i ∈ d.redundancyIssues ∨ i ∈ d.historyUseIssues := by
  obtain ⟨reachable, -, rfl⟩ := Option.map_eq_some_iff.mp h
  have hfatal : ¬ IssueSeverity.info = .fatal := by decide
  have hwarning : ¬ IssueSeverity.info = .warning := by decide
  simp only [List.mem_append] at hi
  rcases hi with (((((((hi | hi) | hi) | hi) | hi) | hi) | hi) | hi) | hi
  · exact absurd hinfo (checkStates_severity hi)
  · exact absurd (hinfo ▸ targetIssues_severity hi) hfatal
  · exact Or.inl hi
  · exact Or.inr hi
  · exact absurd (hinfo ▸ initialAttrIssues_severity hi) hfatal
  · exact absurd (hinfo ▸ illegalTargetIssues_severity hi) hfatal
  · exact absurd (hinfo ▸ initialIssues_severity hi) hfatal
  · exact absurd (hinfo ▸ parentIssues_severity hi) hwarning
  · exact absurd (hinfo ▸ attributeIssues_severity hi) hwarning

/-- A transition with the issue is one that an earlier one makes redundant. -/
theorem redundant_of_issue {name : Option String} {issues : List Issue} (h : d.forInterpreter name = some issues)
    {t : TransId} (ht : redundancyIssue t ∈ issues) : d.redundant t = true := by
  rcases info_cases h ht rfl with hi | hi
  · simp only [redundancyIssues, List.mem_flatMap, List.mem_map, List.mem_filter] at hi
    obtain ⟨p, -, u, ⟨-, hu⟩, heq⟩ := hi
    have hnode : IssueNode.transition u = IssueNode.transition t := congrArg Issue.node heq
    simp only [IssueNode.transition, IssueNode.child.injEq, Ref.transition.injEq] at hnode
    have hut : u = t := Prod.ext hnode.1 hnode.2
    exact hut ▸ hu
  · simp only [historyUseIssues, List.mem_flatMap] at hi
    obtain ⟨p, -, hi⟩ := hi
    simp only [redundancyIssue, IssueNode.transition] at hi
    grind

end Document

end Uscxml
