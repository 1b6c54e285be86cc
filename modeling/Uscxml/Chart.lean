import Uscxml.Lib.Forest

/-!
# Charts

The part of an SCXML document the interpreter works on. The DOM is kept as an ordered tree of the elements
that are states or pseudo-states, each with its attributes and with its other children (transitions, blocks
of executable content, invocations, data) in the order of the document. A DOM element pointer is the path
of the element, or the path of the state it belongs to and its position there, so that two different
elements are never confused. Executable content is a type parameter: the microstepper hands a block to its
callbacks and never looks inside.
-/

namespace Uscxml

/-- The local names of the elements that are states or pseudo-states. -/
inductive Tag where
  | scxml | state | parallel | final | initial | history
  deriving DecidableEq, Repr

/-- A `<transition>`. The `target` attribute is kept as the list of its tokens, an absent attribute as
`none`; `content` is there when the element has child elements. -/
structure TransitionElem (β : Type) where
  target : Option (List String) := none
  event : Option String := none
  cond : Option String := none
  internal : Bool := false
  content : Option β := none
  deriving DecidableEq, Repr

/-- A `<param>`, with the text that stands for its value when it has neither `expr` nor `location`. -/
structure ParamElem where
  name : String
  expr : Option String := none
  location : Option String := none
  text : String := ""
  deriving DecidableEq, Repr

structure InvokeElem (β : Type) where
  id : Option String := none
  idlocation : Option String := none
  type : Option String := none
  typeexpr : Option String := none
  src : Option String := none
  srcexpr : Option String := none
  namelist : List String := []
  params : List ParamElem := []
  content : Option String := none
  autoforward : Bool := false
  finalize : Option β := none
  deriving DecidableEq, Repr

structure DataElem where
  id : Option String := none
  deriving DecidableEq, Repr

/-- A state or pseudo-state. `deep` is the value of a history's `type`, `finalAttr` says that the element
carries `final="true"`, and `script` lists the `<script>` children. -/
structure Elem (β : Type) where
  tag : Tag
  id : Option String := none
  deep : Bool := false
  initial : Option (List String) := none
  finalAttr : Bool := false
  transitions : List (TransitionElem β) := []
  onEntry : List β := []
  onExit : List β := []
  script : List β := []
  invoke : List (InvokeElem β) := []
  data : List DataElem := []
  doneData : Option β := none
  deriving DecidableEq, Repr

inductive Binding where
  | early | late
  deriving DecidableEq, Repr

/-- A document: its elements, the `binding` and `datamodel` attributes of the root, and the namespace prefix
(with its colon) of the tag names, empty when there is none. -/
structure Document (β : Type) where
  tree : RoseTree (Elem β)
  binding : Binding := .early
  datamodel : String := "null"
  xmlPrefix : String := ""
  deriving DecidableEq, Repr

/-- A pointer to an element below a state: the state and the position among its children of that kind. -/
inductive Ref where
  | onEntry (state : TreePath) (index : Nat)
  | onExit (state : TreePath) (index : Nat)
  | script (index : Nat)
  | transition (state : TreePath) (index : Nat)
  | invoke (state : TreePath) (index : Nat)
  | data (state : TreePath) (index : Nat)
  | doneData (state : TreePath)
  deriving DecidableEq, Repr

/-- A pointer to a transition: the element it stands in and its position there. -/
abbrev TransId := TreePath × Nat

variable {β : Type}

namespace Document

def elem? (d : Document β) (p : TreePath) : Option (Elem β) := d.tree.get? p

/-- The states and pseudo-states in document order: `_states`. -/
def states (d : Document β) : List TreePath := d.tree.preorder

def children (d : Document β) (p : TreePath) : List TreePath := d.states.filter fun q => q ≠ [] ∧ q.parent = p

def transitionsAt (d : Document β) (p : TreePath) : List (TransitionElem β) :=
  (d.elem? p).elim [] (·.transitions)

def trans? (d : Document β) (t : TransId) : Option (TransitionElem β) := (d.transitionsAt t.1)[t.2]?

/-- Pointers to the transitions of `p`, in document order. -/
def transIds (d : Document β) (p : TreePath) : List TransId :=
  (List.range (d.transitionsAt p).length).map fun k => (p, k)

def tag? (d : Document β) (p : TreePath) : Option Tag := (d.elem? p).map (·.tag)

def id? (d : Document β) (p : TreePath) : Option String := (d.elem? p).bind (·.id)

theorem mem_states {d : Document β} {p : TreePath} : p ∈ d.states ↔ (d.elem? p).isSome := RoseTree.mem_preorder

theorem root_mem_states (d : Document β) : [] ∈ d.states := d.tree.nil_mem_preorder

theorem mem_states_of_above {d : Document β} {p q : TreePath} (h : p <+: q) (hq : q ∈ d.states) :
    p ∈ d.states := RoseTree.mem_preorder_of_prefix h hq

theorem mem_states_of_tag {d : Document β} {p : TreePath} {t : Tag} (h : d.tag? p = some t) : p ∈ d.states := by
  rw [mem_states]
  rw [tag?, Option.map_eq_some_iff] at h
  obtain ⟨e, he, -⟩ := h
  simp [he]

@[simp] theorem mem_children {d : Document β} {p q : TreePath} :
    q ∈ d.children p ↔ q ∈ d.states ∧ q ≠ [] ∧ q.parent = p := by
  simp [children]

end Document

/-! ### Pseudo-states first

Both the interpreter and the generator of C move the pseudo-states of every element in front of its other
children before they number the states. -/

namespace Forest

variable {α : Type}

def toList : Forest α → List (α × Forest α)
  | .nil => []
  | .cons a kids next => (a, kids) :: toList next

def ofList : List (α × Forest α) → Forest α
  | [] => .nil
  | (a, kids) :: l => .cons a kids (ofList l)

end Forest

/-- One pass over the children that inserts those with `p` in front of the first child. -/
def moveToFront {γ : Type} (p : γ → Bool) (l : List γ) : List γ :=
  l.foldl (fun acc c => if p c then c :: acc else acc ++ [c]) []

/-- The passes of `FastMicroStep::resortStates` over the children of one element. The passes for shallow and
for deep histories read the `type` attribute of the element itself and not of the child; whichever of the
two applies to an element, it moves all its histories. -/
def sortSiblings (f : Forest (Elem β)) : Forest (Elem β) :=
  Forest.ofList (moveToFront (fun c => c.1.tag = .initial) (moveToFront (fun c => c.1.tag = .history)
    (Forest.toList f)))

/-- `FastMicroStep::resortStates` below every element of a forest. -/
def resortForest : Forest (Elem β) → Forest (Elem β)
  | .nil => .nil
  | .cons a kids next => .cons a (sortSiblings (resortForest kids)) (resortForest next)

/-- `FastMicroStep::resortStates`: the document as `FastMicroStep::init` leaves it. -/
def resortStates (d : Document β) : Document β :=
  { d with tree := { d.tree with kids := sortSiblings (resortForest d.tree.kids) } }

theorem moveToFront_eq {γ : Type} (p : γ → Bool) (l : List γ) :
    moveToFront p l = (l.filter p).reverse ++ l.filter (fun c => !p c) := by
  suffices h : ∀ acc : List γ, l.foldl (fun acc c => if p c then c :: acc else acc ++ [c]) acc =
      (l.filter p).reverse ++ (acc ++ l.filter (fun c => !p c)) by
    simpa [moveToFront] using h []
  induction l with
  | nil => simp
  | cons c l ih =>
    intro acc
    rw [List.foldl_cons, ih]
    by_cases hc : p c <;> simp [hc]

theorem mem_moveToFront {γ : Type} {p : γ → Bool} {l : List γ} {c : γ} : c ∈ moveToFront p l ↔ c ∈ l := by
  rw [moveToFront_eq, List.mem_append, List.mem_reverse, List.mem_filter, List.mem_filter]
  cases p c <;> simp

namespace Forest

variable {α : Type}

theorem toList_ofList (l : List (α × Forest α)) : toList (ofList l) = l := by
  induction l with
  | nil => rfl
  | cons c l ih => simp [ofList, toList, ih]

theorem get?_singleton (f : Forest α) (k : Nat) : f.get? [k] = ((toList f)[k]?).map (·.1) := by
  induction f generalizing k with
  | nil => simp [toList]
  | cons a kids next _ ihn =>
    cases k with
    | zero => simp [toList]
    | succ k => simp [toList, ihn]

theorem get?_cons (f : Forest α) (j : Nat) (q : TreePath) :
    f.get? (j :: q) = (toList f)[j]?.bind fun c => if q = [] then some c.1 else c.2.get? q := by
  induction f generalizing j with
  | nil => simp [toList]
  | cons a kids next _ ihn =>
    cases j with
    | zero =>
      cases q with
      | nil => simp [toList]
      | cons k q => simp [toList, Forest.cons_get?_kids]
    | succ j => simp [toList, ihn]

end Forest

def forestTag? (f : Forest (Elem β)) (p : TreePath) : Option Tag := (f.get? p).map (·.tag)

/-- Below every element, an `<initial>` child can only stand behind another one. -/
def InitialFirst : Forest (Elem β) → Prop
  | .nil => True
  | .cons _ kids next =>
    (∀ k, forestTag? kids [k] = some .initial → forestTag? kids [0] = some .initial) ∧
      InitialFirst kids ∧ InitialFirst next

theorem sortSiblings_initial (f : Forest (Elem β)) {k : Nat}
    (h : forestTag? (sortSiblings f) [k] = some .initial) :
    forestTag? (sortSiblings f) [0] = some .initial := by
  rw [forestTag?, Forest.get?_singleton, sortSiblings, Forest.toList_ofList, moveToFront_eq,
    Option.map_map] at h ⊢
  generalize moveToFront (fun c : Elem β × Forest (Elem β) => decide (c.1.tag = .history))
    (Forest.toList f) = l at h ⊢
  obtain ⟨c, hc, htag⟩ := Option.map_eq_some_iff.mp h
  -- The list has an `<initial>`, so the part of it in front is not empty and holds nothing else.
  have hmem : c ∈ (l.filter fun c => decide (c.1.tag = .initial)).reverse := by
    rcases List.mem_append.mp (List.mem_of_getElem? hc) with hc | hc
    · exact hc
    · have hne : c.1.tag ≠ .initial := by simpa using (List.mem_filter.mp hc).2
      exact absurd htag hne
  cases hl : (l.filter fun c => decide (c.1.tag = .initial)).reverse with
  | nil => simp [hl] at hmem
  | cons b bs =>
    have hb : b ∈ l.filter fun c => decide (c.1.tag = .initial) := by
      rw [← List.mem_reverse, hl]
      exact List.mem_cons_self
    have htag : b.1.tag = .initial := by simpa using (List.mem_filter.mp hb).2
    simp [htag]

theorem initialFirst_iff (f : Forest (Elem β)) :
    InitialFirst f ↔ ∀ c ∈ Forest.toList f,
      (∀ k, forestTag? c.2 [k] = some .initial → forestTag? c.2 [0] = some .initial) ∧ InitialFirst c.2 := by
  induction f with
  | nil => simp [InitialFirst, Forest.toList]
  | cons a kids next _ ihn =>
    rw [InitialFirst, ihn]
    simp [Forest.toList, and_assoc]

theorem InitialFirst.sortSiblings {f : Forest (Elem β)} (h : InitialFirst f) :
    InitialFirst (sortSiblings f) := by
  rw [initialFirst_iff] at h ⊢
  intro c hc
  rw [Uscxml.sortSiblings, Forest.toList_ofList, mem_moveToFront, mem_moveToFront] at hc
  exact h c hc

theorem initialFirst_resortForest (f : Forest (Elem β)) : InitialFirst (resortForest f) := by
  induction f with
  | nil => trivial
  | cons a kids next ihk ihn => exact ⟨fun _ => sortSiblings_initial _, ihk.sortSiblings, ihn⟩

theorem InitialFirst.get {f : Forest (Elem β)} (h : InitialFirst f) {p : TreePath} (hp : p ≠ []) {k : Nat}
    (hk : forestTag? f (p ++ [k]) = some .initial) : forestTag? f (p ++ [0]) = some .initial := by
  induction f generalizing p with
  | nil => simp [forestTag?] at hk
  | cons a kids next ihk ihn =>
    obtain ⟨hkids, hk', hnext⟩ := h
    simp only [forestTag?] at *
    match p, hp with
    | [0], _ => exact hkids k hk
    | 0 :: j :: p, _ => exact ihk hk' (List.cons_ne_nil j p) hk
    | (j + 1) :: p, _ =>
      simp only [List.cons_append, Forest.cons_get?_next] at hk ⊢
      exact ihn hnext (List.cons_ne_nil j p) hk

/-- After `resortStates` an element that has an `<initial>` child has one as its first child. -/
theorem resortStates_initial_first (d : Document β) {p : TreePath} {k : Nat}
    (h : (resortStates d).tag? (p ++ [k]) = some .initial) :
    (resortStates d).tag? (p ++ [0]) = some .initial := by
  cases p with
  | nil => exact sortSiblings_initial _ h
  | cons j p => exact (initialFirst_resortForest d.tree.kids).sortSiblings.get (List.cons_ne_nil j p) h

end Uscxml
