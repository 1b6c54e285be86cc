import Uscxml.Util.Traversal
import Uscxml.ChartToC.Resort

/-!
# `FastMicroStep::resortStates`

The passes over the children of an element move nodes to the front of the list they go through. A pointer to a child is its
position in the list: a child that is moved to the front leaves those behind it where they are.
-/

namespace Uscxml

namespace Dom

inductive Node where
  | element (e : Element) (childs : Nodes)
  | other (text : List Char)
  deriving DecidableEq

namespace Nodes

def toList : Nodes → List Node
  | nil => []
  | element e childs next => .element e childs :: next.toList
  | other text next => .other text :: next.toList

def ofList : List Node → Nodes
  | [] => nil
  | .element e childs :: l => element e childs (ofList l)
  | .other text :: l => other text (ofList l)

@[simp] theorem toList_ofList (l : List Node) : (ofList l).toList = l := by
  induction l with
  | nil => rfl
  | cons c l ih =>
    cases c with
    | element e childs => rw [ofList, toList, ih]
    | other text => rw [ofList, toList, ih]

end Nodes

def Node.isElement : Node → Bool
  | .element _ _ => true
  | .other _ => false

/-- An element that is tested, whatever is below it. -/
def Node.test (p : Element → Bool) : Node → Bool
  | .element e _ => p e
  | .other _ => false

/-! ### The passes -/

/-- The first element among the children from a position on: `getFirstElementChild` and `getNextElementSibling`. -/
def nextElement (nodes : List Node) (i : Nat) : Option Nat := ((nodes.drop i).findIdx? Node.isElement).map (i + ·)

/-- One pass over the children of an element from the child `child` on. The number bounds the rounds. -/
def passLoop (p : Element → Bool) : Nat → List Node → Option Nat → Option (List Node)
  | _, nodes, none => some nodes
  | 0, _, some _ => none
  | n + 1, nodes, some child =>
    match nodes[child]? with
    | some (.element e childs) =>
      if p e then
        let tmp := nextElement nodes (child + 1)
        -- `insertBefore` takes the node out of the list first.
        let nodes := if child ≠ 0 then .element e childs :: nodes.eraseIdx child else nodes
        passLoop p n nodes tmp
      else passLoop p n nodes (nextElement nodes (child + 1))
    | _ => none

def pass (p : Element → Bool) (nodes : List Node) : Option (List Node) :=
  passLoop p nodes.length nodes (nextElement nodes 0)

def typeName : List Char := ['t', 'y', 'p', 'e']

/-- The test of the first pass. The attribute it looks at is that of the element whose children these are. -/
def shallowHistory (xmlPrefix : List Char) (element child : Element) : Bool :=
  child.tagName = xmlPrefix ++ historyName ∧
    (element.hasAttr typeName = false ∨
      Convenience.iequals (element.attr typeName) ['s', 'h', 'a', 'l', 'l', 'o', 'w'])

/-- The test of the second pass. -/
def deepHistory (xmlPrefix : List Char) (element child : Element) : Bool :=
  child.tagName = xmlPrefix ++ historyName ∧ element.hasAttr typeName ∧
    Convenience.iequals (element.attr typeName) ['d', 'e', 'e', 'p']

/-- The test of the last pass. -/
def initial (child : Element) : Bool := child.localName.chars = initialName

/-- The passes over the children of an element. -/
def resortChilds (xmlPrefix : List Char) (element : Element) (nodes : List Node) : Option (List Node) := do
  let nodes ← pass (shallowHistory xmlPrefix element) nodes
  let nodes ← pass (deepHistory xmlPrefix element) nodes
  pass initial nodes

/-- The loop that calls `resortStates` for the children. -/
def resortBelow (xmlPrefix : List Char) : Nodes → Option Nodes
  | .nil => some .nil
  | .other text next => do
    let next ← resortBelow xmlPrefix next
    some (.other text next)
  | .element e childs next => do
    let below ← resortBelow xmlPrefix childs
    let childs ← resortChilds xmlPrefix e below.toList
    let next ← resortBelow xmlPrefix next
    some (.element e (.ofList childs) next)

def resortStates (xmlPrefix : List Char) (t : Tree) : Option Tree := do
  let below ← resortBelow xmlPrefix t.childs
  let childs ← resortChilds xmlPrefix t.root below.toList
  some ⟨t.root, .ofList childs⟩

/-! ### What it is for -/

def history (xmlPrefix : List Char) (child : Element) : Bool := child.tagName = xmlPrefix ++ historyName

/-- A child that is `<initial>` or `<history>`. -/
def pseudo (xmlPrefix : List Char) (child : Element) : Bool := initial child || history xmlPrefix child

/-- The `<initial>` children of the list come first, then all `<history>` children, then the other nodes as they were before. -/
def PseudoFirst (xmlPrefix : List Char) (before after : List Node) : Prop :=
  ∃ initials histories, after = initials ++ (histories ++ before.filter fun c => !c.test (pseudo xmlPrefix)) ∧
    (∀ c ∈ initials, c.test initial = true) ∧ ∀ c ∈ histories, c.test (history xmlPrefix) = true

/-- The nodes of the list are those of the first, and below each of them the children have been put in order. -/
def SortedBelow (xmlPrefix : List Char) : Nodes → List Node → Prop
  | .nil, l => l = []
  | .other text next, l => ∃ rest, l = .other text :: rest ∧ SortedBelow xmlPrefix next rest
  | .element e childs next, l =>
    ∃ childs' rest, l = .element e childs' :: rest ∧
      (∃ below, SortedBelow xmlPrefix childs below ∧ childs'.toList.Perm below ∧ PseudoFirst xmlPrefix below childs'.toList) ∧
      SortedBelow xmlPrefix next rest

/-- At every element of the tree the children have been permuted, pseudo-states first. -/
def Sorted (xmlPrefix : List Char) (t t' : Tree) : Prop :=
  t'.root = t.root ∧ ∃ below, SortedBelow xmlPrefix t.childs below ∧ t'.childs.toList.Perm below ∧
    PseudoFirst xmlPrefix below t'.childs.toList

/-- An element with a `<history>` child is a state, and a state has no `type`. -/
def NoTypeOnStates (xmlPrefix : List Char) (t : Tree) : Prop :=
  ∀ p e k h, t.element? p = some e → t.element? (p ++ [k]) = some h → history xmlPrefix h = true → e.hasAttr typeName = false

/-! ### One pass -/

theorem nextElement_append (a nodes : List Node) :
    nextElement (a ++ nodes) a.length = (nodes.findIdx? Node.isElement).map (a.length + ·) := by
  rw [nextElement, List.drop_left]

theorem nextElement_congr {a b : List Node} (h : a.length = b.length) (nodes : List Node) :
    nextElement (a ++ nodes) a.length = nextElement (b ++ nodes) b.length := by
  rw [nextElement_append, nextElement_append, h]

theorem nextElement_other (done nodes : List Node) (text : List Char) :
    nextElement (done ++ .other text :: nodes) done.length =
      nextElement (done ++ [Node.other text] ++ nodes) (done ++ [Node.other text]).length := by
  rw [nextElement_append, nextElement_append, List.findIdx?_cons,
    if_neg (show ¬ (Node.other text).isElement = true from Bool.false_ne_true), Option.map_map, List.length_append]
  congr 1
  funext i
  exact (Nat.add_right_comm _ 1 _).trans (Nat.add_assoc _ _ 1) |>.symm

theorem passLoop_eq (p : Element → Bool) (n : Nat) (done nodes : List Node) (hn : nodes.length ≤ n) :
    passLoop p n (done ++ nodes) (nextElement (done ++ nodes) done.length) =
      some (nodes.foldl (fun acc c => if c.test p then c :: acc else acc ++ [c]) done) := by
  induction nodes generalizing n done with
  | nil =>
    rw [nextElement_append]
    cases n <;> simp [passLoop]
  | cons c nodes ih =>
    rw [List.length_cons] at hn
    rw [List.foldl_cons]
    cases c with
    | other text =>
      rw [nextElement_other, List.append_cons, ih n _ (by omega)]
      rfl
    | element e childs =>
      obtain ⟨m, rfl⟩ : ∃ m, n = m + 1 := ⟨n - 1, by omega⟩
      have hnow : nextElement (done ++ .element e childs :: nodes) done.length = some done.length := by
        rw [nextElement_append, List.findIdx?_cons, if_pos (by rfl)]
        rfl
      have hget : (done ++ .element e childs :: nodes)[done.length]? = some (.element e childs) := by
        rw [List.getElem?_append_right le_rfl, Nat.sub_self]
        rfl
      have hlater : nextElement (done ++ .element e childs :: nodes) (done.length + 1) =
          nextElement (done ++ [Node.element e childs] ++ nodes) (done ++ [Node.element e childs]).length := by
        rw [List.append_assoc, List.length_append]
        rfl
      have htest : (Node.element e childs).test p = p e := rfl
      rw [hnow, passLoop, hget, htest]
      simp only
      split
      · -- The child comes to stand in front of those that have been looked at.
        have hmoved : (if done.length ≠ 0 then
            .element e childs :: (done ++ .element e childs :: nodes).eraseIdx done.length else done ++ .element e childs :: nodes) =
              (.element e childs :: done) ++ nodes := by
          cases done with
          | nil => rfl
          | cons d done =>
            rw [if_pos (by simp), List.eraseIdx_append_of_length_le le_rfl, Nat.sub_self, List.eraseIdx_cons_zero]
            rfl
        have hlength : (done ++ [Node.element e childs]).length = (Node.element e childs :: done).length := by
          rw [List.length_append, List.length_singleton, List.length_cons]
        rw [hmoved, hlater, nextElement_congr hlength, ih m _ (by omega)]
      · rw [hlater, List.append_cons, ih m _ (by omega)]

/-- A pass moves the children that are tested to the front, the last of them first. -/
theorem pass_eq (p : Element → Bool) (nodes : List Node) : pass p nodes = some (moveToFront (Node.test p) nodes) :=
  passLoop_eq p nodes.length [] nodes le_rfl

theorem resortChilds_eq (xmlPrefix : List Char) (element : Element) (nodes : List Node) :
    resortChilds xmlPrefix element nodes = some (moveToFront (Node.test initial) (moveToFront
      (Node.test (deepHistory xmlPrefix element)) (moveToFront (Node.test (shallowHistory xmlPrefix element)) nodes))) := by
  rw [resortChilds, pass_eq, Option.bind_eq_bind, Option.bind_some, pass_eq, Option.bind_some, pass_eq]

/-! ### All passes -/

/-- The pseudo-states of a list in front, the `<initial>` children before the histories. -/
def arrange (xmlPrefix : List Char) (nodes : List Node) : List Node :=
  moveToFront (Node.test initial) (moveToFront (Node.test (history xmlPrefix)) nodes)

/-- The nodes with the children of each of them and of all elements below in order. -/
def arranged (xmlPrefix : List Char) : Nodes → Nodes
  | .nil => .nil
  | .other text next => .other text (arranged xmlPrefix next)
  | .element e childs next =>
    .element e (.ofList (arrange xmlPrefix (arranged xmlPrefix childs).toList)) (arranged xmlPrefix next)

theorem moveToFront_of_none {p : Node → Bool} {nodes : List Node} (h : ∀ c ∈ nodes, p c = false) : moveToFront p nodes = nodes := by
  have hnone : nodes.filter p = [] := by
    rw [List.filter_eq_nil_iff]
    exact fun c hc => by rw [h c hc]; exact Bool.false_ne_true
  have hall : nodes.filter (fun c => !p c) = nodes := by
    rw [List.filter_eq_self]
    exact fun c hc => by rw [h c hc]; rfl
  rw [moveToFront_eq, hnone, hall, List.reverse_nil, List.nil_append]

/-- An element without a type has only shallow histories, and one with a type has none. -/
theorem resortChilds_arrange {xmlPrefix : List Char} {element : Element} {nodes : List Node}
    (h : ∀ c ∈ nodes, c.test (history xmlPrefix) = true → element.hasAttr typeName = false) :
    resortChilds xmlPrefix element nodes = some (arrange xmlPrefix nodes) := by
  rw [resortChilds_eq, arrange]
  cases htype : element.hasAttr typeName with
  | false =>
    have hshallow : shallowHistory xmlPrefix element = history xmlPrefix := by
      funext child
      rw [shallowHistory, history, htype]
      simp
    have hdeep : ∀ c ∈ moveToFront (Node.test (history xmlPrefix)) nodes, Node.test (deepHistory xmlPrefix element) c = false := by
      intro c _
      cases c with
      | element e childs => simp [Node.test, deepHistory, htype]
      | other text => rfl
    rw [hshallow, moveToFront_of_none hdeep]
  | true =>
    have hhistory : ∀ c ∈ nodes, Node.test (history xmlPrefix) c = false := by
      intro c hc
      cases htest : Node.test (history xmlPrefix) c with
      | false => rfl
      | true =>
        have hno := h c hc htest
        rw [htype] at hno
        cases hno
    have hnone : ∀ {p : Element → Bool}, (∀ e, p e = true → history xmlPrefix e = true) → ∀ c ∈ nodes, Node.test p c = false := by
      intro p hp c hc
      have hc' := hhistory c hc
      cases c with
      | element e childs =>
        rw [Node.test, Bool.eq_false_iff]
        intro he
        rw [Node.test, hp e he] at hc'
        cases hc'
      | other text => rfl
    have hshallow := hnone (p := shallowHistory xmlPrefix element) fun e he => by
      rw [shallowHistory, decide_eq_true_eq] at he
      exact decide_eq_true he.1
    have hdeep := hnone (p := deepHistory xmlPrefix element) fun e he => by
      rw [deepHistory, decide_eq_true_eq] at he
      exact decide_eq_true he.1
    rw [moveToFront_of_none hshallow, moveToFront_of_none hdeep, moveToFront_of_none hhistory]

def Node.label : Node → Element ⊕ List Char
  | .element e _ => .inl e
  | .other text => .inr text

theorem map_label_arranged (xmlPrefix : List Char) (nodes : Nodes) :
    (arranged xmlPrefix nodes).toList.map Node.label = nodes.toList.map Node.label := by
  induction nodes with
  | nil => rfl
  | other text next ih => rw [arranged, Nodes.toList, List.map_cons, ih, Nodes.toList, List.map_cons]
  | element e childs next _ ihn =>
    rw [arranged, Nodes.toList, List.map_cons, ihn, Nodes.toList, List.map_cons]
    rfl

theorem test_of_label {p : Element → Bool} {c c' : Node} (h : c.label = c'.label) : c.test p = c'.test p := by
  cases c with
  | element e childs =>
    cases c' with
    | element e' childs' =>
      cases h
      rfl
    | other text => cases h
  | other text =>
    cases c' with
    | element e' childs' => cases h
    | other text' => rfl

theorem element?_toList (root : Element) (nodes : Nodes) (k : Nat) (p : TreePath) :
    (⟨root, nodes⟩ : Tree).element? (k :: p) = nodes.toList[k]?.bind fun c =>
      match c with
      | .element e childs => (⟨e, childs⟩ : Tree).element? p
      | .other _ => none := by
  induction nodes generalizing k with
  | nil => rw [Tree.element?_cons, Nodes.element?_nil]; rfl
  | other text next ih =>
    cases k with
    | zero => exact Nodes.other_element?_zero text next p
    | succ k => exact (Nodes.other_element?_next text next k p).trans (ih k)
  | element e childs next _ ihn =>
    cases k with
    | zero => exact element?_zero_cons root e childs next p
    | succ k => exact (Nodes.element?_next e childs next k p).trans (ihn k)

theorem NoTypeOnStates.root {xmlPrefix : List Char} {t : Tree} (h : NoTypeOnStates xmlPrefix t) {c : Node}
    (hc : c ∈ t.childs.toList) (hhistory : c.test (history xmlPrefix) = true) : t.root.hasAttr typeName = false := by
  obtain ⟨k, hk⟩ := List.mem_iff_getElem?.mp hc
  cases c with
  | element e childs =>
    refine h [] t.root k e rfl ?_ hhistory
    rw [List.nil_append, element?_toList, hk]
    rfl
  | other text => cases hhistory

theorem NoTypeOnStates.child {xmlPrefix : List Char} {t : Tree} (h : NoTypeOnStates xmlPrefix t) {e : Element} {childs : Nodes}
    (hc : .element e childs ∈ t.childs.toList) : NoTypeOnStates xmlPrefix ⟨e, childs⟩ := by
  obtain ⟨k, hk⟩ := List.mem_iff_getElem?.mp hc
  have hbelow : ∀ p, t.element? (k :: p) = (⟨e, childs⟩ : Tree).element? p := by
    intro p
    rw [element?_toList, hk]
    rfl
  intro p e' j h' he' hh' hhistory
  rw [← hbelow] at he' hh'
  exact h (k :: p) e' j h' he' hh' hhistory

theorem resortChilds_arranged {xmlPrefix : List Char} {t : Tree} (h : NoTypeOnStates xmlPrefix t) :
    resortChilds xmlPrefix t.root (arranged xmlPrefix t.childs).toList =
      some (arrange xmlPrefix (arranged xmlPrefix t.childs).toList) := by
  apply resortChilds_arrange
  intro c hc hhistory
  have hlabel : c.label ∈ t.childs.toList.map Node.label := by
    rw [← map_label_arranged xmlPrefix]
    exact List.mem_map_of_mem hc
  obtain ⟨c', hc', hsame⟩ := List.mem_map.mp hlabel
  rw [← test_of_label hsame] at hhistory
  exact h.root hc' hhistory

theorem resortBelow_eq {xmlPrefix : List Char} {nodes : Nodes}
    (h : ∀ e childs, .element e childs ∈ nodes.toList → NoTypeOnStates xmlPrefix ⟨e, childs⟩) :
    resortBelow xmlPrefix nodes = some (arranged xmlPrefix nodes) := by
  induction nodes with
  | nil => rfl
  | other text next ih =>
    rw [resortBelow, ih fun e childs hc => h e childs (List.mem_cons_of_mem _ hc)]
    rfl
  | element e childs next ihc ihn =>
    have he : NoTypeOnStates xmlPrefix ⟨e, childs⟩ := h e childs List.mem_cons_self
    have hchilds := resortChilds_arranged he
    rw [resortBelow, ihc fun e' childs' hc => he.child hc, Option.bind_eq_bind, Option.bind_some, hchilds, Option.bind_eq_bind,
      Option.bind_some, ihn fun e' childs' hc => h e' childs' (List.mem_cons_of_mem _ hc)]
    rfl

theorem resortStates_eq {xmlPrefix : List Char} {t : Tree} (h : NoTypeOnStates xmlPrefix t) :
    resortStates xmlPrefix t = some ⟨t.root, .ofList (arrange xmlPrefix (arranged xmlPrefix t.childs).toList)⟩ := by
  rw [resortStates, resortBelow_eq fun e childs hc => h.child hc, Option.bind_eq_bind, Option.bind_some,
    resortChilds_arranged h]
  rfl

/-! ### The order of the children -/

/-- A name ends in one way. -/
theorem initial_of_history {xmlPrefix : List Char} {e : Element} (h : history xmlPrefix e = true) : initial e = false := by
  rw [initial, decide_eq_false_iff_not]
  intro hinitial
  rw [history, decide_eq_true_eq, Element.tagName, hinitial] at h
  exact absurd (List.append_inj_right' h rfl) (by decide)

theorem test_initial_of_history {xmlPrefix : List Char} (c : Node) (h : c.test (history xmlPrefix) = true) :
    c.test initial = false := by
  cases c with
  | element e childs => exact initial_of_history h
  | other text => rfl

theorem test_pseudo (xmlPrefix : List Char) (c : Node) :
    c.test (pseudo xmlPrefix) = (c.test initial || c.test (history xmlPrefix)) := by
  cases c with
  | element e childs => rfl
  | other text => rfl

theorem arrange_eq (xmlPrefix : List Char) (nodes : List Node) : arrange xmlPrefix nodes =
    (nodes.filter (Node.test initial)).reverse ++ ((nodes.filter (Node.test (history xmlPrefix))).reverse ++
      nodes.filter fun c => !c.test (pseudo xmlPrefix)) := by
  rw [arrange, ChartToC.moveToFront_moveToFront test_initial_of_history]
  congr 2
  apply List.filter_congr
  intro c _
  rw [test_pseudo, Bool.not_or]

theorem pseudoFirst_arrange (xmlPrefix : List Char) (nodes : List Node) : PseudoFirst xmlPrefix nodes (arrange xmlPrefix nodes) := by
  refine ⟨_, _, arrange_eq xmlPrefix nodes, ?_, ?_⟩
  · intro c hc
    exact (List.mem_filter.mp (List.mem_reverse.mp hc)).2
  · intro c hc
    exact (List.mem_filter.mp (List.mem_reverse.mp hc)).2

theorem moveToFront_perm (p : Node → Bool) (nodes : List Node) : (moveToFront p nodes).Perm nodes := by
  rw [moveToFront_eq]
  exact ((List.reverse_perm _).append_right _).trans (List.filter_append_perm p nodes)

theorem arrange_perm (xmlPrefix : List Char) (nodes : List Node) : (arrange xmlPrefix nodes).Perm nodes :=
  (moveToFront_perm _ _).trans (moveToFront_perm _ _)

theorem sortedBelow_arranged (xmlPrefix : List Char) (nodes : Nodes) :
    SortedBelow xmlPrefix nodes (arranged xmlPrefix nodes).toList := by
  induction nodes with
  | nil => rfl
  | other text next ih => exact ⟨_, rfl, ih⟩
  | element e childs next ihc ihn =>
    refine ⟨_, _, rfl, ⟨_, ihc, ?_, ?_⟩, ihn⟩
    · rw [Nodes.toList_ofList]
      exact arrange_perm xmlPrefix _
    · rw [Nodes.toList_ofList]
      exact pseudoFirst_arrange xmlPrefix _

/-! ### Document order -/

def PseudoSorted (xmlPrefix : List Char) (nodes : List Node) : Prop :=
  nodes.Pairwise fun c c' => c'.test (pseudo xmlPrefix) = true → c.test (pseudo xmlPrefix) = true

theorem pseudoSorted_arrange (xmlPrefix : List Char) (nodes : List Node) : PseudoSorted xmlPrefix (arrange xmlPrefix nodes) := by
  obtain ⟨initials, histories, heq, hinitials, hhistories⟩ := pseudoFirst_arrange xmlPrefix nodes
  rw [heq, PseudoSorted, ← List.append_assoc]
  have hfirst : ∀ c ∈ initials ++ histories, c.test (pseudo xmlPrefix) = true := by
    intro c hc
    rw [test_pseudo]
    rcases List.mem_append.mp hc with hc | hc
    · rw [hinitials c hc, Bool.true_or]
    · rw [hhistories c hc, Bool.or_true]
  have hothers : ∀ c ∈ nodes.filter (fun c => !c.test (pseudo xmlPrefix)), c.test (pseudo xmlPrefix) ≠ true := by
    intro c hc
    simpa using (List.mem_filter.mp hc).2
  rw [List.pairwise_append]
  refine ⟨?_, ?_, fun c hc c' _ _ => hfirst c hc⟩
  · exact List.pairwise_of_forall_mem_list fun c hc c' _ _ => hfirst c hc
  · exact List.pairwise_of_forall_mem_list fun c _ c' hc' h => absurd h (hothers c' hc')

def AllSorted (xmlPrefix : List Char) : Nodes → Prop
  | .nil => True
  | .other _ next => AllSorted xmlPrefix next
  | .element _ childs next => PseudoSorted xmlPrefix childs.toList ∧ AllSorted xmlPrefix childs ∧ AllSorted xmlPrefix next

theorem allSorted_iff {xmlPrefix : List Char} {nodes : Nodes} : AllSorted xmlPrefix nodes ↔
    ∀ e childs, .element e childs ∈ nodes.toList → PseudoSorted xmlPrefix childs.toList ∧ AllSorted xmlPrefix childs := by
  induction nodes with
  | nil => simp [AllSorted, Nodes.toList]
  | other text next ih => simp [AllSorted, Nodes.toList, ih]
  | element e childs next _ ihn =>
    rw [AllSorted, ihn, Nodes.toList]
    constructor
    · rintro ⟨hsorted, hbelow, hnext⟩ e' childs' hmem
      rcases List.mem_cons.mp hmem with heq | hmem
      · cases heq
        exact ⟨hsorted, hbelow⟩
      · exact hnext e' childs' hmem
    · intro h
      obtain ⟨hsorted, hbelow⟩ := h e childs List.mem_cons_self
      exact ⟨hsorted, hbelow, fun e' childs' hmem => h e' childs' (List.mem_cons_of_mem _ hmem)⟩

theorem allSorted_arranged (xmlPrefix : List Char) (nodes : Nodes) : AllSorted xmlPrefix (arranged xmlPrefix nodes) := by
  induction nodes with
  | nil => trivial
  | other text next ih => exact ih
  | element e childs next ihc ihn =>
    rw [arranged, AllSorted, Nodes.toList_ofList]
    refine ⟨pseudoSorted_arrange xmlPrefix _, ?_, ihn⟩
    rw [allSorted_iff, Nodes.toList_ofList]
    intro e' childs' hmem
    exact allSorted_iff.mp ihc e' childs' ((arrange_perm xmlPrefix _).mem_iff.mp hmem)

theorem AllSorted.lt {xmlPrefix : List Char} {root : Element} {nodes : Nodes} (hsorted : PseudoSorted xmlPrefix nodes.toList)
    (hall : AllSorted xmlPrefix nodes) {p : TreePath} {i j : Nat} {h f : Element}
    (hi : (⟨root, nodes⟩ : Tree).element? (p ++ [i]) = some h) (hpseudo : pseudo xmlPrefix h = true)
    (hj : (⟨root, nodes⟩ : Tree).element? (p ++ [j]) = some f) (hother : pseudo xmlPrefix f = false) : i < j := by
  induction p generalizing root nodes with
  | nil =>
    have hlabel : ∀ {k : Nat} {e : Element}, (⟨root, nodes⟩ : Tree).element? [k] = some e →
        ∃ childs, nodes.toList[k]? = some (.element e childs) := by
      intro k e hk
      rw [element?_toList, Option.bind_eq_some_iff] at hk
      obtain ⟨c, hc, hk⟩ := hk
      cases c with
      | element e' childs =>
        cases hk
        exact ⟨childs, hc⟩
      | other text => cases hk
    obtain ⟨childs, hci⟩ := hlabel hi
    obtain ⟨childs', hcj⟩ := hlabel hj
    obtain ⟨hli, hgi⟩ := List.getElem?_eq_some_iff.mp hci
    obtain ⟨hlj, hgj⟩ := List.getElem?_eq_some_iff.mp hcj
    by_contra hnot
    rcases Nat.lt_or_eq_of_le (Nat.not_lt.mp hnot) with hlt | heq
    · have hfirst := List.pairwise_iff_getElem.mp hsorted j i hlj hli hlt
      rw [hgi, hgj] at hfirst
      have hf : pseudo xmlPrefix f = true := hfirst hpseudo
      rw [hother] at hf
      cases hf
    · subst heq
      rw [hi, Option.some_inj] at hj
      rw [← hj, hpseudo] at hother
      cases hother
  | cons k p ih =>
    rw [List.cons_append, element?_toList, Option.bind_eq_some_iff] at hi hj
    obtain ⟨c, hc, hi⟩ := hi
    obtain ⟨c', hc', hj⟩ := hj
    rw [hc, Option.some_inj] at hc'
    subst hc'
    cases c with
    | element e childs =>
      obtain ⟨hsorted, hbelow⟩ := allSorted_iff.mp hall e childs (List.mem_of_getElem? hc)
      exact ih hsorted hbelow hi hj
    | other text => cases hi

/-- In the list of any elements of a tree what has the smaller path comes first. -/
theorem before_inDocumentOrder {elements : List (List Char)} {t : Tree} {includeEmbeddedDoc : Bool} {p q : TreePath}
    (hp : p ∈ inDocumentOrder elements t includeEmbeddedDoc) (hq : q ∈ inDocumentOrder elements t includeEmbeddedDoc)
    (hlt : p < q) : Before (inDocumentOrder elements t includeEmbeddedDoc) p q := by
  have hsorted : (inDocumentOrder elements t includeEmbeddedDoc).Pairwise (· < ·) := by
    rw [inDocumentOrder, filterElementGeneric_eq (by decide)]
    exact t.toRoseTree.preorder_pairwise.filter _
  exact (before_iff (fun _ _ => lt_asymm) hsorted hp hq hlt.ne).mpr hlt

/-- `resortStates` returns, and at every element of the document the `<initial>` children come first, then the `<history>`
children and then the other nodes in their old order. So wherever states are listed in document order, a pseudo-state comes
before the states below the other children of its parent, which are the ones it can name. -/
theorem resortStates_sorted {xmlPrefix : List Char} {t : Tree} (h : NoTypeOnStates xmlPrefix t) :
    ∃ t', resortStates xmlPrefix t = some t' ∧ Sorted xmlPrefix t t' ∧
      ∀ (p : TreePath) i j e f (d : TreePath), t'.element? (p ++ [i]) = some e → pseudo xmlPrefix e = true →
        t'.element? (p ++ [j]) = some f → pseudo xmlPrefix f = false → p ++ [j] <+: d →
        ∀ elements includeEmbeddedDoc, p ++ [i] ∈ inDocumentOrder elements t' includeEmbeddedDoc →
          d ∈ inDocumentOrder elements t' includeEmbeddedDoc →
          Before (inDocumentOrder elements t' includeEmbeddedDoc) (p ++ [i]) d := by
  refine ⟨_, resortStates_eq h, ⟨rfl, _, sortedBelow_arranged xmlPrefix t.childs, ?_, ?_⟩, ?_⟩
  · rw [Nodes.toList_ofList]
    exact arrange_perm xmlPrefix _
  · rw [Nodes.toList_ofList]
    exact pseudoFirst_arrange xmlPrefix _
  · intro p i j e f d hi hpseudo hj hother hd elements includeEmbeddedDoc hlisted hlisted'
    have hsorted : PseudoSorted xmlPrefix (Nodes.ofList (arrange xmlPrefix (arranged xmlPrefix t.childs).toList)).toList := by
      rw [Nodes.toList_ofList]
      exact pseudoSorted_arrange xmlPrefix _
    have hall : AllSorted xmlPrefix (Nodes.ofList (arrange xmlPrefix (arranged xmlPrefix t.childs).toList)) := by
      rw [allSorted_iff, Nodes.toList_ofList]
      intro e' childs' hmem
      exact allSorted_iff.mp (allSorted_arranged xmlPrefix t.childs) e' childs' ((arrange_perm xmlPrefix _).mem_iff.mp hmem)
    have hlt : i < j := hall.lt hsorted hi hpseudo hj hother
    obtain ⟨below, rfl⟩ := hd
    apply before_inDocumentOrder hlisted hlisted'
    rw [List.append_assoc]
    exact TreePath.append_lt_append (List.cons_lt_cons_iff.mpr (Or.inl hlt))

/-- `<state><state/><history/><initial/></state>`. -/
def pseudoLast : Tree where
  root := { nsPrefix := none, localName := stateName }
  childs := .element { nsPrefix := none, localName := stateName } .nil
    (.element { nsPrefix := none, localName := ⟨historyName, by decide, List.all_eq_true.mp rfl⟩ } .nil
      (.element { nsPrefix := none, localName := ⟨initialName, by decide, List.all_eq_true.mp rfl⟩ } .nil .nil))

theorem noTypeOnStates_pseudoLast : NoTypeOnStates [] pseudoLast := by
  intro p e k h he hh _
  cases p with
  | nil =>
    cases he
    decide
  | cons j p =>
    -- The children have no children.
    have hleaf : ∀ e childs, .element e childs ∈ pseudoLast.childs.toList → childs = .nil := by
      intro e childs hc
      simp only [pseudoLast, Nodes.toList, List.mem_cons, Node.element.injEq, List.not_mem_nil, or_false] at hc
      rcases hc with hc | hc | hc
      · exact hc.2
      · exact hc.2
      · exact hc.2
    rw [List.cons_append, element?_toList, Option.bind_eq_some_iff] at hh
    obtain ⟨c, hc, hh⟩ := hh
    cases c with
    | other text => cases hh
    | element e' childs =>
      obtain rfl := hleaf e' childs (List.mem_of_getElem? hc)
      cases p with
      | nil => cases hh
      | cons i p => cases hh

theorem resortStates_sorted_pseudoLast : NoTypeOnStates [] pseudoLast ∧
    ∃ t', resortStates [] pseudoLast = some t' ∧ Sorted [] pseudoLast t' ∧ t'.element? [0] = pseudoLast.element? [2] := by
  refine ⟨noTypeOnStates_pseudoLast, ?_⟩
  obtain ⟨t', hresult, hsorted, -⟩ := resortStates_sorted noTypeOnStates_pseudoLast
  refine ⟨t', hresult, hsorted, ?_⟩
  have hcomputed : (resortStates [] pseudoLast).bind (·.element? [0]) = pseudoLast.element? [2] := by decide +kernel
  rw [hresult, Option.bind_some] at hcomputed
  exact hcomputed

/-! ### The states of a chart -/

section Chart

variable {β : Type} (xmlPrefix : List Char) (read : Element → Option (Elem β))

/-- The elements that are states or pseudo-states, with those below them. -/
def stateForest : Nodes → Forest (Elem β)
  | .nil => .nil
  | .other _ next => stateForest next
  | .element e childs next =>
    match read e with
    | some a => .cons a (stateForest childs) (stateForest next)
    | none => stateForest next

def stateOf : Node → Option (Elem β × Forest (Elem β))
  | .element e childs => (read e).map fun a => (a, stateForest read childs)
  | .other _ => none

theorem toList_stateForest (nodes : Nodes) : Forest.toList (stateForest read nodes) = nodes.toList.filterMap (stateOf read) := by
  induction nodes with
  | nil => rfl
  | other text next ih => exact ih
  | element e childs next _ ihn =>
    rw [stateForest, Nodes.toList, List.filterMap_cons, stateOf]
    cases read e with
    | none => exact ihn
    | some a => exact congrArg _ ihn

theorem ofList_toList (f : Forest (Elem β)) : Forest.ofList (Forest.toList f) = f := by
  induction f with
  | nil => rfl
  | cons a kids next _ ihn => rw [Forest.toList, Forest.ofList, ihn]

/-- To move nodes to the front and to read the states can be exchanged. -/
theorem filterMap_moveToFront {γ δ : Type} {f : γ → Option δ} {p : γ → Bool} {q : δ → Bool}
    (h : ∀ c a, f c = some a → p c = q a) (l : List γ) : (moveToFront p l).filterMap f = moveToFront q (l.filterMap f) := by
  have hfilter : ∀ {p : γ → Bool} {q : δ → Bool}, (∀ c a, f c = some a → p c = q a) →
      (l.filter p).filterMap f = (l.filterMap f).filter q := by
    intro p q h
    rw [List.filterMap_filter, List.filter_filterMap]
    apply List.filterMap_congr
    intro c _
    cases hc : f c with
    | none => simp
    | some a => cases hq : q a <;> simp [h c a hc, hq, Option.filter]
  rw [moveToFront_eq, moveToFront_eq, List.filterMap_append, List.filterMap_reverse, hfilter h,
    hfilter (q := fun a => !q a) fun c a hc => by rw [h c a hc]]

variable {xmlPrefix read} (hinitial : ∀ e a, read e = some a → initial e = decide (a.tag = .initial))
  (hhistory : ∀ e a, read e = some a → history xmlPrefix e = decide (a.tag = .history))

include hinitial hhistory

theorem stateForest_arrange (nodes : Nodes) :
    stateForest read (.ofList (arrange xmlPrefix nodes.toList)) = sortSiblings (stateForest read nodes) := by
  have htest : ∀ {p : Element → Bool} {tag : Tag}, (∀ e a, read e = some a → p e = decide (a.tag = tag)) →
      ∀ c x, stateOf read c = some x → c.test p = decide (x.1.tag = tag) := by
    intro p tag h c x hx
    cases c with
    | other text => cases hx
    | element e childs =>
      rw [stateOf, Option.map_eq_some_iff] at hx
      obtain ⟨a, ha, rfl⟩ := hx
      exact h e a ha
  have hlist : Forest.toList (stateForest read (.ofList (arrange xmlPrefix nodes.toList))) =
      Forest.toList (sortSiblings (stateForest read nodes)) := by
    rw [toList_stateForest, Nodes.toList_ofList, sortSiblings, Forest.toList_ofList, toList_stateForest, arrange,
      filterMap_moveToFront (htest hinitial), filterMap_moveToFront (htest hhistory)]
  rw [← ofList_toList (stateForest read _), hlist, ofList_toList]

theorem stateForest_arranged (nodes : Nodes) :
    stateForest read (arranged xmlPrefix nodes) = resortForest (stateForest read nodes) := by
  induction nodes with
  | nil => rfl
  | other text next ih => exact ih
  | element e childs next ihc ihn =>
    rw [arranged, stateForest, stateForest, stateForest_arrange hinitial hhistory, ihc, ihn]
    cases read e with
    | none => rfl
    | some a => rfl

/-- What the passes do to the nodes of a document is what `resortStates` does to the states of a chart. -/
theorem stateForest_resortStates {t : Tree} (h : NoTypeOnStates xmlPrefix t) (d : Document β)
    (hd : d.tree.kids = stateForest read t.childs) :
    ∃ t', resortStates xmlPrefix t = some t' ∧ (Uscxml.resortStates d).tree.kids = stateForest read t'.childs := by
  refine ⟨_, resortStates_eq h, ?_⟩
  rw [Uscxml.resortStates, hd, stateForest_arrange hinitial hhistory, stateForest_arranged hinitial hhistory]

end Chart

end Dom

end Uscxml
