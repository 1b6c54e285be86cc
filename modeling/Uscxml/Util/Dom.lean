import Uscxml.Lib.Forest
import Uscxml.Messages
import Mathlib.Data.List.Basic

/-!
# Documents as trees of nodes

What the functions of `util/DOM.cpp` see of a DOM document: elements with a prefix, a local name and attributes, and between
them nodes of other kinds, which have no children. A pointer to a node is the path to it, so that two nodes are never
confused; the children of a node are counted from zero with the nodes of all kinds.
-/

namespace Uscxml

namespace Dom

/-- A character that can stand in a name. Beyond ASCII not all of these do. -/
def isNameChar (c : Char) : Bool := c.isAlphanum || c = '-' || c = '.' || c = '_' || 128 ≤ c.toNat

/-- A name without a colon. -/
@[ext]
structure NcName where
  chars : List Char
  ne_nil : chars ≠ []
  legal : ∀ c ∈ chars, isNameChar c = true
  deriving DecidableEq

/-- An element: the prefix and the local name of its tag, and the attributes with their values. -/
structure Element where
  nsPrefix : Option NcName
  localName : NcName
  attributes : List (List Char × List Char) := []
  deriving DecidableEq

namespace Element

def xmlPrefix (e : Element) : List Char := e.nsPrefix.elim [] fun name => name.chars ++ [':']

/-- `TAGNAME`. -/
def tagName (e : Element) : List Char := e.xmlPrefix ++ e.localName.chars

def attr? (e : Element) (name : List Char) : Option (List Char) := (e.attributes.find? fun a => a.1 = name).map (·.2)

def hasAttr (e : Element) (name : List Char) : Bool := (e.attr? name).isSome

def attr (e : Element) (name : List Char) : List Char := (e.attr? name).getD []

end Element

/-- The nodes from a child of an element on: the child with its own children, and the siblings behind it. -/
inductive Nodes where
  | nil
  | element (e : Element) (childs next : Nodes)
  | other (text : List Char) (next : Nodes)
  deriving DecidableEq

structure Tree where
  root : Element
  childs : Nodes
  deriving DecidableEq

/-! ### Paths -/

namespace Nodes

/-- The nodes as a forest in which those that are no elements have no label. -/
def toForest : Nodes → Forest (Option Element)
  | nil => .nil
  | element e childs next => .cons (some e) childs.toForest next.toForest
  | other _ next => .cons none .nil next.toForest

def element? (nodes : Nodes) (p : TreePath) : Option Element := (nodes.toForest.get? p).join

@[simp] theorem element?_nil_path (nodes : Nodes) : nodes.element? [] = none := by
  rw [element?, Forest.get?_nil]
  rfl

@[simp] theorem element?_nil (p : TreePath) : nil.element? p = none := by
  rw [element?, toForest, Forest.nil_get?]
  rfl

@[simp] theorem element?_zero (e : Element) (childs next : Nodes) : (element e childs next).element? [0] = some e := rfl

theorem element?_childs (e : Element) (childs next : Nodes) {p : TreePath} (hp : p ≠ []) :
    (element e childs next).element? (0 :: p) = childs.element? p := by
  rw [element?, toForest, Forest.cons_get?_kids _ _ _ hp]
  rfl

@[simp] theorem element?_next (e : Element) (childs next : Nodes) (k : Nat) (p : TreePath) :
    (element e childs next).element? ((k + 1) :: p) = next.element? (k :: p) := by
  rw [element?, toForest, Forest.cons_get?_next]
  rfl

@[simp] theorem other_element?_zero (text : List Char) (next : Nodes) (p : TreePath) :
    (other text next).element? (0 :: p) = none := by
  rw [element?, toForest]
  cases p with
  | nil => rfl
  | cons k p =>
    rw [Forest.cons_get?_kids _ _ _ (List.cons_ne_nil k p), Forest.nil_get?]
    rfl

@[simp] theorem other_element?_next (text : List Char) (next : Nodes) (k : Nat) (p : TreePath) :
    (other text next).element? ((k + 1) :: p) = next.element? (k :: p) := by
  rw [element?, toForest, Forest.cons_get?_next]
  rfl

end Nodes

namespace Tree

def toRoseTree (t : Tree) : RoseTree (Option Element) := ⟨some t.root, t.childs.toForest⟩

/-- The element at a path; the empty path is the root. -/
def element? (t : Tree) (p : TreePath) : Option Element := (t.toRoseTree.get? p).join

@[simp] theorem element?_nil (t : Tree) : t.element? [] = some t.root := rfl

theorem element?_cons (t : Tree) (k : Nat) (p : TreePath) : t.element? (k :: p) = t.childs.element? (k :: p) := rfl

theorem element?_concat (t : Tree) (p : TreePath) (k : Nat) : t.element? (p ++ [k]) = t.childs.element? (p ++ [k]) := by
  cases p with
  | nil => rfl
  | cons j p => rfl

end Tree

/-! ### Upwards

What walks up from an element meets at each level the element siblings before it, from the nearest on. -/

/-- A child that is an element: the element siblings before it and its own children. -/
structure Child where
  element : Element
  previous : List Element
  childs : Nodes

/-- The child with a number, where `previous` has the elements passed so far. -/
def Nodes.child? (previous : List Element) : Nodes → Nat → Option Child
  | .nil, _ => none
  | .element e childs _, 0 => some ⟨e, previous, childs⟩
  | .element e _ next, k + 1 => next.child? (e :: previous) k
  | .other _ _, 0 => none
  | .other _ next, k + 1 => next.child? previous k

/-- The children of the element at a path; and the element and its ancestors up to the document, each with the element
siblings before it. -/
def descend : TreePath → Nodes → List (Element × List Element) → Option (Nodes × List (Element × List Element))
  | [], nodes, up => some (nodes, up)
  | k :: p, nodes, up => (nodes.child? [] k).bind fun c => descend p c.childs ((c.element, c.previous) :: up)

def ancestry (document : Nodes) (p : TreePath) : Option (List (Element × List Element)) := (descend p document []).map (·.2)

theorem descend_append (p q : TreePath) (nodes : Nodes) (up : List (Element × List Element)) :
    descend (p ++ q) nodes up = (descend p nodes up).bind fun r => descend q r.1 r.2 := by
  induction p generalizing nodes up with
  | nil => rfl
  | cons k p ih =>
    rw [List.cons_append, descend, descend, Option.bind_assoc]
    exact congrArg _ (funext fun c => ih c.childs _)

theorem Nodes.element?_cons (nodes : Nodes) (previous : List Element) (k : Nat) (p : TreePath) :
    nodes.element? (k :: p) = (nodes.child? previous k).bind fun c => if p = [] then some c.element else c.childs.element? p := by
  induction nodes generalizing previous k with
  | nil => exact Nodes.element?_nil (k :: p)
  | other text next ih =>
    cases k with
    | zero => exact Nodes.other_element?_zero text next p
    | succ k => exact (Nodes.other_element?_next text next k p).trans (ih previous k)
  | element e childs next _ ihn =>
    cases k with
    | zero =>
      cases p with
      | nil => rfl
      | cons j p => exact Nodes.element?_childs e childs next (List.cons_ne_nil j p)
    | succ k => exact (Nodes.element?_next e childs next k p).trans (ihn (e :: previous) k)

theorem element?_concat (p : TreePath) (k : Nat) (nodes : Nodes) (up : List (Element × List Element)) :
    nodes.element? (p ++ [k]) = (descend p nodes up).bind fun r => (r.1.child? [] k).map Child.element := by
  induction p generalizing nodes up with
  | nil =>
    rw [List.nil_append, nodes.element?_cons [], descend, Option.bind_some, Option.map_eq_bind]
    exact congrArg _ (funext fun c => if_pos rfl)
  | cons j p ih =>
    rw [List.cons_append, nodes.element?_cons [], descend, Option.bind_assoc]
    refine congrArg _ (funext fun c => ?_)
    rw [if_neg (by simp)]
    exact ih c.childs _

theorem exists_of_descend_concat {p : TreePath} {k : Nat} {nodes m : Nodes} {up : List (Element × List Element)}
    (h : descend (p ++ [k]) nodes [] = some (m, up)) :
    ∃ n u c, descend p nodes [] = some (n, u) ∧ n.child? [] k = some c ∧ up = (c.element, c.previous) :: u ∧
      nodes.element? (p ++ [k]) = some c.element := by
  have helement := element?_concat p k nodes []
  rw [descend_append, Option.bind_eq_some_iff] at h
  obtain ⟨⟨n, u⟩, hn, h⟩ := h
  rw [descend, Option.bind_eq_some_iff] at h
  obtain ⟨c, hc, h⟩ := h
  cases h
  rw [hn, Option.bind_some, hc] at helement
  exact ⟨n, u, c, hn, hc, rfl, helement⟩

/-- Between two children stand elements, the first of the two among them. -/
theorem Nodes.previous_of_lt {nodes : Nodes} {previous : List Element} {j k : Nat} (hjk : j < k) {c c' : Child}
    (hc : nodes.child? previous j = some c) (hc' : nodes.child? previous k = some c') :
    ∃ between, c'.previous = between ++ c.element :: c.previous := by
  have hlast : ∀ {nodes : Nodes} {previous : List Element} {k : Nat} {c : Child}, nodes.child? previous k = some c →
      ∃ between, c.previous = between ++ previous := by
    intro nodes
    induction nodes with
    | nil => intro previous k c hc; cases hc
    | other text next ih =>
      intro previous k c hc
      cases k with
      | zero => cases hc
      | succ k => exact ih hc
    | element e childs next _ ihn =>
      intro previous k c hc
      cases k with
      | zero =>
        cases hc
        exact ⟨[], rfl⟩
      | succ k =>
        obtain ⟨between, h⟩ : ∃ between, c.previous = between ++ e :: previous := ihn hc
        exact ⟨between ++ [e], by rw [h, List.append_assoc]; rfl⟩
  induction nodes generalizing previous j k with
  | nil => cases hc
  | other text next ih =>
    obtain ⟨k, rfl⟩ : ∃ k', k = k' + 1 := ⟨k - 1, by omega⟩
    cases j with
    | zero => cases hc
    | succ j => exact ih (Nat.lt_of_succ_lt_succ hjk) hc hc'
  | element e childs next _ ihn =>
    obtain ⟨k, rfl⟩ : ∃ k', k = k' + 1 := ⟨k - 1, by omega⟩
    cases j with
    | zero =>
      cases hc
      exact hlast hc'
    | succ j => exact ihn (Nat.lt_of_succ_lt_succ hjk) hc hc'

/-- The loop that counts the siblings before an element with its tag. -/
def countSiblings (e : Element) (start : Nat) (previous : List Element) : Nat :=
  previous.foldl (fun index sibling => if Convenience.iequals sibling.tagName e.tagName then index + 1 else index) start

theorem countSiblings_eq (e : Element) (start : Nat) (previous : List Element) :
    countSiblings e start previous = start + previous.countP fun sibling => Convenience.iequals sibling.tagName e.tagName := by
  induction previous generalizing start with
  | nil => rfl
  | cons sibling previous ih =>
    rw [countSiblings, List.foldl_cons, List.countP_cons]
    split
    · exact (ih _).trans (Nat.add_right_comm start 1 _)
    · exact ih _

theorem Nodes.eq_of_countSiblings {nodes : Nodes} {j k : Nat} {c c' : Child} (hc : nodes.child? [] j = some c)
    (hc' : nodes.child? [] k = some c') (htag : c.element.tagName = c'.element.tagName) {start : Nat}
    (hcount : countSiblings c.element start c.previous = countSiblings c'.element start c'.previous) : j = k := by
  have hless : ∀ {j k : Nat} {c c' : Child}, nodes.child? [] j = some c → nodes.child? [] k = some c' →
      c.element.tagName = c'.element.tagName → j < k →
      countSiblings c.element start c.previous < countSiblings c'.element start c'.previous := by
    intro j k c c' hc hc' htag hjk
    obtain ⟨between, hbetween⟩ := Nodes.previous_of_lt hjk hc hc'
    have hself : Convenience.iequals c'.element.tagName c'.element.tagName = true := decide_eq_true rfl
    rw [countSiblings_eq, countSiblings_eq, hbetween, List.countP_append, List.countP_cons, htag, hself, if_pos rfl]
    omega
  rcases Nat.lt_trichotomy j k with hjk | hjk | hjk
  · exact absurd hcount (hless hc hc' htag hjk).ne
  · exact hjk
  · exact absurd hcount (hless hc' hc htag.symm hjk).ne'

/-! ### Steps from the nearest id -/

def idName : List Char := ['i', 'd']

def UniqueIds (document : Nodes) : Prop :=
  ∀ p q e f, document.element? p = some e → document.element? q = some f → e.tagName = f.tagName → e.hasAttr idName = true →
    f.hasAttr idName = true → e.attr idName = f.attr idName → p = q

/-- The nearest element with an `id`, and the tags and numbers of the elements below it, from the last one on. -/
def shape (start : Nat) : List (Element × List Element) → Option (List Char × List Char) × List (List Char × Nat)
  | [] => (none, [])
  | (elem, previous) :: up =>
    if elem.hasAttr idName then (some (elem.tagName, elem.attr idName), [])
    else ((shape start up).1, (elem.tagName, countSiblings elem start previous) :: (shape start up).2)

theorem shape_eq_nil {start : Nat} {up : List (Element × List Element)} (h : shape start up = (none, [])) : up = [] := by
  cases up with
  | nil => rfl
  | cons level up =>
    obtain ⟨elem, previous⟩ := level
    rw [shape] at h
    split at h
    · exact nomatch (Prod.mk.inj h).1
    · exact nomatch (Prod.mk.inj h).2

theorem eq_of_shape {document : Nodes} (hids : UniqueIds document) {p q : TreePath} {m n : Nodes}
    {up uq : List (Element × List Element)} (hp : descend p document [] = some (m, up)) (hq : descend q document [] = some (n, uq))
    {start : Nat}
    (hshape : shape start up = shape start uq) : p = q := by
  induction p using List.reverseRecOn generalizing q m n up uq with
  | nil =>
    cases hp
    have huq : uq = [] := shape_eq_nil hshape.symm
    rcases List.eq_nil_or_concat' q with rfl | ⟨q, k, rfl⟩
    · rfl
    · obtain ⟨n', u, c, -, -, hcons, -⟩ := exists_of_descend_concat hq
      rw [huq] at hcons
      cases hcons
  | append_singleton p k ih =>
    obtain ⟨m', u, c, hm', hc, rfl, he⟩ := exists_of_descend_concat hp
    rcases List.eq_nil_or_concat' q with rfl | ⟨q, j, rfl⟩
    · cases hq
      have hcons := shape_eq_nil hshape
      cases hcons
    · obtain ⟨n', v, d, hn', hd, rfl, hf⟩ := exists_of_descend_concat hq
      rw [shape, shape] at hshape
      split at hshape
      · rename_i hid
        split at hshape
        · -- Both paths begin at their element.
          rename_i hid'
          obtain ⟨htag, hattr⟩ := Prod.mk.inj (Option.some.inj (Prod.mk.inj hshape).1)
          exact hids _ _ _ _ he hf htag hid hid' hattr
        · exact nomatch (Prod.mk.inj hshape).2
      · split at hshape
        · exact nomatch (Prod.mk.inj hshape).2
        · -- The elements are children of one element.
          obtain ⟨hanchor, hsteps⟩ := Prod.mk.inj hshape
          obtain ⟨hstep, hrest⟩ := List.cons.inj hsteps
          obtain ⟨htag, hcount⟩ := Prod.mk.inj hstep
          obtain rfl : p = q := ih hm' hn' (Prod.ext hanchor hrest)
          rw [hm'] at hn'
          cases hn'
          rw [Nodes.eq_of_countSiblings hc hd htag hcount]

/-! ### Names -/

theorem colon_not_mem (name : NcName) : ':' ∉ name.chars := by
  intro h
  have hlegal := name.legal ':' h
  revert hlegal
  decide

namespace Element

theorem xmlPrefix_of_none {e : Element} (h : e.nsPrefix = none) : e.xmlPrefix = [] := by
  rw [xmlPrefix, h, Option.elim_none]

theorem xmlPrefix_of_some {e : Element} {name : NcName} (h : e.nsPrefix = some name) (l : List Char) :
    e.xmlPrefix ++ l = name.chars ++ ':' :: l := by
  rw [xmlPrefix, h, Option.elim_some, List.append_assoc, List.singleton_append]

theorem xmlPrefix_append_inj {e e' : Element} {l m : List Char} (hl : ':' ∉ l) (hm : ':' ∉ m) :
    e.xmlPrefix ++ l = e'.xmlPrefix ++ m ↔ e.nsPrefix = e'.nsPrefix ∧ l = m := by
  constructor
  · intro h
    cases hp : e.nsPrefix with
    | none =>
      rw [xmlPrefix_of_none hp, List.nil_append] at h
      cases hq : e'.nsPrefix with
      | none =>
        rw [xmlPrefix_of_none hq, List.nil_append] at h
        exact ⟨rfl, h⟩
      | some q =>
        rw [h, xmlPrefix_of_some hq] at hl
        exact absurd (List.mem_append_right q.chars List.mem_cons_self) hl
    | some p =>
      rw [xmlPrefix_of_some hp] at h
      cases hq : e'.nsPrefix with
      | none =>
        rw [xmlPrefix_of_none hq, List.nil_append] at h
        rw [← h] at hm
        exact absurd (List.mem_append_right p.chars List.mem_cons_self) hm
      | some q =>
        rw [xmlPrefix_of_some hq] at h
        obtain ⟨hchars, -, hrest⟩ := (List.append_cons_inj_of_notMem (colon_not_mem p) hl).mp h
        exact ⟨congrArg some (NcName.ext hchars), hrest⟩
  · rintro ⟨hp, rfl⟩
    rw [xmlPrefix, xmlPrefix, hp]

end Element

end Dom

end Uscxml
