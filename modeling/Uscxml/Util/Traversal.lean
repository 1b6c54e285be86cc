import Uscxml.Util.Dom

/-!
# `DOMUtils::filterElementGeneric`

One recursion lists the elements with certain tags before or behind what is below them. It leaves out the children that it
takes for embedded documents: those with the tag `scxml` behind the prefix of their parent.
-/

namespace Uscxml

namespace Dom

inductive Order where
  | postFix | document | noRecurse
  deriving DecidableEq, Repr

def scxmlName : List Char := ['s', 'c', 'x', 'm', 'l']

def historyName : List Char := ['h', 'i', 's', 't', 'o', 'r', 'y']

def initialName : List Char := ['i', 'n', 'i', 't', 'i', 'a', 'l']

-- The tests of membership use it by name.
theorem lawfulBEq_tagName : LawfulBEq (List Char) := List.instLawfulBEq

attribute [local instance] lawfulBEq_tagName

/-- `filterElementGeneric` for an element, around the loop over its children. -/
def visit (elements : List (List Char)) (order : Order) (includeRoot : Bool) (root : Element) (path : TreePath)
    (loop : List TreePath → List TreePath) (result : List TreePath) : List TreePath :=
  let result :=
    if (order = .noRecurse ∨ order = .document) ∧ includeRoot ∧ root.tagName ∈ elements then result ++ [path] else result
  let result := loop result
  if order = .postFix ∧ includeRoot ∧ root.tagName ∈ elements then result ++ [path] else result

/-- The loop over the children of `root` from the one with the number `k` on. -/
def childLoop (elements : List (List Char)) (order : Order) (includeEmbeddedDoc : Bool) :
    Element → TreePath → Nat → Nodes → List TreePath → List TreePath
  | _, _, _, .nil, result => result
  | root, path, k, .other _ next, result => childLoop elements order includeEmbeddedDoc root path (k + 1) next result
  | root, path, k, .element e childs next, result =>
    let result :=
      if order = .noRecurse then if e.tagName ∈ elements then result ++ [path ++ [k]] else result
      else if includeEmbeddedDoc ∨ e.tagName ≠ root.xmlPrefix ++ scxmlName then
        visit elements order true e (path ++ [k])
          (childLoop elements order includeEmbeddedDoc e (path ++ [k]) 0 childs) result
      else result
    childLoop elements order includeEmbeddedDoc root path (k + 1) next result

/-- `DOMUtils::filterElementGeneric`: the paths from the root. -/
def filterElementGeneric (elements : List (List Char)) (t : Tree) (order : Order) (includeEmbeddedDoc includeRoot : Bool) :
    List TreePath :=
  visit elements order includeRoot t.root [] (childLoop elements order includeEmbeddedDoc t.root [] 0 t.childs) []

def inPostFixOrder (elements : List (List Char)) (t : Tree) (includeEmbeddedDoc : Bool) : List TreePath :=
  filterElementGeneric elements t .postFix includeEmbeddedDoc true

def inDocumentOrder (elements : List (List Char)) (t : Tree) (includeEmbeddedDoc : Bool) : List TreePath :=
  filterElementGeneric elements t .document includeEmbeddedDoc true

/-! ### What is asked for -/

/-- The path leads to or through an embedded `<scxml>`. -/
def InEmbedded (t : Tree) (p : TreePath) : Prop :=
  ∃ q : TreePath, q ≠ [] ∧ q <+: p ∧ ∃ e, t.element? q = some e ∧ e.localName.chars = scxmlName

/-- An element with one of the tags, and not in an embedded document unless these are asked for, too. -/
def Asked (elements : List (List Char)) (t : Tree) (includeEmbeddedDoc : Bool) (p : TreePath) : Prop :=
  (∃ e, t.element? p = some e ∧ e.tagName ∈ elements) ∧ (includeEmbeddedDoc = true ∨ ¬ InEmbedded t p)

/-- Every element with one of the tags that is in an embedded `<scxml>` is in one with the prefix of its parent. -/
def EmbeddedFound (elements : List (List Char)) (t : Tree) : Prop :=
  ∀ p e, t.element? p = some e → e.tagName ∈ elements → InEmbedded t p →
    ∃ q : TreePath, q ≠ [] ∧ q <+: p ∧ ∃ r e, t.element? q.parent = some r ∧ t.element? q = some e ∧
      e.localName.chars = scxmlName ∧ e.nsPrefix = r.nsPrefix

def Before (l : List TreePath) (p q : TreePath) : Prop := List.Sublist [p, q] l

/-- Two lists of paths put incomparable ones in the same order, and those on one branch in opposite orders. -/
def DifferOnBranches (l m : List TreePath) : Prop :=
  ∀ p ∈ l, ∀ q ∈ l, (¬ p <+: q → ¬ q <+: p → (Before l p q ↔ Before m p q)) ∧ (q.Below p → Before l p q ∧ Before m q p)

/-- The two traversals list what is asked for, each element once, in preorder and in postorder. -/
structure Traverses (elements : List (List Char)) (t : Tree) (includeEmbeddedDoc : Bool) : Prop where
  mem_document : ∀ p, p ∈ inDocumentOrder elements t includeEmbeddedDoc ↔ Asked elements t includeEmbeddedDoc p
  mem_postFix : ∀ p, p ∈ inPostFixOrder elements t includeEmbeddedDoc ↔ Asked elements t includeEmbeddedDoc p
  nodup_document : (inDocumentOrder elements t includeEmbeddedDoc).Nodup
  nodup_postFix : (inPostFixOrder elements t includeEmbeddedDoc).Nodup
  preorder : (inDocumentOrder elements t includeEmbeddedDoc).Sublist t.toRoseTree.preorder
  postorder : (inPostFixOrder elements t includeEmbeddedDoc).Sublist t.toRoseTree.postorder
  differ : DifferOnBranches (inDocumentOrder elements t includeEmbeddedDoc) (inPostFixOrder elements t includeEmbeddedDoc)

/-! ### What the recursion takes -/

def entered (includeEmbeddedDoc : Bool) (root e : Element) : Bool :=
  includeEmbeddedDoc || e.tagName ≠ root.xmlPrefix ++ scxmlName

/-- The recursion takes the node at a path below `root`. -/
def taken (elements : List (List Char)) (includeEmbeddedDoc : Bool) : Element → Nodes → TreePath → Bool
  | _, .nil, _ => false
  | _, _, [] => false
  | root, .element e _ _, [0] => entered includeEmbeddedDoc root e && e.tagName ∈ elements
  | root, .element e childs _, 0 :: k :: p => entered includeEmbeddedDoc root e && taken elements includeEmbeddedDoc e childs (k :: p)
  | root, .element _ _ next, (k + 1) :: p => taken elements includeEmbeddedDoc root next (k :: p)
  | _, .other _ _, 0 :: _ => false
  | root, .other _ next, (k + 1) :: p => taken elements includeEmbeddedDoc root next (k :: p)

/-- The same with the nodes counted from `k`. -/
def takenFrom (elements : List (List Char)) (includeEmbeddedDoc : Bool) (k : Nat) (root : Element) (nodes : Nodes) :
    TreePath → Bool
  | [] => false
  | m :: p => k ≤ m && taken elements includeEmbeddedDoc root nodes ((m - k) :: p)

def Order.walk {α : Type} (order : Order) (k : Nat) (f : Forest α) : List TreePath :=
  if order = .postFix then f.postorderFrom k else f.preorderFrom k

theorem Order.walk_nil {α : Type} (order : Order) (k : Nat) : order.walk k (Forest.nil : Forest α) = [] := by
  rw [walk]
  split
  · rfl
  · rfl

theorem Order.walk_cons {α : Type} (order : Order) (k : Nat) (a : α) (kids next : Forest α) :
    order.walk k (.cons a kids next) = (if order = .postFix then [] else [[k]]) ++ (order.walk 0 kids).map (k :: ·) ++
      (if order = .postFix then [[k]] else []) ++ order.walk (k + 1) next := by
  simp only [walk]
  split
  · rw [Forest.postorderFrom, List.nil_append, List.append_assoc]
    rfl
  · rw [Forest.preorderFrom, List.append_nil]
    rfl

theorem Order.mem_walk {α : Type} {order : Order} {k : Nat} {f : Forest α} {p : TreePath} :
    p ∈ order.walk k f ↔ p ∈ f.preorderFrom k := by
  rw [walk]
  split
  · exact Forest.mem_postorderFrom
  · exact Iff.rfl

section Loop

variable {elements : List (List Char)} {includeEmbeddedDoc : Bool}

@[simp] theorem takenFrom_nil (k : Nat) (root : Element) (p : TreePath) :
    takenFrom elements includeEmbeddedDoc k root .nil p = false := by
  cases p with
  | nil => rfl
  | cons m p => rw [takenFrom, taken, Bool.and_false]

theorem takenFrom_self (k : Nat) (root e : Element) (childs next : Nodes) :
    takenFrom elements includeEmbeddedDoc k root (.element e childs next) [k] =
      (entered includeEmbeddedDoc root e && decide (e.tagName ∈ elements)) := by
  rw [takenFrom, decide_eq_true le_rfl, Nat.sub_self, Bool.true_and, taken]

theorem takenFrom_childs (k : Nat) (root e : Element) (childs next : Nodes) (m : Nat) (p : TreePath) :
    takenFrom elements includeEmbeddedDoc k root (.element e childs next) (k :: m :: p) =
      (entered includeEmbeddedDoc root e && takenFrom elements includeEmbeddedDoc 0 e childs (m :: p)) := by
  rw [takenFrom, decide_eq_true le_rfl, Nat.sub_self, Bool.true_and, taken, takenFrom, decide_eq_true (Nat.zero_le m),
    Bool.true_and, Nat.sub_zero]

theorem takenFrom_next (k j : Nat) (root e : Element) (childs next : Nodes) (p : TreePath) :
    takenFrom elements includeEmbeddedDoc k root (.element e childs next) ((k + 1 + j) :: p) =
      takenFrom elements includeEmbeddedDoc (k + 1) root next ((k + 1 + j) :: p) := by
  have hsub : k + 1 + j - k = j + 1 := by omega
  rw [takenFrom, takenFrom, decide_eq_true (show k ≤ k + 1 + j by omega), decide_eq_true (Nat.le_add_right (k + 1) j), hsub,
    Nat.add_sub_cancel_left, taken]

theorem takenFrom_other (k j : Nat) (root : Element) (text : List Char) (next : Nodes) (p : TreePath) :
    takenFrom elements includeEmbeddedDoc k root (.other text next) ((k + 1 + j) :: p) =
      takenFrom elements includeEmbeddedDoc (k + 1) root next ((k + 1 + j) :: p) := by
  have hsub : k + 1 + j - k = j + 1 := by omega
  rw [takenFrom, takenFrom, decide_eq_true (show k ≤ k + 1 + j by omega), decide_eq_true (Nat.le_add_right (k + 1) j), hsub,
    Nat.add_sub_cancel_left, taken]

theorem filter_walk_next {order : Order} {k : Nat} {f : Forest (Option Element)} {g h : TreePath → Bool}
    (hgh : ∀ j p, g ((k + j) :: p) = h ((k + j) :: p)) : (order.walk k f).filter g = (order.walk k f).filter h := by
  apply List.filter_congr
  intro p hp
  obtain ⟨j, q, rfl, -⟩ := Forest.mem_preorderFrom.mp (Order.mem_walk.mp hp)
  exact hgh j q

/-- The loop adds what the traversal of the forest meets and the recursion takes. -/
theorem childLoop_eq {order : Order} (horder : order ≠ .noRecurse) (root : Element) (path : TreePath) (k : Nat) (nodes : Nodes)
    (result : List TreePath) :
    childLoop elements order includeEmbeddedDoc root path k nodes result = result ++
      ((order.walk k nodes.toForest).filter (takenFrom elements includeEmbeddedDoc k root nodes)).map (path ++ ·) := by
  induction nodes generalizing root path k result with
  | nil => rw [childLoop, Nodes.toForest, Order.walk_nil, List.filter_nil, List.map_nil, List.append_nil]
  | other text next ih =>
    have hother : takenFrom elements includeEmbeddedDoc k root (.other text next) [k] = false := by
      rw [takenFrom, Nat.sub_self, taken, Bool.and_false]
    have hwalk : order.walk 0 (Forest.nil : Forest (Option Element)) = [] := Order.walk_nil order 0
    rw [childLoop, ih, Nodes.toForest, Order.walk_cons, hwalk,
      filter_walk_next fun j p => (takenFrom_other k j root text next p).symm]
    cases order <;> simp [hother]
  | element e childs next ihc ihn =>
    have hchilds : ((order.walk 0 childs.toForest).map (k :: ·)).filter
        (takenFrom elements includeEmbeddedDoc k root (.element e childs next)) = if entered includeEmbeddedDoc root e then
          ((order.walk 0 childs.toForest).filter (takenFrom elements includeEmbeddedDoc 0 e childs)).map (k :: ·) else [] := by
      rw [List.filter_map, filter_walk_next (h := fun p => entered includeEmbeddedDoc root e &&
        takenFrom elements includeEmbeddedDoc 0 e childs p) fun j p => takenFrom_childs k root e childs next (0 + j) p]
      cases entered includeEmbeddedDoc root e <;> simp
    have hloop : childLoop elements order includeEmbeddedDoc e (path ++ [k]) 0 childs = fun result => result ++
        (((order.walk 0 childs.toForest).filter (takenFrom elements includeEmbeddedDoc 0 e childs)).map (k :: ·)).map
          (path ++ ·) := by
      funext result
      rw [ihc, List.map_map]
      congr 2
      funext p
      exact List.append_assoc path [k] p
    have hself : takenFrom elements includeEmbeddedDoc k root (.element e childs next) [k] =
        (entered includeEmbeddedDoc root e && decide (e.tagName ∈ elements)) := takenFrom_self k root e childs next
    have hentered : (includeEmbeddedDoc = true ∨ e.tagName ≠ root.xmlPrefix ++ scxmlName) ↔
        entered includeEmbeddedDoc root e = true := by
      rw [entered, Bool.or_eq_true, decide_eq_true_eq]
    rw [childLoop, ihn, Nodes.toForest, Order.walk_cons, List.filter_append, List.filter_append, List.filter_append, hchilds,
      filter_walk_next fun j p => takenFrom_next k j root e childs next p, if_neg horder]
    simp only [hentered, hloop, visit]
    cases order with
    | noRecurse => exact absurd rfl horder
    | document =>
      cases hin : entered includeEmbeddedDoc root e with
      | false => simp [hself, hin]
      | true =>
        by_cases htag : e.tagName ∈ elements
        · simp [hself, hin, htag]
        · simp [hself, hin, htag]
    | postFix =>
      cases hin : entered includeEmbeddedDoc root e with
      | false => simp [hself, hin]
      | true =>
        by_cases htag : e.tagName ∈ elements
        · simp [hself, hin, htag]
        · simp [hself, hin, htag]

def takenAt (elements : List (List Char)) (includeEmbeddedDoc : Bool) (t : Tree) (p : TreePath) : Bool :=
  if p = [] then t.root.tagName ∈ elements else taken elements includeEmbeddedDoc t.root t.childs p

def Order.walkTree {α : Type} (order : Order) (t : RoseTree α) : List TreePath :=
  if order = .postFix then t.postorder else t.preorder

theorem filterElementGeneric_eq {order : Order} (horder : order ≠ .noRecurse) (t : Tree) :
    filterElementGeneric elements t order includeEmbeddedDoc true =
      (order.walkTree t.toRoseTree).filter (takenAt elements includeEmbeddedDoc t) := by
  have hloop : ∀ result, childLoop elements order includeEmbeddedDoc t.root [] 0 t.childs result =
      result ++ (order.walk 0 t.childs.toForest).filter (takenAt elements includeEmbeddedDoc t) := by
    intro result
    rw [childLoop_eq horder, filter_walk_next (h := takenAt elements includeEmbeddedDoc t)]
    · simp
    · intro j p
      rw [takenFrom, takenAt, if_neg (List.cons_ne_nil _ _), decide_eq_true (Nat.zero_le _), Nat.sub_zero, Bool.true_and]
  have hroot : takenAt elements includeEmbeddedDoc t [] = decide (t.root.tagName ∈ elements) := by
    rw [takenAt, if_pos rfl]
  cases order with
  | noRecurse => exact absurd rfl horder
  | document =>
    by_cases htag : t.root.tagName ∈ elements
    · simp [filterElementGeneric, visit, hloop, htag, Order.walkTree, Order.walk, RoseTree.preorder, hroot, Tree.toRoseTree]
    · simp [filterElementGeneric, visit, hloop, htag, Order.walkTree, Order.walk, RoseTree.preorder, hroot, Tree.toRoseTree]
  | postFix =>
    by_cases htag : t.root.tagName ∈ elements
    · simp [filterElementGeneric, visit, hloop, htag, Order.walkTree, Order.walk, RoseTree.postorder, hroot, Tree.toRoseTree]
    · simp [filterElementGeneric, visit, hloop, htag, Order.walkTree, Order.walk, RoseTree.postorder, hroot, Tree.toRoseTree]

theorem Order.mem_walkTree {α : Type} {order : Order} {t : RoseTree α} {p : TreePath} :
    p ∈ order.walkTree t ↔ (t.get? p).isSome := by
  rw [walkTree]
  split
  · rw [RoseTree.mem_postorder, RoseTree.mem_preorder]
  · exact RoseTree.mem_preorder

end Loop

/-! ### The elements on a path -/

/-- Every element on the path stands to its parent as `P` says. -/
def AllSteps (P : Element → Element → Prop) (t : Tree) (p : TreePath) : Prop :=
  ∀ q : TreePath, q ≠ [] → q <+: p → ∀ r e, t.element? q.parent = some r → t.element? q = some e → P r e

theorem element?_zero_cons (root e : Element) (childs next : Nodes) (p : TreePath) :
    (⟨root, .element e childs next⟩ : Tree).element? (0 :: p) = (⟨e, childs⟩ : Tree).element? p := by
  cases p with
  | nil => rfl
  | cons k p => exact Nodes.element?_childs e childs next (List.cons_ne_nil k p)

theorem allSteps_nil (P : Element → Element → Prop) (t : Tree) : AllSteps P t [] :=
  fun _ hq hpre => absurd (List.prefix_nil.mp hpre) hq

theorem allSteps_zero_cons {P : Element → Element → Prop} {root e : Element} {childs next : Nodes} {p : TreePath} :
    AllSteps P ⟨root, .element e childs next⟩ (0 :: p) ↔ P root e ∧ AllSteps P ⟨e, childs⟩ p := by
  constructor
  · intro h
    refine ⟨h [0] (List.cons_ne_nil 0 []) (List.cons_prefix_cons.mpr ⟨rfl, List.nil_prefix⟩) root e rfl rfl, ?_⟩
    intro q hq hpre r e' hr he'
    refine h (0 :: q) (List.cons_ne_nil 0 q) (List.cons_prefix_cons.mpr ⟨rfl, hpre⟩) r e' ?_ ?_
    · rw [TreePath.parent, List.dropLast_cons_of_ne_nil hq, element?_zero_cons]
      exact hr
    · rw [element?_zero_cons]
      exact he'
  · rintro ⟨hroot, hbelow⟩ q hq hpre r e' hr he'
    obtain ⟨q', rfl⟩ : ∃ q', q = 0 :: q' := by
      cases q with
      | nil => exact absurd rfl hq
      | cons j q' => exact ⟨q', by rw [(List.cons_prefix_cons.mp hpre).1]⟩
    rw [element?_zero_cons] at he'
    by_cases hq' : q' = []
    · subst hq'
      cases hr
      cases he'
      exact hroot
    · rw [TreePath.parent, List.dropLast_cons_of_ne_nil hq', element?_zero_cons] at hr
      exact hbelow q' hq' (List.cons_prefix_cons.mp hpre).2 r e' hr he'

theorem allSteps_succ_cons {P : Element → Element → Prop} {root : Element} {nodes next : Nodes}
    (hnext : ∀ k p, nodes.element? ((k + 1) :: p) = next.element? (k :: p)) {k : Nat} {p : TreePath} :
    AllSteps P ⟨root, nodes⟩ ((k + 1) :: p) ↔ AllSteps P ⟨root, next⟩ (k :: p) := by
  have hparent : ∀ q : TreePath, (⟨root, nodes⟩ : Tree).element? (TreePath.parent ((k + 1) :: q)) =
      (⟨root, next⟩ : Tree).element? (TreePath.parent (k :: q)) := by
    intro q
    cases q with
    | nil => rfl
    | cons j q => exact hnext k _
  constructor
  · intro h q hq hpre r e hr he
    cases q with
    | nil => exact absurd rfl hq
    | cons j q =>
      obtain ⟨rfl, hpre'⟩ := List.cons_prefix_cons.mp hpre
      refine h ((j + 1) :: q) (List.cons_ne_nil _ _) (List.cons_prefix_cons.mpr ⟨rfl, hpre'⟩) r e ?_ ?_
      · rw [hparent]
        exact hr
      · rw [Tree.element?_cons, hnext]
        exact he
  · intro h q hq hpre r e hr he
    cases q with
    | nil => exact absurd rfl hq
    | cons j q =>
      obtain ⟨rfl, hpre'⟩ := List.cons_prefix_cons.mp hpre
      refine h (k :: q) (List.cons_ne_nil _ _) (List.cons_prefix_cons.mpr ⟨rfl, hpre'⟩) r e ?_ ?_
      · rw [← hparent]
        exact hr
      · rw [Tree.element?_cons, ← hnext]
        exact he

theorem taken_iff {elements : List (List Char)} {includeEmbeddedDoc : Bool} {root : Element} {nodes : Nodes} {p : TreePath}
    (hp : p ≠ []) : taken elements includeEmbeddedDoc root nodes p = true ↔
      (∃ e, (⟨root, nodes⟩ : Tree).element? p = some e ∧ e.tagName ∈ elements) ∧
        AllSteps (fun r e => entered includeEmbeddedDoc r e = true) ⟨root, nodes⟩ p := by
  induction nodes generalizing root p with
  | nil =>
    have hnone : (⟨root, .nil⟩ : Tree).element? p = none := by
      cases p with
      | nil => exact absurd rfl hp
      | cons k p => exact Nodes.element?_nil (k :: p)
    simp [taken, hnone]
  | other text next ih =>
    match p, hp with
    | 0 :: p, _ =>
      have hnone : (⟨root, .other text next⟩ : Tree).element? (0 :: p) = none := Nodes.other_element?_zero text next p
      simp [taken, hnone]
    | (k + 1) :: p, _ =>
      rw [taken, ih (List.cons_ne_nil k p), allSteps_succ_cons fun k p => Nodes.other_element?_next text next k p]
      rw [Tree.element?_cons, Tree.element?_cons, Nodes.other_element?_next]
  | element e childs next ihc ihn =>
    match p, hp with
    | [0], _ =>
      rw [taken, Bool.and_eq_true, decide_eq_true_eq, allSteps_zero_cons, and_iff_left (allSteps_nil _ _), and_comm]
      refine and_congr_left' ?_
      constructor
      · exact fun h => ⟨e, rfl, h⟩
      · rintro ⟨e', he', h⟩
        cases he'
        exact h
    | 0 :: k :: p, _ =>
      rw [taken, Bool.and_eq_true, ihc (List.cons_ne_nil k p), allSteps_zero_cons, element?_zero_cons]
      exact and_left_comm
    | (k + 1) :: p, _ =>
      rw [taken, ihn (List.cons_ne_nil k p), allSteps_succ_cons fun k p => Nodes.element?_next e childs next k p]
      rw [Tree.element?_cons, Tree.element?_cons, Nodes.element?_next]

theorem exists_parent {root : Element} {nodes : Nodes} {p : TreePath} {e : Element}
    (h : (⟨root, nodes⟩ : Tree).element? p = some e) : ∃ r, (⟨root, nodes⟩ : Tree).element? p.parent = some r := by
  induction nodes generalizing root p with
  | nil =>
    cases p with
    | nil => exact ⟨root, rfl⟩
    | cons k p =>
      rw [Tree.element?_cons, Nodes.element?_nil] at h
      cases h
  | other text next ih =>
    match p with
    | [] => exact ⟨root, rfl⟩
    | 0 :: p =>
      rw [Tree.element?_cons, Nodes.other_element?_zero] at h
      cases h
    | (k + 1) :: p =>
      rw [Tree.element?_cons, Nodes.other_element?_next] at h
      obtain ⟨r, hr⟩ := @ih root (k :: p) h
      cases p with
      | nil => exact ⟨root, rfl⟩
      | cons j p => exact ⟨r, (Nodes.other_element?_next text next k _).trans hr⟩
  | element e' childs next ihc ihn =>
    match p with
    | [] => exact ⟨root, rfl⟩
    | 0 :: p =>
      rw [element?_zero_cons] at h
      obtain ⟨r, hr⟩ := ihc h
      cases p with
      | nil => exact ⟨root, rfl⟩
      | cons j p => exact ⟨r, (element?_zero_cons root e' childs next _).trans hr⟩
    | (k + 1) :: p =>
      rw [Tree.element?_cons, Nodes.element?_next] at h
      obtain ⟨r, hr⟩ := @ihn root (k :: p) h
      cases p with
      | nil => exact ⟨root, rfl⟩
      | cons j p => exact ⟨r, (Nodes.element?_next e' childs next k _).trans hr⟩

/-! ### Embedded documents -/

theorem inEmbedded_iff {t : Tree} {p : TreePath} :
    InEmbedded t p ↔ ¬ AllSteps (fun _ e => e.localName.chars ≠ scxmlName) t p := by
  constructor
  · rintro ⟨q, hq, hpre, e, he, hname⟩ hall
    obtain ⟨r, hr⟩ := exists_parent he
    exact hall q hq hpre r e hr he hname
  · intro hall
    by_contra hnone
    apply hall
    intro q hq hpre r e _ he hname
    exact hnone ⟨q, hq, hpre, e, he, hname⟩

/-- The recursion goes into a child when that is no `<scxml>` with the prefix of its parent. -/
theorem entered_iff {includeEmbeddedDoc : Bool} {r e : Element} : entered includeEmbeddedDoc r e = true ↔
    includeEmbeddedDoc = true ∨ ¬ (e.localName.chars = scxmlName ∧ e.nsPrefix = r.nsPrefix) := by
  have hcolon : ':' ∉ scxmlName := by decide
  rw [entered, Bool.or_eq_true, decide_eq_true_eq, Element.tagName, ne_eq,
    Element.xmlPrefix_append_inj (colon_not_mem e.localName) hcolon, and_comm]

theorem takenAt_iff {elements : List (List Char)} {includeEmbeddedDoc : Bool} {t : Tree} {p : TreePath} :
    takenAt elements includeEmbeddedDoc t p = true ↔ (∃ e, t.element? p = some e ∧ e.tagName ∈ elements) ∧
      (includeEmbeddedDoc = true ∨ AllSteps (fun r e => ¬ (e.localName.chars = scxmlName ∧ e.nsPrefix = r.nsPrefix)) t p) := by
  have hsteps : AllSteps (fun r e => entered includeEmbeddedDoc r e = true) t p ↔ includeEmbeddedDoc = true ∨
      AllSteps (fun r e => ¬ (e.localName.chars = scxmlName ∧ e.nsPrefix = r.nsPrefix)) t p := by
    cases includeEmbeddedDoc with
    | true => exact iff_of_true (fun _ _ _ _ _ _ _ => entered_iff.mpr (Or.inl rfl)) (Or.inl rfl)
    | false => simp [AllSteps, entered_iff]
  rw [takenAt]
  split
  · rename_i hp
    subst hp
    rw [decide_eq_true_eq, and_iff_left (Or.inr (allSteps_nil _ _))]
    constructor
    · exact fun h => ⟨t.root, rfl, h⟩
    · rintro ⟨e, he, h⟩
      cases he
      exact h
  · rename_i hp
    rw [taken_iff hp, hsteps]

/-- Where the recursion goes only into what is asked for. -/
theorem takenAt_iff_asked {elements : List (List Char)} {includeEmbeddedDoc : Bool} {t : Tree} :
    (∀ p, takenAt elements includeEmbeddedDoc t p = true ↔ Asked elements t includeEmbeddedDoc p) ↔
      includeEmbeddedDoc = true ∨ EmbeddedFound elements t := by
  have hweaker : ∀ p, AllSteps (fun _ e => e.localName.chars ≠ scxmlName) t p →
      AllSteps (fun r e => ¬ (e.localName.chars = scxmlName ∧ e.nsPrefix = r.nsPrefix)) t p :=
    fun p h q hq hpre r e hr he hboth => h q hq hpre r e hr he hboth.1
  constructor
  · intro h
    cases includeEmbeddedDoc with
    | true => exact Or.inl rfl
    | false =>
      refine Or.inr ?_
      intro p e he htag hin
      by_contra hnone
      have htaken : takenAt elements false t p = true := by
        refine takenAt_iff.mpr ⟨⟨e, he, htag⟩, Or.inr ?_⟩
        intro q hq hpre r e hr he hboth
        exact hnone ⟨q, hq, hpre, r, e, hr, he, hboth⟩
      exact ((h p).mp htaken).2.elim (nomatch ·) (· hin)
  · intro h p
    rw [takenAt_iff, Asked, inEmbedded_iff, not_not]
    refine and_congr_right ?_
    rintro ⟨e, he, htag⟩
    rcases h with h | h
    · simp [h]
    · refine or_congr_right ⟨?_, hweaker p⟩
      intro hall
      by_contra hin
      obtain ⟨q, hq, hpre, r, e', hr, he', hboth⟩ := h p e he htag (inEmbedded_iff.mpr hin)
      exact hall q hq hpre r e' hr he' hboth

/-! ### The two orders -/

theorem before_or_before {l : List TreePath} {p q : TreePath} (hp : p ∈ l) (hq : q ∈ l) (hne : p ≠ q) :
    Before l p q ∨ Before l q p := by
  induction l with
  | nil => cases hp
  | cons x l ih =>
    rcases List.mem_cons.mp hp with rfl | hmem
    · have hq' : q ∈ l := (List.mem_cons.mp hq).resolve_left hne.symm
      exact Or.inl (List.cons_sublist_cons.mpr (List.singleton_sublist.mpr hq'))
    · rcases List.mem_cons.mp hq with rfl | hq
      · exact Or.inr (List.cons_sublist_cons.mpr (List.singleton_sublist.mpr hmem))
      · exact (ih hmem hq).imp (List.Sublist.cons x) (List.Sublist.cons x)

theorem before_iff {R : TreePath → TreePath → Prop} (hasymm : ∀ p q, R p q → ¬ R q p) {l : List TreePath} (hl : l.Pairwise R)
    {p q : TreePath} (hp : p ∈ l) (hq : q ∈ l) (hne : p ≠ q) : Before l p q ↔ R p q := by
  have hsound : ∀ {p q}, Before l p q → R p q := fun h => List.pairwise_iff_forall_sublist.mp hl h
  constructor
  · exact hsound
  · intro h
    rcases before_or_before hp hq hne with hbefore | hbefore
    · exact hbefore
    · exact absurd (hsound hbefore) (hasymm p q h)

theorem postLt_asymm (p q : TreePath) (h : TreePath.PostLt p q) : ¬ TreePath.PostLt q p := by
  rintro (hbelow | ⟨hpq, hqp, hlt⟩)
  · rcases h with h | ⟨hqp, hpq, -⟩
    · exact h.asymm hbelow
    · exact hpq hbelow.1
  · rcases h with h | ⟨-, -, h⟩
    · exact hqp h.1
    · exact lt_asymm h hlt

/-- Two lists of the same paths, one in preorder and one in postorder. -/
theorem differOnBranches {l m : List TreePath} (hl : l.Pairwise (· < ·)) (hm : m.Pairwise TreePath.PostLt)
    (hsame : ∀ p, p ∈ l → p ∈ m) : DifferOnBranches l m := by
  intro p hp q hq
  have hdocument : p ≠ q → (Before l p q ↔ p < q) := before_iff (fun _ _ => lt_asymm) hl hp hq
  have hpostFix : p ≠ q → (Before m p q ↔ TreePath.PostLt p q) := before_iff postLt_asymm hm (hsame p hp) (hsame q hq)
  constructor
  · intro hpq hqp
    have hne : p ≠ q := fun h => hpq (h ▸ List.prefix_rfl)
    rw [hdocument hne, hpostFix hne]
    constructor
    · exact fun h => Or.inr ⟨hqp, hpq, h⟩
    · rintro (h | ⟨-, -, h⟩)
      · exact absurd h.1 hqp
      · exact h
  · intro hbelow
    refine ⟨(hdocument hbelow.ne.symm).mpr hbelow.lt, ?_⟩
    exact (before_iff postLt_asymm hm (hsame q hq) (hsame p hp) hbelow.ne).mpr (Or.inl hbelow)

theorem differOnBranches_inOrder (elements : List (List Char)) (t : Tree) (includeEmbeddedDoc : Bool) :
    DifferOnBranches (inDocumentOrder elements t includeEmbeddedDoc) (inPostFixOrder elements t includeEmbeddedDoc) := by
  rw [inDocumentOrder, inPostFixOrder, filterElementGeneric_eq (by decide), filterElementGeneric_eq (by decide)]
  refine differOnBranches (t.toRoseTree.preorder_pairwise.filter _) (t.toRoseTree.postorder_pairwise.filter _) ?_
  intro p hp
  rw [List.mem_filter] at hp ⊢
  exact ⟨RoseTree.mem_postorder.mpr hp.1, hp.2⟩

theorem mem_filterElementGeneric {elements : List (List Char)} {t : Tree} {order : Order} (horder : order ≠ .noRecurse)
    {includeEmbeddedDoc : Bool} {p : TreePath} : p ∈ filterElementGeneric elements t order includeEmbeddedDoc true ↔
      takenAt elements includeEmbeddedDoc t p = true := by
  rw [filterElementGeneric_eq horder, List.mem_filter, Order.mem_walkTree]
  refine and_iff_right_of_imp ?_
  intro h
  obtain ⟨⟨e, he, -⟩, -⟩ := takenAt_iff.mp h
  rw [Tree.element?, Option.join_eq_some_iff] at he
  rw [he, Option.isSome_some]

/-- The two traversals list the elements with the given tags as they should where each of these that is in an embedded document
is in one that carries the prefix of its parent. -/
theorem traverses_iff (elements : List (List Char)) (t : Tree) (includeEmbeddedDoc : Bool) :
    Traverses elements t includeEmbeddedDoc ↔ includeEmbeddedDoc = true ∨ EmbeddedFound elements t := by
  have hpostorder : t.toRoseTree.postorder.Nodup := by
    refine t.toRoseTree.postorder_pairwise.imp ?_
    rintro p q h rfl
    exact postLt_asymm p p h h
  rw [← takenAt_iff_asked]
  constructor
  · intro h p
    rw [← h.mem_document, inDocumentOrder, mem_filterElementGeneric (by decide)]
  · intro h
    refine ⟨?_, ?_, ?_, ?_, ?_, ?_, differOnBranches_inOrder elements t includeEmbeddedDoc⟩
    · intro p
      rw [inDocumentOrder, mem_filterElementGeneric (by decide), h]
    · intro p
      rw [inPostFixOrder, mem_filterElementGeneric (by decide), h]
    · rw [inDocumentOrder, filterElementGeneric_eq (by decide)]
      exact t.toRoseTree.preorder_nodup.filter _
    · rw [inPostFixOrder, filterElementGeneric_eq (by decide)]
      exact hpostorder.filter _
    · rw [inDocumentOrder, filterElementGeneric_eq (by decide)]
      exact List.filter_sublist
    · rw [inPostFixOrder, filterElementGeneric_eq (by decide)]
      exact List.filter_sublist

/-! ### Two prefixes for one namespace -/

def scxmlElementName : NcName := ⟨scxmlName, by decide, List.all_eq_true.mp rfl⟩

def invokeName : NcName := ⟨['i', 'n', 'v', 'o', 'k', 'e'], by decide, List.all_eq_true.mp rfl⟩

def contentName : NcName := ⟨['c', 'o', 'n', 't', 'e', 'n', 't'], by decide, List.all_eq_true.mp rfl⟩

def stateName : NcName := ⟨['s', 't', 'a', 't', 'e'], by decide, List.all_eq_true.mp rfl⟩

/-- `<scxml><state id="a"><invoke><content><sc:scxml><state id="b"/></sc:scxml></content></invoke></state></scxml>`, where the
prefix `sc` stands for the default namespace. -/
def twoPrefixes : Tree where
  root := { nsPrefix := none, localName := scxmlElementName, attributes := [
    (['x', 'm', 'l', 'n', 's'], "http://www.w3.org/2005/07/scxml".toList),
    (['x', 'm', 'l', 'n', 's', ':', 's', 'c'], "http://www.w3.org/2005/07/scxml".toList)] }
  childs := .element { nsPrefix := none, localName := stateName, attributes := [(['i', 'd'], ['a'])] }
    (.element { nsPrefix := none, localName := invokeName }
      (.element { nsPrefix := none, localName := contentName }
        (.element { nsPrefix := some ⟨['s', 'c'], by decide, List.all_eq_true.mp rfl⟩, localName := scxmlElementName }
          (.element { nsPrefix := none, localName := stateName, attributes := [(['i', 'd'], ['b'])] } .nil .nil) .nil) .nil) .nil) .nil

/-- The state of the embedded document is listed as one of the outer document. -/
theorem embedded_state_listed : ¬ Traverses [stateName.chars] twoPrefixes false := by
  intro h
  have hlisted : [0, 0, 0, 0, 0] ∈ inDocumentOrder [stateName.chars] twoPrefixes false := by decide +kernel
  have hasked := ((h.mem_document _).mp hlisted).2.resolve_left Bool.false_ne_true
  exact hasked ⟨[0, 0, 0, 0], List.cons_ne_nil _ _, by decide, _, rfl, rfl⟩

end Dom

end Uscxml
