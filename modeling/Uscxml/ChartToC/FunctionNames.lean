import Uscxml.Util.XPath

/-!
# The names of the generated functions

`writeExecContentFinalize` and `writeExecContent` write the functions of a machine under names that `DOMUtils::idForNode` makes
from the elements they belong to. What tells two elements apart is read off such a name from its end: the digits, the tag
before them, and so on up to an `id`, of which any text may have been folded into the name.
-/

namespace Uscxml

namespace ChartToC

namespace FunctionNames

open Dom

/-! ### `DOMUtils::idForNode` -/

/-- The two calls of `std::replace`. -/
def foldId (elementId : List Char) : List Char :=
  (elementId.map fun c => if c = '.' then '_' else c).map fun c => if c = ',' then '_' else c

/-- The loop over an element and its ancestors. -/
def idLoop : List (Element × List Element) → List Char → List Char → List Char
  | [], nodeId, _ => nodeId
  | (elem, previous) :: up, nodeId, seperator =>
    if elem.hasAttr idName then foldId (elem.attr idName) ++ seperator ++ nodeId
    else idLoop up (elem.tagName ++ Nat.toDigits 10 (countSiblings elem 0 previous) ++ seperator ++ nodeId) ['_']

/-! ### The elements of a machine -/

def finalName : List Char := ['f', 'i', 'n', 'a', 'l']

def parallelName : List Char := ['p', 'a', 'r', 'a', 'l', 'l', 'e', 'l']

def transitionName : List Char := ['t', 'r', 'a', 'n', 's', 'i', 't', 'i', 'o', 'n']

def finalizeName : List Char := ['f', 'i', 'n', 'a', 'l', 'i', 'z', 'e']

def onexitName : List Char := ['o', 'n', 'e', 'x', 'i', 't']

def onentryName : List Char := ['o', 'n', 'e', 'n', 't', 'r', 'y']

def condName : List Char := ['c', 'o', 'n', 'd']

/-- The tags of what `prepare` takes for states. -/
def stateTags (scxml : Element) : List (List Char) :=
  [scxmlName, stateName.chars, finalName, historyName, initialName, parallelName].map (scxml.xmlPrefix ++ ·)

def states (t : Tree) : List TreePath := inDocumentOrder (stateTags t.root) t false

def subtree? (t : Tree) (p : TreePath) : Option Tree :=
  (t.element? p).bind fun e => (descend p t.childs []).map fun r => ⟨e, r.1⟩

/-- `DOMUtils::filterChildElements` for one element. -/
def filterChildElements (tagName : List Char) (t : Tree) (p : TreePath) : List TreePath :=
  (subtree? t p).elim [] fun s => (filterElementGeneric [tagName] s .noRecurse true false).map (p ++ ·)

def transitions (t : Tree) : List TreePath :=
  (inPostFixOrder (stateTags t.root) t false).flatMap (filterChildElements (t.root.xmlPrefix ++ transitionName) t)

/-- The `<finalize>` elements that `writeExecContentFinalize` goes through. -/
def finalizes (t : Tree) : List TreePath := inDocumentOrder [t.root.xmlPrefix ++ finalizeName] t false

def childElements : Nat → Nodes → List Nat
  | _, .nil => []
  | k, .element _ _ next => k :: childElements (k + 1) next
  | k, .other _ next => childElements (k + 1) next

/-- `DOMUtils::filterChildType` for elements. -/
def execContent (t : Tree) (p : TreePath) : List TreePath :=
  (subtree? t p).elim [] fun s => (childElements 0 s.childs).map fun k => p ++ [k]

/-- The states, transitions and `<finalize>` elements of a machine. -/
def named (t : Tree) : List TreePath := states t ++ transitions t ++ finalizes t

/-! ### The functions -/

/-- What a name has behind the text for the element. -/
inductive Suffix where
  | onExit (j : Nat) | onExits | onEntry (j : Nat) | onEntries | invoke | isEnabled | onTrans
  /-- The function of a `<finalize>`. -/
  | bare
  deriving DecidableEq, Repr

namespace Suffix

inductive Kind where
  | onExit | onExits | onEntry | onEntries | invoke | isEnabled | onTrans | bare
  deriving DecidableEq, Repr

def Kind.chars : Kind → List Char
  | onExit => ['_', 'o', 'n', '_', 'e', 'x', 'i', 't', '_']
  | onExits => ['_', 'o', 'n', '_', 'e', 'x', 'i', 't']
  | onEntry => ['_', 'o', 'n', '_', 'e', 'n', 't', 'r', 'y', '_']
  | onEntries => ['_', 'o', 'n', '_', 'e', 'n', 't', 'r', 'y']
  | invoke => ['_', 'i', 'n', 'v', 'o', 'k', 'e']
  | isEnabled => ['_', 'i', 's', '_', 'e', 'n', 'a', 'b', 'l', 'e', 'd']
  | onTrans => ['_', 'o', 'n', '_', 't', 'r', 'a', 'n', 's']
  | bare => []

def kind : Suffix → Kind
  | onExit _ => .onExit
  | onExits => .onExits
  | onEntry _ => .onEntry
  | onEntries => .onEntries
  | invoke => .invoke
  | isEnabled => .isEnabled
  | onTrans => .onTrans
  | bare => .bare

def number : Suffix → List Char
  | onExit j => Nat.toDigits 10 j
  | onEntry j => Nat.toDigits 10 j
  | _ => []

def chars (s : Suffix) : List Char := s.kind.chars ++ s.number

end Suffix

/-- A function: the element it belongs to, and what its name has behind the text for that. -/
@[ext]
structure Function where
  element : TreePath
  suffix : Suffix
  deriving DecidableEq

/-- One round of the loop of `writeExecContentFinalize`. -/
def finalizeFunctions (t : Tree) (finalize : TreePath) : List Function :=
  if (execContent t finalize).length > 0 then [⟨finalize, .bare⟩] else []

/-- One round of the loop of `writeExecContent` over the states. -/
def stateFunctions (t : Tree) (state : TreePath) : List Function :=
  (t.element? state).elim [] fun e =>
    let onexits := filterChildElements (e.xmlPrefix ++ onexitName) t state
    let onentrys := filterChildElements (e.xmlPrefix ++ onentryName) t state
    let invokes := filterChildElements (e.xmlPrefix ++ invokeName.chars) t state
    (List.range onexits.length).map (fun j => ⟨state, .onExit j⟩) ++ (if onexits.length > 0 then [⟨state, .onExits⟩] else []) ++
      (List.range onentrys.length).map (fun j => ⟨state, .onEntry j⟩) ++
      (if onentrys.length > 0 then [⟨state, .onEntries⟩] else []) ++ (if invokes.length > 0 then [⟨state, .invoke⟩] else [])

/-- One round of the loop over the transitions. -/
def transitionFunctions (t : Tree) (transition : TreePath) : List Function :=
  (t.element? transition).elim [] fun e =>
    (if e.hasAttr condName then [⟨transition, .isEnabled⟩] else []) ++
      if (execContent t transition).length > 0 then [⟨transition, .onTrans⟩] else []

def functions (t : Tree) : List Function :=
  (finalizes t).flatMap (finalizeFunctions t) ++ (states t).flatMap (stateFunctions t) ++
    (transitions t).flatMap (transitionFunctions t)

/-! ### Machines -/

/-- The elements above those that functions belong to have names as the standard's elements have them, without an underscore and
without a digit at their end. -/
def Standard (e : Element) : Prop := '_' ∉ e.localName.chars ∧ ∀ c ∈ e.localName.chars.getLast?, c.isDigit = false

/-- The prefix of one element does not end with an underscore and that of the other. -/
def Apart (e f : Element) : Prop := ∀ x ∈ e.nsPrefix, ∀ y ∈ f.nsPrefix, ¬ '_' :: y.chars <:+ x.chars

/-- An element below the root that is, or stands above, one that functions belong to. -/
def OnPath (t : Tree) (e : Element) : Prop :=
  ∃ p ∈ named t, ∃ up, ancestry t.childs p = some up ∧ ∃ previous, (e, previous) ∈ up

/-- A machine: its `_prefix`, the `<scxml>` with what is below, before and above it. No two elements have one `id`. -/
structure Machine where
  namePrefix : List Char
  tree : Tree
  previous : List Element
  above : List (Element × List Element)
  root_scxml : tree.root.localName.chars = scxmlName
  ids : ∀ p q e f, tree.element? p = some e → tree.element? q = some f → e.hasAttr idName = true → f.hasAttr idName = true →
    e.attr idName = f.attr idName → p = q
  standard : ∀ e, OnPath tree e → Standard e
  apart : ∀ e f, OnPath tree e → OnPath tree f → Apart e f

namespace Machine

def levels (m : Machine) (p : TreePath) : List (Element × List Element) :=
  (descend p m.tree.childs ((m.tree.root, m.previous) :: m.above)).elim [] (·.2)

def idForNode (m : Machine) (p : TreePath) : List Char := idLoop (m.levels p) [] []

def name (m : Machine) (f : Function) : List Char := m.namePrefix ++ ['_'] ++ m.idForNode f.element ++ f.suffix.chars

/-- Different elements have different texts, and different functions have different names. -/
def UniqueNames (m : Machine) : Prop :=
  (∀ p ∈ named m.tree, ∀ q ∈ named m.tree, m.idForNode p = m.idForNode q → p = q) ∧
    ∀ f ∈ functions m.tree, ∀ g ∈ functions m.tree, m.name f = m.name g → f = g

end Machine

/-! ### What the names say -/

/-- A text with steps behind it, of which the list has the last one first. -/
def spelled (text : List Char) : List (List Char × Nat) → List Char
  | [] => text
  | (tagName, index) :: steps => spelled text steps ++ '_' :: (tagName ++ Nat.toDigits 10 index)

/-- The text for an element, of which the ancestors are given, from its nearest `id` on or from the document on. -/
def upperText (up : List (Element × List Element)) : List Char :=
  match shape 0 up with
  | (some anchor, steps) => spelled (foldId anchor.2) steps
  | (none, steps) => (spelled [] steps).tail

namespace Machine

/-- The nearest element below the root with an `id`, and the steps down from there or from the root. -/
def position (m : Machine) (p : TreePath) : Option (List Char × List Char) × List (List Char × Nat) :=
  shape 0 ((ancestry m.tree.childs p).getD [])

def base (m : Machine) (p : TreePath) : List Char :=
  (m.position p).1.elim (upperText ((m.tree.root, m.previous) :: m.above)) fun anchor => foldId anchor.2

def steps (m : Machine) (p : TreePath) : List (List Char × Nat) := (m.position p).2

/-- The steps to one element are the last ones of those to another, and its nearest `id` reads like the nearest one of the other
with the steps that remain. -/
def Clash (m : Machine) (p q : TreePath) : Prop :=
  (m.position p).1 ≠ (m.position q).1 ∧ ∃ rest, m.steps q = m.steps p ++ rest ∧ m.base p = spelled (m.base q) rest

/-- The `id` of a `<finalize>` reads like the name of a function of another element. -/
def FinalizeClash (m : Machine) (finalize : TreePath) (f : Function) : Prop :=
  ∃ e, m.tree.element? finalize = some e ∧ e.hasAttr idName = true ∧
    foldId (e.attr idName) = spelled (m.base f.element) (m.steps f.element) ++ f.suffix.chars

/-- No two nearest ids and no `id` of a `<finalize>` mislead. -/
structure Unambiguous (m : Machine) : Prop where
  elements : ∀ p ∈ named m.tree, ∀ q ∈ named m.tree, ¬ m.Clash p q
  finalizes : ∀ finalize, ⟨finalize, .bare⟩ ∈ functions m.tree → ∀ f ∈ functions m.tree, f.suffix ≠ .bare →
    ¬ m.FinalizeClash finalize f

end Machine

theorem spelled_append (text : List Char) (s r : List (List Char × Nat)) :
    spelled text (s ++ r) = spelled (spelled text r) s := by
  induction s with
  | nil => rfl
  | cons step s ih => rw [List.cons_append, spelled, spelled, ih]

theorem spelled_ne_nil (text : List Char) {s : List (List Char × Nat)} (hs : s ≠ []) : spelled text s ≠ [] := by
  cases s with
  | nil => exact absurd rfl hs
  | cons step s => exact List.append_ne_nil_of_right_ne_nil _ (List.cons_ne_nil _ _)

theorem upperText_cons {elem : Element} {previous : List Element} {up : List (Element × List Element)} (hup : up ≠ [])
    (hid : ¬ elem.hasAttr idName = true) : upperText ((elem, previous) :: up) =
      upperText up ++ '_' :: (elem.tagName ++ Nat.toDigits 10 (countSiblings elem 0 previous)) := by
  rw [upperText, upperText, shape, if_neg hid]
  cases hshape : shape 0 up with
  | mk anchor steps =>
    cases anchor with
    | some anchor => rfl
    | none =>
      have hsteps : steps ≠ [] := by
        rintro rfl
        exact hup (shape_eq_nil hshape)
      exact List.tail_append_of_ne_nil (spelled_ne_nil [] hsteps)

theorem idLoop_eq {up : List (Element × List Element)} (hup : up ≠ []) (nodeId seperator : List Char) :
    idLoop up nodeId seperator = upperText up ++ seperator ++ nodeId := by
  induction up generalizing nodeId seperator with
  | nil => exact absurd rfl hup
  | cons level up ih =>
    obtain ⟨elem, previous⟩ := level
    rw [idLoop]
    split
    · rename_i hid
      rw [upperText, shape, if_pos hid]
      rfl
    · rename_i hid
      by_cases hnil : up = []
      · subst hnil
        rw [upperText, shape, if_neg hid, idLoop]
        rfl
      · rw [ih hnil, upperText_cons hnil hid]
        simp only [List.append_assoc, List.cons_append, List.nil_append]

theorem idLoop_append {rest : List (Element × List Element)} (hrest : rest ≠ []) (up : List (Element × List Element))
    (nodeId seperator : List Char) : idLoop (up ++ rest) nodeId seperator =
      spelled ((shape 0 up).1.elim (upperText rest) fun anchor => foldId anchor.2) (shape 0 up).2 ++ seperator ++ nodeId := by
  induction up generalizing nodeId seperator with
  | nil => exact idLoop_eq hrest nodeId seperator
  | cons level up ih =>
    obtain ⟨elem, previous⟩ := level
    rw [List.cons_append, idLoop, shape]
    split
    · rfl
    · rw [ih, spelled]
      simp only [List.append_assoc, List.cons_append, List.nil_append]

theorem descend_up (p : TreePath) (nodes : Nodes) (up rest : List (Element × List Element)) :
    descend p nodes (up ++ rest) = (descend p nodes up).map fun r => (r.1, r.2 ++ rest) := by
  induction p generalizing nodes up with
  | nil => rfl
  | cons k p ih =>
    rw [descend, descend, Option.map_bind]
    exact congrArg _ (funext fun c => ih c.childs ((c.element, c.previous) :: up))

theorem Machine.position_eq (m : Machine) {p : TreePath} {n : Nodes} {up : List (Element × List Element)}
    (hp : descend p m.tree.childs [] = some (n, up)) : m.position p = shape 0 up := by
  rw [position, ancestry, hp, Option.map_some, Option.getD_some]

theorem Machine.idForNode_eq (m : Machine) {p : TreePath} {n : Nodes} {up : List (Element × List Element)}
    (hp : descend p m.tree.childs [] = some (n, up)) : m.idForNode p = spelled (m.base p) (m.steps p) := by
  have hlevels : m.levels p = up ++ (m.tree.root, m.previous) :: m.above := by
    have hup := descend_up p m.tree.childs [] ((m.tree.root, m.previous) :: m.above)
    rw [List.nil_append] at hup
    rw [levels, hup, hp, Option.map_some, Option.elim_some]
  rw [idForNode, hlevels, idLoop_append (List.cons_ne_nil _ _), base, steps, m.position_eq hp, List.append_nil, List.append_nil]

/-! ### Reading from the end -/

theorem local_ne_prefixed {x y l r : List Char} (hunderscore : '_' ∉ l) (hunderscore' : '_' ∉ r) (hl : ':' ∉ l) (hr : ':' ∉ r)
    (p : NcName) : x ++ '_' :: l ≠ y ++ '_' :: (p.chars ++ ':' :: r) := by
  intro h
  have hrun : ∀ {l : List Char}, '_' ∉ l → ':' ∉ l → ∀ z ∈ l, z ≠ '_' ∧ z ≠ ':' := by
    intro l hl hl' z hz
    exact ⟨fun h => hl (h ▸ hz), fun h => hl' (h ▸ hz)⟩
  have hcut : x ++ '_' :: l = (y ++ '_' :: p.chars) ++ ':' :: r := by
    rw [h, List.append_assoc, List.cons_append]
  have hchar := (List.run_cut_inj (fun z => z ≠ '_' ∧ z ≠ ':') (by decide) (by decide) (hrun hunderscore hl)
    (hrun hunderscore' hr) hcut).2.1
  exact absurd hchar (by decide)

theorem tagName_inj {e f : Element} (he : Standard e) (hf : Standard f) (hef : Apart e f) (hfe : Apart f e) {x y : List Char}
    (h : x ++ '_' :: e.tagName = y ++ '_' :: f.tagName) : x = y ∧ e.tagName = f.tagName := by
  have hl := colon_not_mem e.localName
  have hr := colon_not_mem f.localName
  rw [Element.tagName, Element.tagName] at h ⊢
  cases hp : e.nsPrefix with
  | none =>
    rw [Element.xmlPrefix_of_none hp] at h ⊢
    cases hq : f.nsPrefix with
    | none =>
      rw [Element.xmlPrefix_of_none hq] at h ⊢
      exact List.last_cut_inj he.1 hf.1 h
    | some q =>
      rw [Element.xmlPrefix_of_some hq] at h
      exact absurd h (local_ne_prefixed he.1 hf.1 hl hr q)
  | some p =>
    rw [Element.xmlPrefix_of_some hp] at h ⊢
    cases hq : f.nsPrefix with
    | none =>
      rw [Element.xmlPrefix_of_none hq] at h
      exact absurd h.symm (local_ne_prefixed hf.1 he.1 hr hl p)
    | some q =>
      rw [Element.xmlPrefix_of_some hq] at h ⊢
      have hcut : (x ++ '_' :: p.chars) ++ ':' :: e.localName.chars = (y ++ '_' :: q.chars) ++ ':' :: f.localName.chars := by
        simpa only [List.append_assoc, List.cons_append] using h
      obtain ⟨hfront, hlocal⟩ := List.last_cut_inj hl hr hcut
      rw [hlocal]
      rcases List.append_eq_append_iff.mp hfront with ⟨w, hy, hw⟩ | ⟨w, hx, hw⟩
      · cases w with
        | nil =>
          rw [hy, List.append_nil, (List.cons.inj hw).2]
          exact ⟨rfl, rfl⟩
        | cons z w => exact absurd ⟨w, (List.cons.inj hw).2.symm⟩ (hef p hp q hq)
      · cases w with
        | nil =>
          rw [hx, List.append_nil, (List.cons.inj hw).2]
          exact ⟨rfl, rfl⟩
        | cons z w => exact absurd ⟨w, (List.cons.inj hw).2.symm⟩ (hfe q hq p hp)

theorem step_inj {e f : Element} (he : Standard e) (hf : Standard f) (hef : Apart e f) (hfe : Apart f e) {x y : List Char}
    {i j : Nat} (h : x ++ '_' :: (e.tagName ++ Nat.toDigits 10 i) = y ++ '_' :: (f.tagName ++ Nat.toDigits 10 j)) :
    x = y ∧ e.tagName = f.tagName ∧ i = j := by
  have hlast : ∀ {e : Element}, Standard e → ∃ w c, e.tagName = w ++ [c] ∧ ¬ c.isDigit = true := by
    intro e he
    obtain ⟨w, c, hw⟩ := (List.eq_nil_or_concat' e.localName.chars).resolve_left e.localName.ne_nil
    refine ⟨e.xmlPrefix ++ w, c, ?_, ?_⟩
    · rw [Element.tagName, hw, List.append_assoc]
    · rw [he.2 c (by rw [hw, List.getLast?_concat]; rfl)]
      exact Bool.false_ne_true
  obtain ⟨w, c, hw, hc⟩ := hlast he
  obtain ⟨v, d, hv, hd⟩ := hlast hf
  have hcut : (x ++ '_' :: w) ++ c :: Nat.toDigits 10 i = (y ++ '_' :: v) ++ d :: Nat.toDigits 10 j := by
    rw [hw, hv] at h
    simpa only [List.append_assoc, List.cons_append, List.nil_append] using h
  obtain ⟨hfront, hchar, hdigits⟩ := List.run_cut_inj (fun z => z.isDigit = true) hc hd (isDigit_of_mem_toDigits i)
    (isDigit_of_mem_toDigits j) hcut
  have htag : x ++ '_' :: e.tagName = y ++ '_' :: f.tagName := by
    rw [hw, hv, ← hchar, ← List.cons_append, ← List.cons_append, ← List.append_assoc, ← List.append_assoc, hfront]
  obtain ⟨hxy, htagName⟩ := tagName_inj he hf hef hfe htag
  exact ⟨hxy, htagName, toDigits_inj hdigits⟩

theorem length_le_spelled (text : List Char) (s : List (List Char × Nat)) : text.length + s.length ≤ (spelled text s).length := by
  induction s with
  | nil => exact le_rfl
  | cons step s ih =>
    rw [spelled, List.length_append, List.length_cons, List.length_cons]
    omega

theorem eq_nil_of_spelled_eq {text : List Char} {s : List (List Char × Nat)} (h : text = spelled text s) : s = [] := by
  have hlength := length_le_spelled text s
  rw [← h] at hlength
  apply List.eq_nil_of_length_eq_zero
  omega

namespace Machine

def Reads (m : Machine) (s : List (List Char × Nat)) : Prop := ∀ step ∈ s, ∃ e, OnPath m.tree e ∧ e.tagName = step.1

/-- Where two texts are one, the steps of the one are the last steps of the other. -/
theorem spelled_cases (m : Machine) {x y : List Char} {s r : List (List Char × Nat)} (hs : m.Reads s) (hr : m.Reads r)
    (h : spelled x s = spelled y r) :
    (∃ rest, r = s ++ rest ∧ x = spelled y rest) ∨ ∃ rest, s = r ++ rest ∧ y = spelled x rest := by
  induction s generalizing r with
  | nil => exact Or.inl ⟨r, rfl, h⟩
  | cons step s ih =>
    cases r with
    | nil => exact Or.inr ⟨step :: s, rfl, h.symm⟩
    | cons step' r =>
      obtain ⟨e, he, htag⟩ := hs step List.mem_cons_self
      obtain ⟨f, hf, htag'⟩ := hr step' List.mem_cons_self
      rw [spelled, spelled, ← htag, ← htag'] at h
      obtain ⟨hrest, heq, hindex⟩ :=
        step_inj (m.standard e he) (m.standard f hf) (m.apart e f he hf) (m.apart f e hf he) h
      have hstep : step = step' := Prod.ext (htag.symm.trans (heq.trans htag')) hindex
      have hs' : m.Reads s := fun z hz => hs z (List.mem_cons_of_mem step hz)
      have hr' : m.Reads r := fun z hz => hr z (List.mem_cons_of_mem step' hz)
      rw [hstep]
      rcases ih hs' hr' hrest with ⟨rest, rfl, hx⟩ | ⟨rest, rfl, hy⟩
      · exact Or.inl ⟨rest, rfl, hx⟩
      · exact Or.inr ⟨rest, rfl, hy⟩

end Machine

/-! ### The elements that functions belong to -/

theorem exists_of_mem_inDocumentOrder {elements : List (List Char)} {t : Tree} {p : TreePath}
    (hp : p ∈ inDocumentOrder elements t false) : ∃ e, t.element? p = some e ∧ e.tagName ∈ elements := by
  rw [inDocumentOrder, mem_filterElementGeneric (by decide)] at hp
  exact (takenAt_iff.mp hp).1

theorem mem_childLoop {elements : List (List Char)} {includeEmbeddedDoc : Bool} {root : Element} {path p : TreePath} {k : Nat}
    {nodes : Nodes} {result : List TreePath} (hp : p ∈ childLoop elements .noRecurse includeEmbeddedDoc root path k nodes result) :
    p ∈ result ∨ ∃ j e, p = path ++ [k + j] ∧ nodes.element? [j] = some e ∧ e.tagName ∈ elements := by
  have hshift : ∀ {next : Nodes} {k : Nat} {result : List TreePath} {nodes : Nodes},
      (∀ j, nodes.element? [j + 1] = next.element? [j]) →
      (p ∈ result ∨ ∃ j e, p = path ++ [k + 1 + j] ∧ next.element? [j] = some e ∧ e.tagName ∈ elements) →
      p ∈ result ∨ ∃ j e, p = path ++ [k + j] ∧ nodes.element? [j] = some e ∧ e.tagName ∈ elements := by
    intro next k result nodes hnext h
    refine h.imp_right ?_
    rintro ⟨j, e, hp, he, htag⟩
    exact ⟨j + 1, e, by rw [hp, Nat.add_assoc, Nat.add_comm 1 j], (hnext j).trans he, htag⟩
  induction nodes generalizing k result with
  | nil => exact Or.inl hp
  | other text next ih =>
    rw [childLoop] at hp
    exact hshift (fun j => Nodes.other_element?_next text next j []) (ih hp)
  | element e childs next _ ihn =>
    rw [childLoop] at hp
    rcases hshift (fun j => Nodes.element?_next e childs next j []) (ihn hp) with hresult | hlater
    · split at hresult
      · split at hresult
        · rename_i htag
          rcases List.mem_append.mp hresult with hresult | hself
          · exact Or.inl hresult
          · exact Or.inr ⟨0, e, List.mem_singleton.mp hself, rfl, htag⟩
        · exact Or.inl hresult
      · rename_i hne
        exact absurd rfl hne
    · exact Or.inr hlater

theorem exists_of_mem_filterChildElements {tagName : List Char} {t : Tree} {r p : TreePath}
    (hp : p ∈ filterChildElements tagName t r) : ∃ k e, p = r ++ [k] ∧ t.element? p = some e ∧ e.tagName = tagName := by
  rw [filterChildElements] at hp
  cases hsubtree : subtree? t r with
  | none =>
    rw [hsubtree] at hp
    cases hp
  | some s =>
    rw [hsubtree, Option.elim_some, List.mem_map] at hp
    obtain ⟨p, hp, rfl⟩ := hp
    rw [subtree?, Option.bind_eq_some_iff] at hsubtree
    obtain ⟨root, -, hsubtree⟩ := hsubtree
    obtain ⟨⟨n, up⟩, hdescend, rfl⟩ := Option.map_eq_some_iff.mp hsubtree
    rcases mem_childLoop hp with hnil | ⟨k, e, rfl, he, htag⟩
    · cases hnil
    · refine ⟨k, e, by rw [Nat.zero_add, List.nil_append], ?_, List.mem_singleton.mp htag⟩
      rw [Nat.zero_add, List.nil_append, t.element?_concat, element?_concat r k t.childs [], hdescend, Option.bind_some]
      rw [Nodes.element?_cons n [] k []] at he
      rw [← he, Option.map_eq_bind]
      exact congrArg _ (funext fun c => (if_pos rfl).symm)

theorem exists_element_of_mem_named {t : Tree} {p : TreePath} (hp : p ∈ named t) : ∃ e, t.element? p = some e := by
  rw [named, List.mem_append, List.mem_append] at hp
  rcases hp with (hp | hp) | hp
  · obtain ⟨e, he, -⟩ := exists_of_mem_inDocumentOrder hp
    exact ⟨e, he⟩
  · obtain ⟨r, -, hp⟩ := List.mem_flatMap.mp hp
    obtain ⟨k, e, -, he, -⟩ := exists_of_mem_filterChildElements hp
    exact ⟨e, he⟩
  · obtain ⟨e, he, -⟩ := exists_of_mem_inDocumentOrder hp
    exact ⟨e, he⟩

theorem exists_descend_of_mem_named {t : Tree} {p : TreePath} (hp : p ∈ named t) :
    ∃ n up, descend p t.childs [] = some (n, up) := by
  obtain ⟨e, he⟩ := exists_element_of_mem_named hp
  cases p with
  | nil => exact ⟨t.childs, [], rfl⟩
  | cons k p => exact exists_descend he

theorem exists_of_mem_shape {start : Nat} {up : List (Element × List Element)} {step : List Char × Nat}
    (hstep : step ∈ (shape start up).2) : ∃ e previous, (e, previous) ∈ up ∧ e.tagName = step.1 := by
  induction up with
  | nil => cases hstep
  | cons level up ih =>
    obtain ⟨elem, previous⟩ := level
    rw [shape] at hstep
    split at hstep
    · cases hstep
    · rcases List.mem_cons.mp hstep with rfl | hstep
      · exact ⟨elem, previous, List.mem_cons_self, rfl⟩
      · obtain ⟨e, previous', hmem, htag⟩ := ih hstep
        exact ⟨e, previous', List.mem_cons_of_mem _ hmem, htag⟩

namespace Machine

theorem reads_steps (m : Machine) {p : TreePath} (hp : p ∈ named m.tree) : m.Reads (m.steps p) := by
  intro step hstep
  obtain ⟨n, up, hdescend⟩ := exists_descend_of_mem_named hp
  rw [steps, m.position_eq hdescend] at hstep
  obtain ⟨e, previous, hmem, htag⟩ := exists_of_mem_shape hstep
  refine ⟨e, ⟨p, hp, up, ?_, previous, hmem⟩, htag⟩
  rw [ancestry, hdescend, Option.map_some]

theorem uniqueIds (m : Machine) : UniqueIds m.tree.childs := by
  intro p q e f he hf _ hid hid' hattr
  cases p with
  | nil =>
    rw [Nodes.element?_nil_path] at he
    cases he
  | cons j p =>
    cases q with
    | nil =>
      rw [Nodes.element?_nil_path] at hf
      cases hf
    | cons k q => exact m.ids (j :: p) (k :: q) e f he hf hid hid' hattr

theorem clash_of_idForNode_eq (m : Machine) {p q : TreePath} (hp : p ∈ named m.tree) (hq : q ∈ named m.tree)
    (h : m.idForNode p = m.idForNode q) : p = q ∨ m.Clash p q ∨ m.Clash q p := by
  obtain ⟨n, up, hdescend⟩ := exists_descend_of_mem_named hp
  obtain ⟨n', uq, hdescend'⟩ := exists_descend_of_mem_named hq
  rw [m.idForNode_eq hdescend, m.idForNode_eq hdescend'] at h
  have hcases := m.spelled_cases (m.reads_steps hp) (m.reads_steps hq) h
  by_cases hanchor : (m.position p).1 = (m.position q).1
  · -- From one base only the same steps lead to one text.
    have hbase : m.base p = m.base q := by rw [base, base, hanchor]
    have hsteps : m.steps p = m.steps q := by
      rcases hcases with ⟨rest, hsteps, htext⟩ | ⟨rest, hsteps, htext⟩
      · rw [hbase] at htext
        rw [hsteps, eq_nil_of_spelled_eq htext, List.append_nil]
      · rw [hbase] at htext
        rw [hsteps, eq_nil_of_spelled_eq htext, List.append_nil]
    have hshape : shape 0 up = shape 0 uq := by
      rw [← m.position_eq hdescend, ← m.position_eq hdescend']
      exact Prod.ext hanchor hsteps
    exact Or.inl (eq_of_shape m.uniqueIds hdescend hdescend' hshape)
  · exact Or.inr (hcases.imp (fun h => ⟨hanchor, h⟩) (fun h => ⟨Ne.symm hanchor, h⟩))

theorem idForNode_eq_of_clash (m : Machine) {p q : TreePath} (hp : p ∈ named m.tree) (hq : q ∈ named m.tree)
    (h : m.Clash p q) : m.idForNode p = m.idForNode q := by
  obtain ⟨n, up, hdescend⟩ := exists_descend_of_mem_named hp
  obtain ⟨n', uq, hdescend'⟩ := exists_descend_of_mem_named hq
  obtain ⟨-, rest, hsteps, hbase⟩ := h
  rw [m.idForNode_eq hdescend, m.idForNode_eq hdescend', hsteps, spelled_append, ← hbase]

end Machine

/-! ### The suffixes -/

namespace Suffix

theorem Kind.eq_of_suffix {a b : Kind} (ha : a ≠ bare) (h : a.chars <:+ b.chars) : a = b := by
  revert ha h
  cases a <;> cases b <;> decide

theorem Kind.exists_chars {a : Kind} (ha : a ≠ bare) : ∃ w c, a.chars = w ++ [c] ∧ ¬ c.isDigit = true := by
  have hne : a.chars ≠ [] := by
    revert ha
    cases a <;> decide
  have hlast : a.chars.getLast?.any Char.isDigit = false := by cases a <;> rfl
  obtain ⟨w, c, hw⟩ := (List.eq_nil_or_concat' a.chars).resolve_left hne
  rw [hw, List.getLast?_concat, Option.any_some] at hlast
  exact ⟨w, c, hw, Bool.eq_false_iff.mp hlast⟩

theorem kind_ne_bare {s : Suffix} (hs : s ≠ bare) : s.kind ≠ .bare := by
  cases s with
  | bare => exact absurd rfl hs
  | _ => exact nofun

theorem eq_of_kind_of_number {s r : Suffix} (hkind : s.kind = r.kind) (hnumber : s.number = r.number) : s = r := by
  cases s with
  | onExit i =>
    cases r with
    | onExit j => exact congrArg onExit (toDigits_inj hnumber)
    | _ => cases hkind
  | onEntry i =>
    cases r with
    | onEntry j => exact congrArg onEntry (toDigits_inj hnumber)
    | _ => cases hkind
  | _ => cases r <;> first | rfl | cases hkind

theorem isDigit_of_mem_number (s : Suffix) : ∀ c ∈ s.number, c.isDigit = true := by
  cases s with
  | onExit j => exact isDigit_of_mem_toDigits j
  | onEntry j => exact isDigit_of_mem_toDigits j
  | _ => exact fun c hc => nomatch hc

theorem chars_inj {s r : Suffix} (hs : s ≠ bare) (hr : r ≠ bare) {x y : List Char} (h : x ++ s.chars = y ++ r.chars) :
    x = y ∧ s = r := by
  obtain ⟨w, c, hw, hc⟩ := Kind.exists_chars (kind_ne_bare hs)
  obtain ⟨v, d, hv, hd⟩ := Kind.exists_chars (kind_ne_bare hr)
  have hcut : (x ++ w) ++ c :: s.number = (y ++ v) ++ d :: r.number := by
    rw [chars, chars, hw, hv] at h
    simpa only [List.append_assoc, List.cons_append, List.nil_append] using h
  obtain ⟨hfront, hchar, hnumber⟩ := List.run_cut_inj (fun z => z.isDigit = true) hc hd s.isDigit_of_mem_number
    r.isDigit_of_mem_number hcut
  have hkinds : x ++ s.kind.chars = y ++ r.kind.chars := by
    rw [hw, hv, ← hchar, ← List.append_assoc, ← List.append_assoc, hfront]
  have hkind : s.kind = r.kind := by
    rcases List.suffix_or_suffix_of_suffix (List.suffix_append x s.kind.chars) ⟨y, hkinds.symm⟩ with hsuffix | hsuffix
    · exact Kind.eq_of_suffix (kind_ne_bare hs) hsuffix
    · exact (Kind.eq_of_suffix (kind_ne_bare hr) hsuffix).symm
  rw [hkind] at hkinds
  exact ⟨List.append_cancel_right hkinds, eq_of_kind_of_number hkind hnumber⟩

/-- What ends with the tag of a `<finalize>` and a number does not end with a suffix. -/
theorem chars_ne_finalize {s : Suffix} (hs : s ≠ bare) (x y xmlPrefix : List Char) (index : Nat) :
    x ++ '_' :: (xmlPrefix ++ finalizeName ++ Nat.toDigits 10 index) ≠ y ++ s.chars := by
  intro h
  obtain ⟨w, c, hw, hc⟩ := Kind.exists_chars (kind_ne_bare hs)
  have hcut : (x ++ '_' :: (xmlPrefix ++ ['f', 'i', 'n', 'a', 'l', 'i', 'z'])) ++ 'e' :: Nat.toDigits 10 index =
      (y ++ w) ++ c :: s.number := by
    rw [chars, hw] at h
    simpa only [finalizeName, List.append_assoc, List.cons_append, List.nil_append] using h
  obtain ⟨-, hchar, hnumber⟩ := List.run_cut_inj (fun z => z.isDigit = true) (by decide) hc (isDigit_of_mem_toDigits index)
    s.isDigit_of_mem_number hcut
  have hlast : s.kind.chars.getLast? = some 'e' := by rw [hw, List.getLast?_concat, hchar]
  cases s with
  | onExit j => exact absurd hlast (show ¬ Kind.onExit.chars.getLast? = some 'e' by decide)
  | onEntry j => exact absurd hlast (show ¬ Kind.onEntry.chars.getLast? = some 'e' by decide)
  | _ => exact Nat.toDigits_ne_nil hnumber

end Suffix

/-! ### The functions of an element -/

theorem of_mem_finalizeFunctions {t : Tree} {p : TreePath} {f : Function} (hf : f ∈ finalizeFunctions t p) :
    f.element = p ∧ f.suffix = .bare := by
  rw [finalizeFunctions, List.mem_ite_nil_right, List.mem_singleton] at hf
  rw [hf.2]
  exact ⟨rfl, rfl⟩

theorem of_mem_stateFunctions {t : Tree} {p : TreePath} {f : Function} (hf : f ∈ stateFunctions t p) :
    f.element = p ∧ f.suffix ≠ .bare := by
  rw [stateFunctions] at hf
  cases he : t.element? p with
  | none =>
    rw [he] at hf
    cases hf
  | some e =>
    rw [he] at hf
    simp only [Option.elim_some, List.mem_append, List.mem_map, List.mem_ite_nil_right, List.mem_singleton] at hf
    rcases hf with (((⟨j, -, rfl⟩ | ⟨-, rfl⟩) | ⟨j, -, rfl⟩) | ⟨-, rfl⟩) | ⟨-, rfl⟩ <;> exact ⟨rfl, nofun⟩

theorem of_mem_transitionFunctions {t : Tree} {p : TreePath} {f : Function} (hf : f ∈ transitionFunctions t p) :
    f.element = p ∧ f.suffix ≠ .bare := by
  rw [transitionFunctions] at hf
  cases he : t.element? p with
  | none =>
    rw [he] at hf
    cases hf
  | some e =>
    rw [he] at hf
    simp only [Option.elim_some, List.mem_append, List.mem_ite_nil_right, List.mem_singleton] at hf
    rcases hf with ⟨-, rfl⟩ | ⟨-, rfl⟩ <;> exact ⟨rfl, nofun⟩

theorem mem_functions_cases {t : Tree} {f : Function} (hf : f ∈ functions t) :
    (f.element ∈ finalizes t ∧ f.suffix = .bare) ∨ (f.element ∈ states t ++ transitions t ∧ f.suffix ≠ .bare) := by
  rw [functions, List.mem_append, List.mem_append] at hf
  rcases hf with (hf | hf) | hf
  · obtain ⟨p, hp, hf⟩ := List.mem_flatMap.mp hf
    obtain ⟨helement, hsuffix⟩ := of_mem_finalizeFunctions hf
    exact Or.inl ⟨helement ▸ hp, hsuffix⟩
  · obtain ⟨p, hp, hf⟩ := List.mem_flatMap.mp hf
    obtain ⟨helement, hsuffix⟩ := of_mem_stateFunctions hf
    exact Or.inr ⟨List.mem_append_left _ (helement ▸ hp), hsuffix⟩
  · obtain ⟨p, hp, hf⟩ := List.mem_flatMap.mp hf
    obtain ⟨helement, hsuffix⟩ := of_mem_transitionFunctions hf
    exact Or.inr ⟨List.mem_append_right _ (helement ▸ hp), hsuffix⟩

theorem element_mem_named {t : Tree} {f : Function} (hf : f ∈ functions t) : f.element ∈ named t := by
  rcases mem_functions_cases hf with ⟨hfinalize, -⟩ | ⟨helement, -⟩
  · exact List.mem_append_right _ hfinalize
  · exact List.mem_append_left _ helement

theorem mem_finalizes {t : Tree} {f : Function} (hf : f ∈ functions t) (hbare : f.suffix = .bare) : f.element ∈ finalizes t := by
  rcases mem_functions_cases hf with ⟨hfinalize, -⟩ | ⟨-, hsuffix⟩
  · exact hfinalize
  · exact absurd hbare hsuffix

namespace Machine

/-- The text for a `<finalize>` is its `id`, or ends with its tag and its number. -/
theorem idForNode_finalize (m : Machine) {p : TreePath} (hp : p ∈ finalizes m.tree) {e : Element}
    (he : m.tree.element? p = some e) : (e.hasAttr idName = true → m.idForNode p = foldId (e.attr idName)) ∧
      (¬ e.hasAttr idName = true → ∃ x index,
        m.idForNode p = x ++ '_' :: (m.tree.root.xmlPrefix ++ finalizeName ++ Nat.toDigits 10 index)) := by
  obtain ⟨e', he', htag⟩ := exists_of_mem_inDocumentOrder hp
  obtain rfl : e = e' := Option.some.inj (he.symm.trans he')
  rw [List.mem_singleton] at htag
  rcases List.eq_nil_or_concat' p with rfl | ⟨r, k, rfl⟩
  · -- The root is no `<finalize>`.
    cases he
    rw [Element.tagName, m.root_scxml] at htag
    exact absurd (List.append_cancel_left htag) (by decide)
  · obtain ⟨n, up, hdescend⟩ := exists_descend_of_mem_named (List.mem_append_right _ hp)
    obtain ⟨_, u, c, -, -, rfl, helement⟩ := exists_of_descend_concat hdescend
    rw [m.tree.element?_concat, helement] at he
    cases he
    have hposition := m.position_eq hdescend
    rw [shape] at hposition
    rw [m.idForNode_eq hdescend, base, steps, hposition, ← htag]
    constructor
    · intro hid
      rw [if_pos hid]
      rfl
    · intro hid
      rw [if_neg hid]
      exact ⟨_, _, rfl⟩

/-- A function of a `<finalize>` has the name of another function where the `id` misleads. -/
theorem finalizeClash_iff (m : Machine) {p : TreePath} (hp : p ∈ finalizes m.tree) {f : Function} (hf : f ∈ functions m.tree)
    (hsuffix : f.suffix ≠ .bare) : m.FinalizeClash p f ↔ m.idForNode p = m.idForNode f.element ++ f.suffix.chars := by
  obtain ⟨e, he⟩ := exists_element_of_mem_named (List.mem_append_right (states m.tree ++ transitions m.tree) hp)
  obtain ⟨hown, hnone⟩ := m.idForNode_finalize hp he
  obtain ⟨n, up, hdescend⟩ := exists_descend_of_mem_named (element_mem_named hf)
  rw [m.idForNode_eq hdescend]
  constructor
  · rintro ⟨e', he', hid, htext⟩
    obtain rfl : e = e' := Option.some.inj (he.symm.trans he')
    rw [hown hid, htext]
  · intro htext
    by_cases hid : e.hasAttr idName = true
    · exact ⟨e, he, hid, (hown hid).symm.trans htext⟩
    · obtain ⟨x, index, hfinalize⟩ := hnone hid
      rw [hfinalize] at htext
      exact absurd htext (Suffix.chars_ne_finalize hsuffix _ _ _ _)

theorem name_eq_iff (m : Machine) {f g : Function} :
    m.name f = m.name g ↔ m.idForNode f.element ++ f.suffix.chars = m.idForNode g.element ++ g.suffix.chars := by
  rw [name, name, List.append_assoc, List.append_assoc (m.namePrefix ++ ['_']), List.append_cancel_left_eq]

theorem Unambiguous.eq_of_idForNode_eq {m : Machine} (hm : m.Unambiguous) {p q : TreePath} (hp : p ∈ named m.tree)
    (hq : q ∈ named m.tree) (h : m.idForNode p = m.idForNode q) : p = q := by
  rcases m.clash_of_idForNode_eq hp hq h with hpq | hclash | hclash
  · exact hpq
  · exact absurd hclash (hm.elements p hp q hq)
  · exact absurd hclash (hm.elements q hq p hp)

theorem Unambiguous.eq_of_name_eq {m : Machine} (hm : m.Unambiguous) {f g : Function} (hf : f ∈ functions m.tree)
    (hg : g ∈ functions m.tree) (h : m.name f = m.name g) : f = g := by
  -- A function of a `<finalize>` and another one.
  have hmixed : ∀ {f g : Function}, f ∈ functions m.tree → g ∈ functions m.tree → f.suffix = .bare → g.suffix ≠ .bare →
      m.name f ≠ m.name g := by
    intro f g hf hg hbare hsuffix h
    have hf' : ⟨f.element, .bare⟩ ∈ functions m.tree := hbare ▸ hf
    rw [name_eq_iff, hbare] at h
    refine hm.finalizes f.element hf' g hg hsuffix ?_
    exact (m.finalizeClash_iff (mem_finalizes hf hbare) hg hsuffix).mpr ((List.append_nil _).symm.trans h)
  have helements : m.idForNode f.element = m.idForNode g.element → f.element = g.element :=
    hm.eq_of_idForNode_eq (element_mem_named hf) (element_mem_named hg)
  by_cases hfbare : f.suffix = .bare
  · by_cases hgbare : g.suffix = .bare
    · rw [name_eq_iff, hfbare, hgbare] at h
      exact Function.ext (helements (List.append_cancel_right h)) (hfbare.trans hgbare.symm)
    · exact absurd h (hmixed hf hg hfbare hgbare)
  · by_cases hgbare : g.suffix = .bare
    · exact absurd h.symm (hmixed hg hf hgbare hfbare)
    · obtain ⟨hnodes, hsuffix⟩ := Suffix.chars_inj hfbare hgbare (m.name_eq_iff.mp h)
      exact Function.ext (helements hnodes) hsuffix

/-- The names of a machine are unique just where no two nearest ids and no `id` of a `<finalize>` mislead. -/
theorem uniqueNames_iff (m : Machine) : m.UniqueNames ↔ m.Unambiguous := by
  constructor
  · intro h
    constructor
    · intro p hp q hq hclash
      have hpq := h.1 p hp q hq (m.idForNode_eq_of_clash hp hq hclash)
      exact hclash.1 (by rw [hpq])
    · intro finalize hfinalize f hf hsuffix hclash
      have htext := (m.finalizeClash_iff (mem_finalizes hfinalize rfl) hf hsuffix).mp hclash
      have hname : m.name ⟨finalize, .bare⟩ = m.name f := m.name_eq_iff.mpr ((List.append_nil _).trans htext)
      exact hsuffix (h.2 _ hfinalize f hf hname ▸ rfl)
  · intro hm
    exact ⟨fun p hp q hq => hm.eq_of_idForNode_eq hp hq, fun f hf g hg => hm.eq_of_name_eq hf hg⟩

end Machine

/-! ### Two ids for one text -/

def stateWithId (id : List Char) : Element := { nsPrefix := none, localName := stateName, attributes := [(idName, id)] }

def onentryElement : Element := { nsPrefix := none, localName := ⟨onentryName, by decide, List.all_eq_true.mp rfl⟩ }

/-- `<scxml><state id="a.b"><onentry/></state><state id="a_b"><onentry/></state></scxml>`. -/
def twoIds : Tree where
  root := { nsPrefix := none, localName := scxmlElementName }
  childs := .element (stateWithId ['a', '.', 'b']) (.element onentryElement .nil .nil)
    (.element (stateWithId ['a', '_', 'b']) (.element onentryElement .nil .nil) .nil)

theorem named_twoIds : named twoIds = [[], [0], [1]] := by decide +kernel

theorem onPath_twoIds {e : Element} (he : OnPath twoIds e) : ∃ id, e = stateWithId id := by
  obtain ⟨p, hp, up, hup, previous, hmem⟩ := he
  rw [named_twoIds] at hp
  rcases List.mem_cons.mp hp with rfl | hp
  · cases hup
    cases hmem
  · rcases List.mem_cons.mp hp with rfl | hp
    · cases hup
      exact ⟨_, (Prod.mk.inj (List.mem_singleton.mp hmem)).1⟩
    · cases List.mem_singleton.mp hp
      cases hup
      exact ⟨_, (Prod.mk.inj (List.mem_singleton.mp hmem)).1⟩

theorem id_twoIds {p : TreePath} {e : Element} (he : twoIds.element? p = some e) (hid : e.hasAttr idName = true) :
    (p = [0] ∧ e.attr idName = ['a', '.', 'b']) ∨ (p = [1] ∧ e.attr idName = ['a', '_', 'b']) := by
  match p with
  | [] => cases he; exact absurd hid (by decide)
  | [0] => cases he; exact Or.inl ⟨rfl, rfl⟩
  | [1] => cases he; exact Or.inr ⟨rfl, rfl⟩
  | [0, 0] => cases he; exact absurd hid (by decide)
  | [1, 0] => cases he; exact absurd hid (by decide)
  | 0 :: 0 :: k :: p => cases he
  | 1 :: 0 :: k :: p => cases he
  | 0 :: (k + 1) :: p => cases he
  | 1 :: (k + 1) :: p => cases he
  | (k + 2) :: p => cases he

def twoIdsMachine : Machine where
  namePrefix := ['_', 'u', 's', 'c', 'x', 'm', 'l']
  tree := twoIds
  previous := []
  above := []
  root_scxml := rfl
  ids := by
    intro p q e f he hf hid hid' hattr
    rcases id_twoIds he hid with ⟨rfl, hp⟩ | ⟨rfl, hp⟩
    · rcases id_twoIds hf hid' with ⟨rfl, hq⟩ | ⟨rfl, hq⟩
      · rfl
      · rw [hp, hq] at hattr
        exact absurd hattr (by decide)
    · rcases id_twoIds hf hid' with ⟨rfl, hq⟩ | ⟨rfl, hq⟩
      · rw [hp, hq] at hattr
        exact absurd hattr (by decide)
      · rfl
  standard := by
    intro e he
    obtain ⟨id, rfl⟩ := onPath_twoIds he
    have hunderscore : '_' ∉ stateName.chars := by decide
    refine ⟨hunderscore, ?_⟩
    rintro c ⟨⟩
    rfl
  apart := by
    intro e f he hf x hx
    obtain ⟨id, rfl⟩ := onPath_twoIds he
    cases hx

/-- Both states have a function `_uscxml_a_b_on_entry_0`. -/
theorem not_uniqueNames_twoIds : ¬ twoIdsMachine.UniqueNames := by
  intro h
  have hfunctions : functions twoIdsMachine.tree =
      [⟨[0], .onEntry 0⟩, ⟨[0], .onEntries⟩, ⟨[1], .onEntry 0⟩, ⟨[1], .onEntries⟩] := by
    decide +kernel
  have hsame := h.2 ⟨[0], .onEntry 0⟩ (by rw [hfunctions]; decide) ⟨[1], .onEntry 0⟩ (by rw [hfunctions]; decide)
    (by decide +kernel)
  exact absurd hsame (by decide)

end FunctionNames

end ChartToC

end Uscxml
