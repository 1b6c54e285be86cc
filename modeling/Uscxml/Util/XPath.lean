import Uscxml.Util.Traversal
import Uscxml.Lib.Pieces

/-!
# `DOMUtils::xPathForNode`

A path to an element is written from its end on, one step for each ancestor, and begins with the nearest ancestor that has an
`id`. The interpreter keeps the state of its invokers under such paths.
-/

namespace Uscxml

namespace Dom

/-- `nsPrefix`. -/
def pathPrefix (ns : List Char) : List Char := if ns.length > 0 then ns ++ [':'] else []

def nameTest (ns tagName : List Char) : List Char :=
  if ns = ['*'] then "*[local-name() = \"".toList ++ tagName ++ ['"', ']'] else pathPrefix ns ++ tagName

/-- The text for an element with an `id`. -/
def anchorText (ns tagName id : List Char) : List Char :=
  ['/', '/'] ++ nameTest ns tagName ++ ['[', '@', 'i', 'd', '=', '"'] ++ id ++ ['"', ']']

def stepText (ns tagName : List Char) (index : Nat) : List Char :=
  ['/'] ++ nameTest ns tagName ++ ['['] ++ Nat.toDigits 10 index ++ [']']

/-- The loop of `xPathForNode` over an element and its ancestors. -/
def xPathLoop (ns : List Char) : List (Element × List Element) → List Char → List Char
  | [], xPath => xPath
  | (elem, previous) :: up, xPath =>
    if elem.hasAttr idName then anchorText ns elem.tagName (elem.attr idName) ++ xPath
    else xPathLoop ns up (stepText ns elem.tagName (countSiblings elem 1 previous) ++ xPath)

def xPathForNode (ns : List Char) (document : Nodes) (p : TreePath) : List Char :=
  ((ancestry document p).map fun up => xPathLoop ns up []).getD []

/-- One round of the loop of `serialize` over the `<invoke>` elements: the state of an invoker that runs is put under the path
of its element. -/
def saveInvoker {δ : Type} (document : Nodes) (running : TreePath → Option δ) (saved : List Char → Option δ) (p : TreePath) :
    List Char → Option δ :=
  match running p with
  | some data => Function.update saved (xPathForNode [] document p) (some data)
  | none => saved

def saveInvokers {δ : Type} (document : Nodes) (running : TreePath → Option δ) (invokes : List TreePath) : List Char → Option δ :=
  invokes.foldl (saveInvoker document running) fun _ => none

/-! ### The texts -/

def shapeText (ns : List Char) (anchor : Option (List Char × List Char)) : List (List Char × Nat) → List Char
  | [] => anchor.elim [] fun a => anchorText ns a.1 a.2
  | (tagName, index) :: steps => shapeText ns anchor steps ++ stepText ns tagName index

theorem xPathLoop_eq (ns : List Char) (up : List (Element × List Element)) (xPath : List Char) :
    xPathLoop ns up xPath = shapeText ns (shape 1 up).1 (shape 1 up).2 ++ xPath := by
  induction up generalizing xPath with
  | nil => rfl
  | cons level up ih =>
    obtain ⟨elem, previous⟩ := level
    rw [xPathLoop, shape]
    split
    · rfl
    · rw [ih, shapeText, List.append_assoc]

/-- A tag name has none of the characters that stand around it in a path. -/
structure Plain (tagName : List Char) : Prop where
  slash : '/' ∉ tagName
  bracket : '[' ∉ tagName
  quote : '"' ∉ tagName

theorem plain_tagName (e : Element) : Plain e.tagName := by
  have hnot : ∀ c, isNameChar c = false → c ≠ ':' → c ∉ e.tagName := by
    intro c hc hcolon hmem
    rw [Element.tagName, Element.xmlPrefix, List.mem_append] at hmem
    rcases hmem with hmem | hmem
    · cases hp : e.nsPrefix with
      | none =>
        rw [hp] at hmem
        cases hmem
      | some name =>
        rw [hp, Option.elim_some, List.mem_append, List.mem_singleton] at hmem
        rcases hmem with hmem | hmem
        · rw [name.legal c hmem] at hc
          cases hc
        · exact hcolon hmem
    · rw [e.localName.legal c hmem] at hc
      cases hc
  exact ⟨hnot '/' (by decide) (by decide), hnot '[' (by decide) (by decide), hnot '"' (by decide) (by decide)⟩

theorem nameTest_inj {ns t u x y : List Char} (ht : Plain t) (hu : Plain u)
    (h : x ++ '/' :: nameTest ns t = y ++ '/' :: nameTest ns u) : x = y ∧ t = u := by
  rw [nameTest, nameTest] at h
  split at h
  · have hcut : x ++ ('/' :: "*[local-name() = \"".toList) ++ t = y ++ ('/' :: "*[local-name() = \"".toList) ++ u := by
      apply (List.append_left_inj ['"', ']']).mp
      simpa only [List.append_assoc, List.cons_append] using h
    exact List.append_cut_inj List.mem_cons_self ht.slash hu.slash hcut
  · have hcut : x ++ ('/' :: pathPrefix ns) ++ t = y ++ ('/' :: pathPrefix ns) ++ u := by
      simpa only [List.append_assoc, List.cons_append] using h
    exact List.append_cut_inj List.mem_cons_self ht.slash hu.slash hcut

theorem toDigits_inj {m n : Nat} (h : Nat.toDigits 10 m = Nat.toDigits 10 n) : m = n := by
  rw [← Nat.ofDigitChars_ten_toDigits (n := m), h, Nat.ofDigitChars_ten_toDigits]

theorem isDigit_of_mem_toDigits (n : Nat) : ∀ c ∈ Nat.toDigits 10 n, c.isDigit = true :=
  fun _ hc => Nat.isDigit_of_mem_toDigits (by decide) (by decide) hc

theorem not_mem_toDigits {c : Char} (hc : c.isDigit = false) (n : Nat) : c ∉ Nat.toDigits 10 n := by
  intro hmem
  rw [isDigit_of_mem_toDigits n c hmem] at hc
  cases hc

theorem stepText_inj {ns t u x y : List Char} {i j : Nat} (ht : Plain t) (hu : Plain u)
    (h : x ++ stepText ns t i = y ++ stepText ns u j) : x = y ∧ t = u ∧ i = j := by
  have hbracket : ∀ n, '[' ∉ Nat.toDigits 10 n ++ [']'] := by
    intro n hmem
    rcases List.mem_append.mp hmem with hmem | hmem
    · exact not_mem_toDigits (by decide) n hmem
    · exact absurd (List.mem_singleton.mp hmem) (by decide)
  have hcut : (x ++ '/' :: nameTest ns t) ++ '[' :: (Nat.toDigits 10 i ++ [']']) =
      (y ++ '/' :: nameTest ns u) ++ '[' :: (Nat.toDigits 10 j ++ [']']) := by
    simpa only [stepText, List.append_assoc, List.cons_append, List.nil_append] using h
  obtain ⟨hfront, hdigits⟩ := List.last_cut_inj (hbracket i) (hbracket j) hcut
  obtain ⟨hxy, htu⟩ := nameTest_inj ht hu hfront
  exact ⟨hxy, htu, toDigits_inj (List.append_cancel_right hdigits)⟩

theorem anchorText_inj {ns t u id id' : List Char} (ht : Plain t) (hu : Plain u)
    (h : anchorText ns t id = anchorText ns u id') : t = u ∧ id = id' := by
  rw [anchorText, anchorText, nameTest, nameTest] at h
  split at h
  · have hcut : t ++ '"' :: (']' :: ['[', '@', 'i', 'd', '=', '"'] ++ id) =
        u ++ '"' :: (']' :: ['[', '@', 'i', 'd', '=', '"'] ++ id') := by
      apply (List.append_right_inj (['/', '/'] ++ "*[local-name() = \"".toList)).mp
      apply (List.append_left_inj ['"', ']']).mp
      simpa only [List.append_assoc, List.cons_append, List.nil_append] using h
    obtain ⟨htu, hid⟩ := List.first_cut_inj ht.quote hu.quote hcut
    exact ⟨htu, List.append_cancel_left hid⟩
  · have hcut : t ++ '[' :: (['@', 'i', 'd', '=', '"'] ++ id) = u ++ '[' :: (['@', 'i', 'd', '=', '"'] ++ id') := by
      apply (List.append_right_inj (['/', '/'] ++ pathPrefix ns)).mp
      apply (List.append_left_inj ['"', ']']).mp
      simpa only [List.append_assoc, List.cons_append, List.nil_append] using h
    obtain ⟨htu, hid⟩ := List.first_cut_inj ht.bracket hu.bracket hcut
    exact ⟨htu, List.append_cancel_left hid⟩

theorem stepText_ne_anchorText {ns t u x id : List Char} {i : Nat} : x ++ stepText ns t i ≠ anchorText ns u id := by
  intro h
  obtain ⟨digits, d, hdigits⟩ := (List.eq_nil_or_concat' (Nat.toDigits 10 i)).resolve_left Nat.toDigits_ne_nil
  have hd : d.isDigit = true := by
    apply isDigit_of_mem_toDigits i
    rw [hdigits]
    exact List.mem_append_right digits List.mem_cons_self
  have hlast : (x ++ ['/'] ++ nameTest ns t ++ ['['] ++ digits) ++ [d] =
      (['/', '/'] ++ nameTest ns u ++ ['[', '@', 'i', 'd', '=', '"'] ++ id) ++ ['"'] := by
    apply (List.append_left_inj [']']).mp
    rw [stepText, anchorText, hdigits] at h
    simpa only [List.append_assoc, List.cons_append, List.nil_append] using h
  obtain rfl := List.singleton_inj.mp (List.append_inj_right' hlast rfl)
  revert hd
  decide

theorem shapeText_inj {ns : List Char} {a b : Option (List Char × List Char)} {s r : List (List Char × Nat)}
    (ha : ∀ x ∈ a, Plain x.1) (hb : ∀ x ∈ b, Plain x.1) (hs : ∀ x ∈ s, Plain x.1) (hr : ∀ x ∈ r, Plain x.1)
    (h : shapeText ns a s = shapeText ns b r) : (a, s) = (b, r) := by
  induction s generalizing r with
  | nil =>
    cases r with
    | nil =>
      cases a with
      | none =>
        cases b with
        | none => rfl
        | some y => cases h
      | some x =>
        cases b with
        | none => cases h
        | some y =>
          obtain ⟨htag, hid⟩ := anchorText_inj (ha x rfl) (hb y rfl) h
          rw [Prod.ext htag hid]
    | cons step r =>
      cases a with
      | none => simp [shapeText, stepText] at h
      | some x => exact absurd h.symm stepText_ne_anchorText
  | cons step s ih =>
    obtain ⟨t, i⟩ := step
    cases r with
    | nil =>
      cases b with
      | none => simp [shapeText, stepText] at h
      | some y => exact absurd h stepText_ne_anchorText
    | cons step r =>
      obtain ⟨u, j⟩ := step
      obtain ⟨hrest, rfl, rfl⟩ := stepText_inj (hs _ List.mem_cons_self) (hr _ List.mem_cons_self) h
      have hall := ih (fun x hx => hs x (List.mem_cons_of_mem _ hx)) (fun x hx => hr x (List.mem_cons_of_mem _ hx)) hrest
      obtain ⟨rfl, rfl⟩ := Prod.mk.inj hall
      rfl

/-! ### Elements and their paths -/

theorem plain_shape (up : List (Element × List Element)) :
    (∀ x ∈ (shape 1 up).1, Plain x.1) ∧ ∀ x ∈ (shape 1 up).2, Plain x.1 := by
  induction up with
  | nil => exact ⟨fun x hx => absurd hx (Option.not_mem_none x), fun x hx => absurd hx List.not_mem_nil⟩
  | cons level up ih =>
    obtain ⟨elem, previous⟩ := level
    rw [shape]
    split
    · refine ⟨?_, fun x hx => absurd hx List.not_mem_nil⟩
      rintro x ⟨⟩
      exact plain_tagName elem
    · refine ⟨ih.1, ?_⟩
      intro x hx
      rcases List.mem_cons.mp hx with rfl | hx
      · exact plain_tagName elem
      · exact ih.2 x hx

theorem exists_descend {document : Nodes} {p : TreePath} {e : Element} (h : document.element? p = some e) :
    ∃ m up, descend p document [] = some (m, up) := by
  rcases List.eq_nil_or_concat' p with rfl | ⟨p, k, rfl⟩
  · exact ⟨document, [], rfl⟩
  · rw [element?_concat p k document [], Option.bind_eq_some_iff] at h
    obtain ⟨⟨n, u⟩, hn, h⟩ := h
    obtain ⟨c, hc, -⟩ := Option.map_eq_some_iff.mp h
    refine ⟨c.childs, (c.element, c.previous) :: u, ?_⟩
    rw [descend_append, hn, Option.bind_some, descend, hc, Option.bind_some]
    rfl

/-- Different elements have different paths, whatever the namespace that is asked for. -/
theorem xPathForNode_inj {document : Nodes} (hids : UniqueIds document) (ns : List Char) {p q : TreePath} {e f : Element}
    (hp : document.element? p = some e) (hq : document.element? q = some f)
    (h : xPathForNode ns document p = xPathForNode ns document q) : p = q := by
  obtain ⟨m, up, hup⟩ := exists_descend hp
  obtain ⟨n, uq, huq⟩ := exists_descend hq
  rw [xPathForNode, xPathForNode, ancestry, ancestry, hup, huq] at h
  change xPathLoop ns up [] = xPathLoop ns uq [] at h
  rw [xPathLoop_eq, xPathLoop_eq, List.append_nil, List.append_nil] at h
  obtain ⟨hanchor, hsteps⟩ := plain_shape up
  obtain ⟨hanchor', hsteps'⟩ := plain_shape uq
  exact eq_of_shape hids hup huq (shapeText_inj hanchor hanchor' hsteps hsteps' h)

theorem saveInvoker_eq {δ : Type} {document : Nodes} {p q : TreePath}
    (hkey : xPathForNode [] document q = xPathForNode [] document p → q = p) (running : TreePath → Option δ)
    (saved : List Char → Option δ) : saveInvoker document running saved q (xPathForNode [] document p) =
      if q = p then (running p).or (saved (xPathForNode [] document p)) else saved (xPathForNode [] document p) := by
  rw [saveInvoker]
  by_cases hqp : q = p
  · subst hqp
    rw [if_pos rfl]
    cases running q with
    | none => rfl
    | some data => exact Function.update_self _ _ _
  · rw [if_neg hqp]
    cases running q with
    | none => rfl
    | some data => exact Function.update_of_ne (fun h => hqp (hkey h.symm)) _ _

/-- Each `<invoke>` finds under its path what was saved for it. -/
theorem saveInvokers_eq {δ : Type} {document : Nodes} (hids : UniqueIds document) (running : TreePath → Option δ)
    {invokes : List TreePath} (hinvokes : ∀ p ∈ invokes, (document.element? p).isSome) {p : TreePath} (hp : p ∈ invokes) :
    saveInvokers document running invokes (xPathForNode [] document p) = running p := by
  have hkey : ∀ q ∈ invokes, xPathForNode [] document q = xPathForNode [] document p → q = p := by
    intro q hq h
    obtain ⟨e, he⟩ := Option.isSome_iff_exists.mp (hinvokes q hq)
    obtain ⟨f, hf⟩ := Option.isSome_iff_exists.mp (hinvokes p hp)
    exact xPathForNode_inj hids [] he hf h
  have hfold : ∀ saved : List Char → Option δ, invokes.foldl (saveInvoker document running) saved (xPathForNode [] document p) =
      if p ∈ invokes then (running p).or (saved (xPathForNode [] document p)) else saved (xPathForNode [] document p) := by
    clear hp hinvokes
    induction invokes with
    | nil => exact fun saved => rfl
    | cons q invokes ih =>
      intro saved
      rw [List.foldl_cons, ih fun q hq => hkey q (List.mem_cons_of_mem _ hq), saveInvoker_eq (hkey q List.mem_cons_self)]
      by_cases hqp : q = p
      · subst hqp
        cases running q <;> simp
      · have hmem : p ∈ q :: invokes ↔ p ∈ invokes := by
          rw [List.mem_cons, or_iff_right (Ne.symm hqp)]
        simp only [if_neg hqp, hmem]
  rw [saveInvokers, hfold, if_pos hp, Option.or_none]

/-- Where the ids are unique for each tag, different elements have different paths, and the saved states of the invokers do not
collide. -/
theorem xPaths_identify {document : Nodes} (hids : UniqueIds document) :
    (∀ ns p q, (document.element? p).isSome → (document.element? q).isSome →
      xPathForNode ns document p = xPathForNode ns document q → p = q) ∧
    ∀ (δ : Type) (running : TreePath → Option δ) (invokes : List TreePath), (∀ p ∈ invokes, (document.element? p).isSome) →
      ∀ p ∈ invokes, saveInvokers document running invokes (xPathForNode [] document p) = running p := by
  constructor
  · intro ns p q hp hq h
    obtain ⟨e, he⟩ := Option.isSome_iff_exists.mp hp
    obtain ⟨f, hf⟩ := Option.isSome_iff_exists.mp hq
    exact xPathForNode_inj hids ns he hf h
  · intro δ running invokes hinvokes p hp
    exact saveInvokers_eq hids running hinvokes hp

def twoInvokes : Nodes :=
  .element { nsPrefix := none, localName := invokeName, attributes := [(idName, ['a'])] } .nil
    (.element { nsPrefix := none, localName := invokeName } .nil .nil)

theorem uniqueIds_twoInvokes : UniqueIds twoInvokes := by
  have honly : ∀ p e, twoInvokes.element? p = some e → e.hasAttr idName = true → p = [0] := by
    intro p e he hid
    match p with
    | [] => rw [Nodes.element?_nil_path] at he; cases he
    | [0] => rfl
    | [1] => cases he; exact absurd hid (by decide)
    | 0 :: k :: p => cases he
    | 1 :: k :: p => cases he
    | (k + 2) :: p => cases p <;> cases he
  intro p q e f he hf _ hid hid' _
  rw [honly p e he hid, honly q f hf hid']

theorem xPaths_identify_twoInvokes :
    xPathForNode [] twoInvokes [0] ≠ xPathForNode [] twoInvokes [1] ∧
      ∀ running : TreePath → Option Nat,
        saveInvokers twoInvokes running [[0], [1]] (xPathForNode [] twoInvokes [1]) = running [1] := by
  obtain ⟨hpaths, hsaved⟩ := xPaths_identify uniqueIds_twoInvokes
  constructor
  · intro h
    exact absurd (hpaths [] [0] [1] rfl rfl h) (by decide)
  · intro running
    exact hsaved Nat running [[0], [1]] (by decide) [1] (by decide)

end Dom

end Uscxml
