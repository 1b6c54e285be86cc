import Uscxml.ChartToPromela.Literals
import Uscxml.ChartToPromela.TokenPositions
import Uscxml.Lib.Splice

/-!
# Promela code with prefixes and macros

`PromelaCodeAnalyzer::adaptCode` puts a prefix in front of the variables of a text and macros in the place of its string
literals. The second pass reads what the first one has written, but looks for the ends of lines in the text as it was.
-/

namespace Uscxml

namespace ChartToPromela

/-- What flex and bison do with a text: its matches, and the nodes for a sequence of types. -/
structure PromelaParser where
  lex : List Char → List Lexeme
  parse : List TokenType → Option (Forest AstLabel)

def PromelaParser.ast (parser : PromelaParser) (text : List Char) : Option (Forest AstLabel) :=
  parser.parse ((parser.lex text).map Lexeme.type)

/-! ### addCode -/

/-- The nodes at the top of a forest, each with its operands. -/
def astNodes : Forest AstLabel → List (AstLabel × Forest AstLabel)
  | .nil => []
  | .cons label operands next => (label, operands) :: astNodes next

/-- The text of a node that was made for a token. -/
def valueOf (lexemes : List Lexeme) (label : AstLabel) : Literal :=
  (label.token.bind fun i => (lexemes.map Lexeme.text)[i]?).getD []

def unquoted (value : Literal) : Literal := if ['\''] <+: value then (value.drop 1).take (value.length - 2) else value

/-- The loop over the operands of a compound, which adds literals for some members of events. -/
def compoundLiterals (value : AstLabel → Literal) (nameOfType separator : Literal) :
    List (AstLabel × Forest AstLabel) → List Literal
  | [] => []
  | (label, operands) :: rest =>
    let name := match label.type with
      | .name => separator ++ value label
      | .varArray => separator ++ ((astNodes operands).head?.map fun node => value node.1).getD []
      | _ => []
    let nameOfType := nameOfType ++ name
    let separator := if label.type = .name then ['_'] else separator
    (if nameOfType = "_event_type".toList then ["internal".toList, "external".toList, "platform".toList] else []) ++
      (if nameOfType = "_event_origintype".toList then ["http://www.w3.org/TR/scxml/#SCXMLEventProcessor".toList]
        else []) ++
      compoundLiterals value nameOfType separator rest

/-- The literals `addCode` adds for a queue of nodes. It stops at a compound that does not begin with a name, and does not
look below compounds, nor beside one that is assigned to. -/
def queueLiterals (value : AstLabel → Literal) : Nat → List (AstLabel × Forest AstLabel) → List Literal
  | 0, _ => []
  | _, [] => []
  | fuel + 1, (label, operands) :: queue =>
    let compound (operands : Forest AstLabel) (queue : List (AstLabel × Forest AstLabel)) : List Literal :=
      if (astNodes operands).head?.map (fun node => node.1.type) = some .name then
        compoundLiterals value [] [] (astNodes operands) ++ queueLiterals value fuel queue
      else []
    match label.type with
    | .string => unquoted (value label) :: queueLiterals value fuel (queue ++ astNodes operands)
    | .cmpnd => compound operands queue
    | .asgn =>
      let queue := queue ++ (astNodes operands).getLast?.toList.filter fun node => node.1.type = .string
      match (astNodes operands).head? with
      | some (⟨.cmpnd, _⟩, fields) => compound fields queue
      | _ => queueLiterals value fuel (queue ++ astNodes operands)
    | _ => queueLiterals value fuel (queue ++ astNodes operands)

/-- The literals `addCode` adds. No node is in the queue more than twice. -/
def addCodeLiterals (lexemes : List Lexeme) (ast : Forest AstLabel) : List Literal :=
  queueLiterals (valueOf lexemes) (2 * (nodes {} ast).length) (astNodes ast)

/-! ### adaptCode -/

/-- What the first pass writes for a name. -/
def prefixName (code scope : List Char) (pos : Int × Int) : Option (List Char) := do
  let token ← Splice.substr? code pos.1 (pos.2 - pos.1)
  return if token <+: scope then token else scope ++ token

/-- What the second pass writes for a literal: there has to be a macro for it. -/
def macroFor (strMacros : Literal → Option (List Char)) (processed : List Char) (pos : Int × Int) : Option (List Char) := do
  let literal ← Splice.substr? processed (pos.1 + 1) (pos.2 - pos.1 - 2)
  strMacros literal

def adaptCode (parser : PromelaParser) (strMacros : Literal → Option (List Char)) (code scope : List Char) :
    Option (List Char) := do
  let ast ← parser.ast code
  let posList := (getTokenPositions code .name (parser.lex code) ast).mergeSort Splice.placeLe
  let processed ← Splice.spliceFrom code (prefixName code scope) 0 posList
  let ast ← parser.ast processed
  let posList := (getTokenPositions code .string (parser.lex processed) ast).mergeSort Splice.placeLe
  Splice.spliceFrom processed (macroFor strMacros processed) 0 posList

/-! ### What is to come out -/

/-- A field in a compound is what stands behind a dot. -/
def Parents.isField (p : Parents) : Bool :=
  (p.parent = some .cmpnd && !p.front) ||
    (p.parent = some .varArray && p.front && p.grandparent = some .cmpnd && !p.parentFront)

/-- The tokens of the nodes of a type for which a test holds. -/
def tokensWhere (type : NodeType) (test : Parents → Bool) (ast : Forest AstLabel) : List Nat :=
  (nodes {} ast).filterMap fun node => if node.1.type = type ∧ test node.2 = true then node.1.token else none

/-- The variables: the names that are no fields. -/
def topLevelNames (ast : Forest AstLabel) : List Nat := tokensWhere .name (fun p => !p.isField) ast

def withScope (scope : List Char) (tokens : List Nat) (lexemes : List Lexeme) : List Lexeme :=
  lexemes.mapIdx fun i l => if i ∈ tokens then { l with text := scope ++ l.text } else l

def literalOf (value : List Char) : Literal := (value.drop 1).take (value.length - 2)

def withMacros (strMacros : Literal → Option (List Char)) (lexemes : List Lexeme) : List Char :=
  lexemes.flatMap fun l => if l.type = .string then (strMacros (literalOf l.text)).getD [] else l.text

def adapted (strMacros : Literal → Option (List Char)) (scope : List Char) (ast : Forest AstLabel)
    (lexemes : List Lexeme) : List Char :=
  withMacros strMacros (withScope scope (topLevelNames ast) lexemes)

def isIdChar (c : Char) : Bool := c.isAlpha || c.isDigit || c = '_'

def reservedWords : List Literal :=
  ["bit", "bool", "byte", "int", "mtype", "short", "unsigned", "string", "auto", "len", "false", "skip", "true", "printf",
    "typedef", "assert"].map String.toList

/-- The texts the scanner makes a name of. -/
def IsName (text : List Char) : Prop :=
  text ≠ [] ∧ (∀ c ∈ text, isIdChar c = true) ∧ (∀ c ∈ text.head?, c.isDigit = false) ∧ text ∉ reservedWords

/-- What is used of the scanner and the parser: the matches are all of the text; a literal has two quotes; and each name and
each literal has one node. -/
structure PromelaParser.Reads (parser : PromelaParser) (code : List Char) (ast : Forest AstLabel) : Prop where
  textOf_lex : textOf (parser.lex code) = code
  two_le_length : ∀ l ∈ parser.lex code, l.type = .string → 2 ≤ l.text.length
  names : (tokensWhere .name (fun _ => true) ast).Perm
    ((List.range (parser.lex code).length).filter fun i => ((parser.lex code).map Lexeme.type)[i]? = some .name)
  strings : (tokensWhere .string (fun _ => true) ast).Perm
    ((List.range (parser.lex code).length).filter fun i => ((parser.lex code).map Lexeme.type)[i]? = some .string)

def PromelaParser.Lawful (parser : PromelaParser) : Prop :=
  ∀ code ast, parser.ast code = some ast → parser.Reads code ast

/-- The newline of `code` that ends the line of a lexeme is where the lexeme with the last newline before or in it begins. -/
def Aligned (code : List Char) (lexemes : List Lexeme) (i : Nat) : Prop :=
  '\n' ∈ textOf (lexemes.take (i + 1)) →
    code.head? ≠ some '\n' ∧ ∃ front back, code = front ++ '\n' :: back ∧
      front.count '\n' + 1 = (textOf (lexemes.take (i + 1))).count '\n' ∧ lineStart (lexemes.take (i + 1)) = front.length

/-- The names the first pass puts the prefix in front of: it passes over what looks like a field, and over what the prefix
begins with. -/
def scopedTokens (scope : List Char) (ast : Forest AstLabel) (lexemes : List Lexeme) : List Nat :=
  (tokensWhere .name (fun p => !p.looksField) ast).filter fun i => ¬ ((lexemes.map Lexeme.text)[i]?.getD []) <+: scope

/-- The lexemes behind the first pass. -/
def PromelaParser.scoped (parser : PromelaParser) (scope : List Char) (ast : Forest AstLabel) (code : List Char) :
    List Lexeme :=
  withScope scope (scopedTokens scope ast (parser.lex code)) (parser.lex code)

def literalPlaces (lexemes : List Lexeme) : List (Int × Int) :=
  ((List.range lexemes.length).filter fun i => (lexemes.map Lexeme.type)[i]? = some .string).map fun i =>
    (((textOf (lexemes.take i)).length : Int), ((textOf (lexemes.take (i + 1))).length : Int))

/-- Where the first pass reads names they are; the text it writes has the literals it had; and where the second pass reads
them they are. -/
structure Placed (parser : PromelaParser) (scope code : List Char) (ast : Forest AstLabel) : Prop where
  names : ∀ i ∈ tokensWhere .name (fun p => !p.looksField) ast, Aligned code (parser.lex code) i
  sameLiterals : (parser.ast (textOf (parser.scoped scope ast code))).isSome →
    literalPlaces (parser.lex (textOf (parser.scoped scope ast code))) = literalPlaces (parser.scoped scope ast code)
  strings : ∀ ast' ∈ parser.ast (textOf (parser.scoped scope ast code)), ∀ i ∈ tokensWhere .string (fun _ => true) ast',
    Aligned code (parser.lex (textOf (parser.scoped scope ast code))) i

/-! ### Positions -/

theorem lineStart_eq_zero {lexemes : List Lexeme} (h : '\n' ∉ textOf lexemes) : lineStart lexemes = 0 := by
  induction lexemes using List.reverseRecOn with
  | nil => rfl
  | append_singleton l x ih =>
    rw [textOf_concat, List.mem_append, not_or] at h
    rw [lineStart_concat, if_neg h.2, ih h.1]

/-- The position of a token is its place in the text that was read. -/
theorem position_eq {code : List Char} {lexemes : List Lexeme} {i : Nat} (hi : i < lexemes.length)
    (h : Aligned code lexemes i) :
    position code (locationAt lexemes i) =
      (((textOf (lexemes.take i)).length : Int), ((textOf (lexemes.take (i + 1))).length : Int)) := by
  obtain ⟨hline, hcol, hlast⟩ := locationAt_eq hi
  have hend : (textOf (lexemes.take (i + 1))).length = (textOf (lexemes.take i)).length + lexemes[i].text.length := by
    rw [List.take_succ_eq_append_getElem hi, textOf_concat, List.length_append]
  by_cases hnewline : '\n' ∈ textOf (lexemes.take (i + 1))
  · obtain ⟨hhead, front, back, hsplit, hcount, hstart⟩ := h hnewline
    have hlines : (locationAt lexemes i).firstLine = front.count '\n' + 1 := hline.trans hcount.symm
    have hpos : lastPos code (locationAt lexemes i).firstLine = front.length := by
      rw [hlines, hsplit, lastPos_eq (hsplit ▸ hhead)]
    rw [position, if_neg (by omega), hpos]
    exact Prod.ext (by simp only; omega) (by simp only; omega)
  · have hzero : (locationAt lexemes i).firstLine = 0 := by
      rw [hline, List.count_eq_zero.mpr hnewline]
    have hstart : lineStart (lexemes.take (i + 1)) = 0 := lineStart_eq_zero hnewline
    rw [position, if_pos hzero]
    exact Prod.ext (by simp only; omega) (by simp only; omega)

/-! ### Tokens -/

theorem getTokenPositions_eq (expr : List Char) (type : NodeType) (lexemes : List Lexeme) (ast : Forest AstLabel)
    (test : Parents → Bool)
    (h : ∀ node ∈ nodes {} ast, node.1.type = type → (test node.2 = true ↔ ¬ (type = .name ∧ node.2.looksField = true))) :
    getTokenPositions expr type lexemes ast =
      (tokensWhere type test ast).map fun i => position expr (locationAt lexemes i) := by
  rw [getTokenPositions, tokensWhere, List.map_filterMap]
  refine List.filterMap_congr fun node hnode => ?_
  by_cases htype : node.1.type = type
  · by_cases htest : test node.2 = true
    · rw [if_pos ⟨htype, (h node hnode htype).mp htest⟩, if_pos ⟨htype, htest⟩]
    · rw [if_neg fun hboth => htest ((h node hnode htype).mpr hboth.2), if_neg fun hboth => htest hboth.2]
      rfl
  · rw [if_neg fun hboth => htype hboth.1, if_neg fun hboth => htype hboth.1]
    rfl

theorem tokensWhere_sublist (type : NodeType) {test test' : Parents → Bool} (h : ∀ p, test p = true → test' p = true)
    (ast : Forest AstLabel) : (tokensWhere type test ast).Sublist (tokensWhere type test' ast) := by
  rw [tokensWhere, tokensWhere]
  induction nodes {} ast with
  | nil => exact List.Sublist.refl _
  | cons node rest ih =>
    rw [List.filterMap_cons, List.filterMap_cons]
    by_cases hboth : node.1.type = type ∧ test node.2 = true
    · rw [if_pos hboth, if_pos ⟨hboth.1, h _ hboth.2⟩]
      cases node.1.token with
      | none => exact ih
      | some i => exact ih.cons_cons i
    · rw [if_neg hboth]
      by_cases hboth' : node.1.type = type ∧ test' node.2 = true
      · rw [if_pos hboth']
        cases node.1.token with
        | none => exact ih
        | some i => exact ih.cons i
      · rw [if_neg hboth']
        exact ih

theorem Parents.looksField_of_isField {p : Parents} (h : p.isField = true) : p.looksField = true := by
  rw [Parents.isField, Bool.or_eq_true] at h
  rw [Parents.looksField, Bool.or_eq_true]
  refine h.imp_right fun harray => ?_
  simp only [Bool.and_eq_true] at harray ⊢
  exact ⟨harray.1.1.1, harray.1.2⟩

theorem scopedTokens_subset (scope : List Char) (ast : Forest AstLabel) (lexemes : List Lexeme) :
    ∀ i ∈ scopedTokens scope ast lexemes, i ∈ topLevelNames ast := by
  intro i hi
  refine (tokensWhere_sublist .name (fun p hp => ?_) ast).subset (List.mem_of_mem_filter hi)
  rw [Bool.not_eq_true'] at hp ⊢
  exact Bool.eq_false_iff.mpr fun hfield => Bool.eq_false_iff.mp hp (Parents.looksField_of_isField hfield)

section

variable {parser : PromelaParser} {scope code : List Char} {ast : Forest AstLabel}

theorem PromelaParser.Reads.name_of_mem (h : parser.Reads code ast) {test : Parents → Bool} {i : Nat}
    (hi : i ∈ tokensWhere .name test ast) : ∃ l, (parser.lex code)[i]? = some l ∧ l.type = .name := by
  have hmem := (h.names.mem_iff).mp ((tokensWhere_sublist _ (fun _ _ => rfl) ast).subset hi)
  rw [List.mem_filter, decide_eq_true_eq, List.getElem?_map, Option.map_eq_some_iff] at hmem
  exact hmem.2

theorem PromelaParser.Reads.names_perm (h : parser.Reads code ast) (test : Parents → Bool) :
    (tokensWhere .name test ast).Perm
      ((List.range (parser.lex code).length).filter fun i => i ∈ tokensWhere .name test ast) := by
  have hall : (tokensWhere .name (fun _ => true) ast).Nodup :=
    (h.names.nodup_iff).mpr (List.nodup_range.filter _)
  refine (List.perm_ext_iff_of_nodup ((tokensWhere_sublist _ (fun _ _ => rfl) ast).nodup hall) (List.nodup_range.filter _)).mpr fun i => ?_
  rw [List.mem_filter, decide_eq_true_eq, List.mem_range]
  refine ⟨fun hi => ⟨?_, hi⟩, And.right⟩
  obtain ⟨l, hl, -⟩ := h.name_of_mem hi
  exact (List.getElem?_eq_some_iff.mp hl).1

/-! ### The text with prefixes -/

theorem getElem?_withScope (scope : List Char) (tokens : List Nat) (lexemes : List Lexeme) (i : Nat) :
    (withScope scope tokens lexemes)[i]? =
      lexemes[i]?.map fun l => if i ∈ tokens then { l with text := scope ++ l.text } else l :=
  List.getElem?_mapIdx ..

theorem length_withScope (scope : List Char) (tokens : List Nat) (lexemes : List Lexeme) :
    (withScope scope tokens lexemes).length = lexemes.length := List.length_mapIdx

theorem type_withScope (scope : List Char) (tokens : List Nat) (lexemes : List Lexeme) :
    (withScope scope tokens lexemes).map Lexeme.type = lexemes.map Lexeme.type := by
  refine List.ext_getElem? fun i => ?_
  rw [List.getElem?_map, List.getElem?_map, getElem?_withScope, Option.map_map]
  congr 1
  funext l
  rw [Function.comp_apply]
  split <;> rfl

variable (parser scope code ast) in
theorem getElem?_scoped (i : Nat) : (parser.scoped scope ast code)[i]? =
    (parser.lex code)[i]?.map fun l => if i ∈ scopedTokens scope ast (parser.lex code) then { l with text := scope ++ l.text } else l :=
  getElem?_withScope ..

theorem length_scoped : (parser.scoped scope ast code).length = (parser.lex code).length := length_withScope ..

theorem type_scoped : (parser.scoped scope ast code).map Lexeme.type = (parser.lex code).map Lexeme.type := type_withScope ..

theorem PromelaParser.Reads.getElem?_of_string (h : parser.Reads code ast) {i : Nat} {l : Lexeme}
    (hl : (parser.scoped scope ast code)[i]? = some l)
    (htype : l.type = .string) : (parser.lex code)[i]? = some l := by
  rw [getElem?_scoped, Option.map_eq_some_iff] at hl
  obtain ⟨l', hl', heq⟩ := hl
  split at heq
  · rename_i htoken
    obtain ⟨l'', hl'', hname⟩ := h.name_of_mem (List.mem_of_mem_filter htoken)
    rw [hl', Option.some_inj] at hl''
    rw [← heq, hl'', hname] at htype
    cases htype
  · rw [← heq]
    exact hl'

/-- What flex does with a text when a prefix makes names of its names: these are matched as before. -/
def PromelaParser.LexPrefixed (parser : PromelaParser) (scope code : List Char) : Prop :=
  ∀ lexemes, List.Forall₂ (fun l l' : Lexeme => l' = l ∨
      l.type = .name ∧ l' = { l with text := scope ++ l.text } ∧ IsName l'.text) (parser.lex code) lexemes →
    parser.lex (textOf lexemes) = lexemes

/-- The scanner reads the text with prefixes as the text when they make names of names. -/
theorem PromelaParser.Reads.lex_scoped (h : parser.Reads code ast) (hlex : parser.LexPrefixed scope code)
    (hname : ∀ i ∈ scopedTokens scope ast (parser.lex code), ∀ l ∈ (parser.lex code)[i]?, IsName (scope ++ l.text)) :
    parser.lex (textOf (parser.scoped scope ast code)) = parser.scoped scope ast code := by
  refine hlex _ (List.forall₂_iff_get.mpr ⟨length_scoped.symm, fun i hi hi' => ?_⟩)
  have hget := getElem?_scoped parser scope code ast i
  rw [List.getElem?_eq_getElem hi, List.getElem?_eq_getElem hi', Option.map_some, Option.some_inj] at hget
  rw [List.get_eq_getElem, List.get_eq_getElem, hget]
  by_cases htoken : i ∈ scopedTokens scope ast (parser.lex code)
  · obtain ⟨l, hl, htype⟩ := h.name_of_mem (List.mem_of_mem_filter htoken)
    rw [List.getElem?_eq_getElem hi, Option.some_inj] at hl
    rw [if_pos htoken]
    exact .inr ⟨hl ▸ htype, rfl, hname i htoken _ (List.getElem?_eq_getElem hi)⟩
  · rw [if_neg htoken]
    exact .inl rfl

/-- With such a prefix the text can be parsed again, and it is enough that the tokens of the text are found. -/
theorem placed_of_isName (hast : parser.ast code = some ast) (h : parser.Reads code ast)
    (hlex : parser.LexPrefixed scope code)
    (hname : ∀ i ∈ scopedTokens scope ast (parser.lex code), ∀ l ∈ (parser.lex code)[i]?, IsName (scope ++ l.text))
    (hnames : ∀ i ∈ tokensWhere .name (fun p => !p.looksField) ast, Aligned code (parser.lex code) i)
    (hstrings : ∀ i ∈ tokensWhere .string (fun _ => true) ast, Aligned code (parser.scoped scope ast code) i) :
    Placed parser scope code ast ∧ parser.ast (textOf (parser.scoped scope ast code)) = some ast := by
  have hread := h.lex_scoped hlex hname
  have hast' : parser.ast (textOf (parser.scoped scope ast code)) = some ast := by
    rw [PromelaParser.ast, hread, type_scoped]
    exact hast
  refine ⟨⟨hnames, fun _ => congrArg literalPlaces hread, ?_⟩, hast'⟩
  intro ast' hmem
  obtain rfl : ast = ast' := Option.some_inj.mp (hast'.symm.trans hmem)
  rw [hread]
  exact hstrings

/-! ### Passes -/

/-- A pass over the lexemes of a text: those for which there is a new text are replaced. -/
theorem splice_lexemes (lexemes : List Lexeme) (new : Nat → Lexeme → Option (List Char))
    (piece : Int × Int → Option (List Char)) (posList : List (Int × Int))
    (hpos : posList.Perm (((List.range lexemes.length).filter fun i => (lexemes[i]?.bind (new i)).isSome).map fun i =>
      (((textOf (lexemes.take i)).length : Int), ((textOf (lexemes.take (i + 1))).length : Int))))
    (hpiece : ∀ i l text, lexemes[i]? = some l → new i l = some text →
      piece (((textOf (lexemes.take i)).length : Int), ((textOf (lexemes.take (i + 1))).length : Int)) = some text) :
    Splice.spliceFrom (textOf lexemes) piece 0 (posList.mergeSort Splice.placeLe) =
      some (lexemes.mapIdx fun i l => (new i l).getD l.text).flatten := by
  let segments := lexemes.mapIdx fun i l => (l.text, new i l)
  have hget : ∀ i, segments[i]? = lexemes[i]?.map fun l => (l.text, new i l) := fun i => List.getElem?_mapIdx ..
  have hlength : segments.length = lexemes.length := List.length_mapIdx
  have hold : ∀ i, Splice.oldText (segments.take i) = textOf (lexemes.take i) := by
    intro i
    have hmap : segments.map Prod.fst = lexemes.map Lexeme.text := by
      refine List.ext_getElem? fun i => ?_
      rw [List.getElem?_map, hget, List.getElem?_map, Option.map_map]
      rfl
    rw [Splice.oldText, textOf, List.flatMap_def, List.flatMap_def, List.map_take, List.map_take, hmap]
  have hnew : Splice.newText segments = (lexemes.mapIdx fun i l => (new i l).getD l.text).flatten := by
    rw [Splice.newText, List.flatMap_def]
    congr 1
    refine List.ext_getElem? fun i => ?_
    rw [List.getElem?_map, hget, List.getElem?_mapIdx, Option.map_map]
    rfl
  have hplaces : posList.mergeSort Splice.placeLe = Splice.places 0 segments := by
    refine Splice.mergeSort_eq_places (hpos.trans (List.Perm.of_eq ?_))
    rw [Splice.places_eq, hlength]
    simp only [hold]
    congr 1
    refine List.filter_congr fun i _ => ?_
    rw [hget]
    cases lexemes[i]? <;> rfl
  have hfits : Splice.Fits piece 0 segments := by
    intro front old text back hsplit
    have hfront : segments.take front.length = front := by rw [hsplit, List.take_left]
    have hi : segments[front.length]? = some (old, some text) := by rw [hsplit, List.getElem?_append_right (Nat.le_refl _)]; simp
    rw [hget, Option.map_eq_some_iff] at hi
    obtain ⟨l, hl, hsegment⟩ := hi
    have hfound := hpiece front.length l text hl (congrArg Prod.snd hsegment)
    have hlt : front.length < lexemes.length := (List.getElem?_eq_some_iff.mp hl).1
    have hl' : lexemes[front.length] = l := (List.getElem?_eq_some_iff.mp hl).2
    have htext : l.text = old := congrArg Prod.fst hsegment
    rw [List.take_succ_eq_append_getElem hlt, textOf_concat, hl', htext, List.length_append, ← hold, hfront] at hfound
    rw [Nat.zero_add]
    exact hfound
  have hall := Splice.splice_places piece segments hfits
  have htext : Splice.oldText segments = textOf lexemes := by
    have := hold segments.length
    rwa [List.take_length, hlength, List.take_length] at this
  rw [hplaces, ← htext, hall, hnew]

/-- The text in front of a lexeme, the lexeme, and the text behind it. -/
theorem textOf_split {lexemes : List Lexeme} {i : Nat} {l : Lexeme} (h : lexemes[i]? = some l) :
    textOf lexemes = textOf (lexemes.take i) ++ l.text ++ textOf (lexemes.drop (i + 1)) ∧
      (textOf (lexemes.take (i + 1))).length = (textOf (lexemes.take i)).length + l.text.length := by
  obtain ⟨hi, rfl⟩ := List.getElem?_eq_some_iff.mp h
  rw [← textOf_concat, ← List.take_succ_eq_append_getElem hi, ← textOf_append, List.take_append_drop,
    List.take_succ_eq_append_getElem hi, textOf_concat, List.length_append]
  exact ⟨rfl, rfl⟩

theorem first_pass (h : parser.Reads code ast) (hplaced : Placed parser scope code ast) :
    Splice.spliceFrom code (prefixName code scope) 0
        ((getTokenPositions code .name (parser.lex code) ast).mergeSort Splice.placeLe) =
      some (textOf (parser.scoped scope ast code)) := by
  have hpositions : getTokenPositions code .name (parser.lex code) ast =
      (tokensWhere .name (fun p => !p.looksField) ast).map fun i =>
        (((textOf ((parser.lex code).take i)).length : Int), ((textOf ((parser.lex code).take (i + 1))).length : Int)) := by
    rw [getTokenPositions_eq code .name (parser.lex code) ast (fun p => !p.looksField) fun node _ _ => by simp]
    refine List.map_congr_left fun i hi => ?_
    obtain ⟨l, hl, -⟩ := h.name_of_mem hi
    exact position_eq (List.getElem?_eq_some_iff.mp hl).1 (hplaced.names i hi)
  have hpass := splice_lexemes (parser.lex code)
    (fun i l => if i ∈ tokensWhere .name (fun p => !p.looksField) ast then
      some (if l.text <+: scope then l.text else scope ++ l.text) else none)
    (prefixName code scope) (getTokenPositions code .name (parser.lex code) ast) ?_ ?_
  · rw [h.textOf_lex] at hpass
    rw [hpass, textOf, List.flatMap_def]
    congr 2
    refine List.mapIdx_eq_iff.mpr fun i => ?_
    rw [List.getElem?_map, getElem?_scoped, Option.map_map]
    refine Option.map_congr fun l hl => ?_
    have hscoped : i ∈ scopedTokens scope ast (parser.lex code) ↔
        i ∈ tokensWhere .name (fun p => !p.looksField) ast ∧ ¬ l.text <+: scope := by
      rw [scopedTokens, List.mem_filter, decide_eq_true_eq, List.getElem?_map, hl, Option.map_some, Option.getD_some]
    rw [Function.comp_apply]
    by_cases htoken : i ∈ tokensWhere .name (fun p => !p.looksField) ast
    · by_cases hbegin : l.text <+: scope
      · rw [if_neg fun hmem => (hscoped.mp hmem).2 hbegin, if_pos htoken, if_pos hbegin]
        rfl
      · rw [if_pos (hscoped.mpr ⟨htoken, hbegin⟩), if_pos htoken, if_neg hbegin]
        rfl
    · rw [if_neg fun hmem => htoken (hscoped.mp hmem).1, if_neg htoken]
      rfl
  · rw [hpositions]
    refine List.Perm.map _ ((h.names_perm _).trans (List.Perm.of_eq (List.filter_congr fun i hi => ?_)))
    rw [List.getElem?_eq_getElem (List.mem_range.mp hi), Option.bind_some]
    split
    · rename_i htoken
      exact decide_eq_true htoken
    · rename_i htoken
      exact decide_eq_false htoken
  · intro i l text hl htext
    obtain ⟨hsplit, hend⟩ := textOf_split hl
    rw [h.textOf_lex] at hsplit
    split at htext
    · have hcount : (((textOf ((parser.lex code).take (i + 1))).length : Int) - (textOf ((parser.lex code).take i)).length) =
          l.text.length := by omega
      have htoken := Splice.substr?_append (textOf ((parser.lex code).take i)) l.text (textOf ((parser.lex code).drop (i + 1)))
      rw [← hsplit] at htoken
      simp only [prefixName, hcount, htoken, Option.bind_eq_bind, Option.bind_some]
      exact htext
    · cases htext

theorem substr?_inner (pre old post : List Char) (h : 2 ≤ old.length) :
    Splice.substr? (pre ++ old ++ post) (pre.length + 1) (old.length - 2) = some (literalOf old) := by
  have hsplit : pre ++ old ++ post = pre ++ old.take 1 ++ literalOf old ++ ((old.drop 1).drop (old.length - 2) ++ post) := by
    conv_lhs => rw [← List.take_append_drop 1 old, ← List.take_append_drop (old.length - 2) (old.drop 1)]
    simp only [literalOf, List.append_assoc, List.drop_drop]
  have hinner := Splice.substr?_append (pre ++ old.take 1) (literalOf old) ((old.drop 1).drop (old.length - 2) ++ post)
  rw [← hsplit] at hinner
  have hlength : ((pre ++ old.take 1).length : Int) = pre.length + 1 ∧
      ((literalOf old).length : Int) = old.length - 2 := by
    simp only [literalOf, List.length_append, List.length_take, List.length_drop]
    omega
  rw [hlength.1, hlength.2] at hinner
  exact hinner

theorem string_positions {ast' : Forest AstLabel} (hast' : parser.ast (textOf (parser.scoped scope ast code)) = some ast')
    (h' : parser.Reads (textOf (parser.scoped scope ast code)) ast') (hplaced : Placed parser scope code ast) :
    (getTokenPositions code .string (parser.lex (textOf (parser.scoped scope ast code))) ast').Perm
      (literalPlaces (parser.scoped scope ast code)) := by
  rw [← hplaced.sameLiterals (by rw [hast']; rfl), literalPlaces,
    getTokenPositions_eq code .string _ ast' (fun _ => true) fun node _ _ => by simp]
  refine (List.Perm.of_eq (List.map_congr_left fun i hi => ?_)).trans (h'.strings.map _)
  have hmem := (h'.strings.mem_iff).mp hi
  rw [List.mem_filter, List.mem_range] at hmem
  exact position_eq hmem.1 (hplaced.strings ast' hast' i hi)

theorem macroFor_eq (strMacros : Literal → Option (List Char)) {lexemes : List Lexeme} {i : Nat} {l : Lexeme}
    (hl : lexemes[i]? = some l) (hlength : 2 ≤ l.text.length) :
    macroFor strMacros (textOf lexemes)
        (((textOf (lexemes.take i)).length : Int), ((textOf (lexemes.take (i + 1))).length : Int)) =
      strMacros (literalOf l.text) := by
  obtain ⟨hsplit, hend⟩ := textOf_split hl
  have hcount : (((textOf (lexemes.take (i + 1))).length : Int) - (textOf (lexemes.take i)).length - 2) =
      l.text.length - 2 := by omega
  have hinner := substr?_inner (textOf (lexemes.take i)) l.text (textOf (lexemes.drop (i + 1))) hlength
  rw [← hsplit] at hinner
  simp only [macroFor, hcount, hinner, Option.bind_eq_bind, Option.bind_some]

theorem second_pass {strMacros : Literal → Option (List Char)} (h : parser.Reads code ast) {posList : List (Int × Int)}
    (hpos : posList.Perm (literalPlaces (parser.scoped scope ast code)))
    (hknown : ∀ l ∈ parser.lex code, l.type = .string → (strMacros (literalOf l.text)).isSome) :
    Splice.spliceFrom (textOf (parser.scoped scope ast code))
        (macroFor strMacros (textOf (parser.scoped scope ast code))) 0 (posList.mergeSort Splice.placeLe) =
      some (withMacros strMacros (parser.scoped scope ast code)) := by
  have hpass := splice_lexemes (parser.scoped scope ast code)
    (fun _ l => if l.type = .string then some ((strMacros (literalOf l.text)).getD []) else none)
    (macroFor strMacros (textOf (parser.scoped scope ast code))) posList ?_ ?_
  · rw [hpass, withMacros, List.flatMap_def]
    congr 2
    refine List.mapIdx_eq_iff.mpr fun i => ?_
    rw [List.getElem?_map]
    congr 1
    funext l
    split <;> rfl
  · refine hpos.trans (List.Perm.map _ (List.Perm.of_eq ?_))
    refine List.filter_congr fun i hi => ?_
    rw [List.getElem?_map, List.getElem?_eq_getElem (List.mem_range.mp hi), Option.map_some, Option.bind_some]
    split
    · rename_i htype
      rw [htype]
      rfl
    · rename_i htype
      exact decide_eq_false fun heq => htype (Option.some_inj.mp heq)
  · intro i l text hl htext
    split at htext
    · rename_i htype
      have hmem := List.mem_of_getElem? (h.getElem?_of_string hl htype)
      obtain ⟨macroText, hdefined⟩ := Option.isSome_iff_exists.mp (hknown l hmem htype)
      rw [macroFor_eq strMacros hl (h.two_le_length l hmem htype), hdefined]
      rw [hdefined] at htext
      exact htext
    · cases htext

/-- Without a macro for each literal there is no text. -/
theorem known_of_second_pass {strMacros : Literal → Option (List Char)} {text : List Char} (h : parser.Reads code ast)
    {posList : List (Int × Int)} (hpos : posList.Perm (literalPlaces (parser.scoped scope ast code)))
    (hpass : Splice.spliceFrom (textOf (parser.scoped scope ast code))
        (macroFor strMacros (textOf (parser.scoped scope ast code))) 0 (posList.mergeSort Splice.placeLe) = some text) :
    ∀ l ∈ parser.lex code, l.type = .string → (strMacros (literalOf l.text)).isSome := by
  intro l hl htype
  obtain ⟨i, hi, rfl⟩ := List.getElem_of_mem hl
  have hlexeme : (parser.scoped scope ast code)[i]? = some (parser.lex code)[i] := by
    rw [getElem?_scoped, List.getElem?_eq_getElem hi, Option.map_some, if_neg]
    intro htoken
    obtain ⟨l, hname, hnameType⟩ := h.name_of_mem (List.mem_of_mem_filter htoken)
    rw [List.getElem?_eq_getElem hi, Option.some_inj] at hname
    rw [hname, hnameType] at htype
    cases htype
  have hplace : (((textOf ((parser.scoped scope ast code).take i)).length : Int),
      ((textOf ((parser.scoped scope ast code).take (i + 1))).length : Int)) ∈
        literalPlaces (parser.scoped scope ast code) := by
    refine List.mem_map_of_mem (List.mem_filter.mpr ⟨List.mem_range.mpr (length_scoped.symm ▸ hi), ?_⟩)
    rw [List.getElem?_map, hlexeme, Option.map_some, htype]
    rfl
  have hpiece := Splice.isSome_piece_of_spliceFrom hpass _ (List.mem_mergeSort.mpr (hpos.mem_iff.mpr hplace))
  rwa [macroFor_eq strMacros hlexeme (h.two_le_length _ hl htype)] at hpiece

theorem adaptCode_eq_second_pass (strMacros : Literal → Option (List Char)) (hast : parser.ast code = some ast)
    (h : parser.Reads code ast) (hplaced : Placed parser scope code ast) :
    adaptCode parser strMacros code scope =
      (parser.ast (textOf (parser.scoped scope ast code))).bind fun ast' =>
        Splice.spliceFrom (textOf (parser.scoped scope ast code))
          (macroFor strMacros (textOf (parser.scoped scope ast code))) 0
          ((getTokenPositions code .string (parser.lex (textOf (parser.scoped scope ast code))) ast').mergeSort
            Splice.placeLe) := by
  simp only [adaptCode, hast, Option.bind_eq_bind, Option.bind_some, first_pass h hplaced]

end

/-! ### Missing prefixes -/

/-- Two lists of texts of which the second ones are not shorter, and one of them is longer. -/
theorem length_flatten_lt {l l' : List (List Char)} (h : List.Forall₂ (fun a b => a.length ≤ b.length) l l')
    {i : Nat} {a b : List Char} (ha : l[i]? = some a) (hb : l'[i]? = some b) (hlt : a.length < b.length) :
    l.flatten.length < l'.flatten.length := by
  have hle : ∀ {l l' : List (List Char)}, List.Forall₂ (fun a b => a.length ≤ b.length) l l' →
      l.flatten.length ≤ l'.flatten.length := by
    intro l l' h
    induction h with
    | nil => exact Nat.le_refl _
    | cons hhead _ ih =>
      rw [List.flatten_cons, List.flatten_cons, List.length_append, List.length_append]
      omega
  induction h generalizing i with
  | nil => cases ha
  | cons hhead hrest ih =>
    rw [List.flatten_cons, List.flatten_cons, List.length_append, List.length_append]
    cases i with
    | zero =>
      rw [List.getElem?_cons_zero, Option.some_inj] at ha hb
      have := hle hrest
      subst ha hb
      omega
    | succ i =>
      have := ih ha hb
      omega

/-- The texts with the prefix in front of more names are longer. -/
theorem withMacros_eq_iff (strMacros : Literal → Option (List Char)) (scope : List Char) {tokens tokens' : List Nat} {lexemes : List Lexeme}
    (hsub : ∀ i ∈ tokens, i ∈ tokens') (hname : ∀ i ∈ tokens', ∃ l, lexemes[i]? = some l ∧ l.type = .name) :
    withMacros strMacros (withScope scope tokens lexemes) = withMacros strMacros (withScope scope tokens' lexemes) ↔
      scope = [] ∨ ∀ i ∈ tokens', i ∈ tokens := by
  constructor
  · intro heq
    by_contra hcon
    rw [not_or] at hcon
    obtain ⟨hscope, hmissing⟩ := hcon
    simp only [not_forall] at hmissing
    obtain ⟨i, hi', hi⟩ := hmissing
    obtain ⟨l, hl, htype⟩ := hname i hi'
    have hmacros : ∀ tokens : List Nat, ((withScope scope tokens lexemes).map fun l =>
        if l.type = .string then (strMacros (literalOf l.text)).getD [] else l.text)[i]? =
          some (if i ∈ tokens then scope ++ l.text else l.text) := by
      intro tokens
      rw [List.getElem?_map, getElem?_withScope, hl, Option.map_some, Option.map_some, Option.some_inj]
      split <;> exact if_neg (by rw [htype]; exact nofun)
    refine absurd (congrArg List.length heq) (Nat.ne_of_lt ?_)
    rw [withMacros, withMacros, List.flatMap_def, List.flatMap_def]
    refine length_flatten_lt ?_ ((hmacros tokens).trans (congrArg some (if_neg hi)))
      ((hmacros tokens').trans (congrArg some (if_pos hi'))) ?_
    · refine List.forall₂_iff_get.mpr ⟨?_, fun k hk hk' => ?_⟩
      · rw [List.length_map, List.length_map, length_withScope, length_withScope]
      · simp only [List.get_eq_getElem, List.getElem_map, withScope, List.getElem_mapIdx]
        by_cases hk₁ : k ∈ tokens
        · rw [if_pos hk₁, if_pos (hsub k hk₁)]
        · rw [if_neg hk₁]
          by_cases hk₂ : k ∈ tokens'
          · obtain ⟨l', hl', htype'⟩ := hname k hk₂
            obtain ⟨hlt, rfl⟩ := List.getElem?_eq_some_iff.mp hl'
            rw [if_pos hk₂]
            simp only [htype']
            rw [if_neg nofun, if_neg nofun, List.length_append]
            omega
          · rw [if_neg hk₂]
    · rw [List.length_append]
      have := List.length_pos_iff.mpr hscope
      omega
  · rintro (rfl | hall)
    · have hnone : ∀ tokens : List Nat, withScope [] tokens lexemes = lexemes := by
        intro tokens
        refine List.mapIdx_eq_iff.mpr fun i => ?_
        cases lexemes[i]? with
        | none => rfl
        | some l =>
          rw [Option.map_some, Option.some_inj]
          split <;> rfl
      rw [hnone, hnone]
    · congr 1
      refine List.mapIdx_eq_iff.mpr fun i => ?_
      rw [getElem?_withScope]
      congr 1
      funext l
      by_cases hi : i ∈ tokens
      · rw [if_pos hi, if_pos (hsub i hi)]
      · rw [if_neg hi, if_neg fun hi' => hi (hall i hi')]

/-- Where names and literals are found at their places, the text comes out as it should if the text with the prefixes can be
parsed, there is a macro for each literal and, unless the prefix is empty, no variable looks like a field and the prefix
begins with none. -/
theorem adaptCode_eq_iff (parser : PromelaParser) (strMacros : Literal → Option (List Char)) (code scope : List Char)
    {ast : Forest AstLabel} (hast : parser.ast code = some ast) (h : parser.Lawful)
    (hregistered : ∀ literal ∈ addCodeLiterals (parser.lex code) ast, (strMacros literal).isSome)
    (hplaced : Placed parser scope code ast) :
    adaptCode parser strMacros code scope = some (adapted strMacros scope ast (parser.lex code)) ↔
      (parser.ast (textOf (parser.scoped scope ast code))).isSome ∧
      (∀ l ∈ parser.lex code, l.type = .string →
        literalOf l.text ∈ addCodeLiterals (parser.lex code) ast ∨ (strMacros (literalOf l.text)).isSome) ∧
      (scope = [] ∨ ∀ i ∈ topLevelNames ast, i ∈ tokensWhere .name (fun p => !p.looksField) ast ∧
        ∀ l ∈ (parser.lex code)[i]?, ¬ l.text <+: scope) := by
  have hreads := h code ast hast
  have hscoped : (∀ i ∈ topLevelNames ast, i ∈ scopedTokens scope ast (parser.lex code)) ↔
      ∀ i ∈ topLevelNames ast, i ∈ tokensWhere .name (fun p => !p.looksField) ast ∧
        ∀ l ∈ (parser.lex code)[i]?, ¬ l.text <+: scope := by
    refine forall₂_congr fun i hi => ?_
    obtain ⟨l, hl, -⟩ := hreads.name_of_mem hi
    rw [scopedTokens, List.mem_filter, decide_eq_true_eq, List.getElem?_map, hl, Option.map_some, Option.getD_some]
    simp
  have htext := withMacros_eq_iff strMacros scope (scopedTokens_subset scope ast (parser.lex code))
    (fun i hi => hreads.name_of_mem hi)
  rw [adaptCode_eq_second_pass strMacros hast hreads hplaced, ← hscoped, ← htext, ← adapted]
  cases hast' : parser.ast (textOf (parser.scoped scope ast code)) with
  | none => simp
  | some ast' =>
    have hpos := string_positions hast' (h _ ast' hast') hplaced
    rw [Option.bind_some, Option.isSome_some, and_iff_right rfl]
    constructor
    · intro hpass
      have hknown := known_of_second_pass hreads hpos hpass
      rw [second_pass hreads hpos hknown, Option.some_inj] at hpass
      exact ⟨fun l hl htype => .inr (hknown l hl htype), hpass⟩
    · rintro ⟨hknown, heq⟩
      rw [second_pass hreads hpos fun l hl htype => (hknown l hl htype).elim (hregistered _) id, PromelaParser.scoped, heq]

/-! ### A comparison -/

/-- The matches for a literal that is compared with a variable in the next line. -/
def comparison (scope blank : List Char) : List Lexeme :=
  [⟨.string, ['\'', 'a', '\'']⟩, ⟨.skipped, blank⟩, ⟨.other 0, ['=', '=']⟩, ⟨.skipped, [' ']⟩, ⟨.name, scope ++ ['x']⟩]

def comparisonAst : Forest AstLabel :=
  .cons ⟨.other 0, none⟩ (.cons ⟨.string, some 0⟩ .nil (.cons ⟨.name, some 4⟩ .nil .nil)) .nil

/-- What the scanner and the parser do with the comparison, before and after there is a prefix. -/
def comparisonParser (scope blank : List Char) : PromelaParser where
  lex text :=
    if text = textOf (comparison [] blank) then comparison [] blank
    else if text = textOf (comparison scope blank) then comparison scope blank
    else [⟨.skipped, text⟩]
  parse types := if types = (comparison [] []).map Lexeme.type then some comparisonAst else none

theorem comparisonParser_lex (scope blank : List Char) :
    (comparisonParser scope blank).lex (textOf (comparison [] blank)) = comparison [] blank ∧
      (comparisonParser scope blank).lex (textOf (comparison scope blank)) = comparison scope blank := by
  refine ⟨if_pos rfl, ?_⟩
  by_cases h : textOf (comparison scope blank) = textOf (comparison [] blank)
  · have hscope : scope = [] := by
      have := congrArg List.length h
      simp only [comparison, textOf, List.flatMap_cons, List.flatMap_nil, List.length_append] at this
      exact List.length_eq_zero_iff.mp (by simp only [List.length_nil] at this; omega)
    subst hscope
    exact if_pos rfl
  · exact (if_neg h).trans (if_pos rfl)

/-- Only the two texts can be parsed. -/
theorem lawful_comparisonParser (scope blank : List Char) : (comparisonParser scope blank).Lawful := by
  intro code ast hast
  have hreads : ∀ scope', (comparisonParser scope blank).lex code = comparison scope' blank →
      textOf (comparison scope' blank) = code → (comparisonParser scope blank).Reads code ast := by
    intro scope' hlex htext
    obtain rfl : comparisonAst = ast := by
      rw [PromelaParser.ast, hlex] at hast
      exact Option.some_inj.mp hast
    have htypes : (comparison scope' blank).map Lexeme.type = (comparison [] []).map Lexeme.type := rfl
    have hlength : (comparison scope' blank).length = 5 := rfl
    refine ⟨by rw [hlex, htext], ?_, ?_, ?_⟩ <;> rw [hlex]
    · intro l hl htype
      simp only [comparison, List.mem_cons, List.not_mem_nil, or_false] at hl
      rcases hl with rfl | rfl | rfl | rfl | rfl
      · decide
      · cases htype
      · cases htype
      · cases htype
      · cases htype
    · rw [htypes, hlength]
      decide
    · rw [htypes, hlength]
      decide
  by_cases hcode : code = textOf (comparison [] blank)
  · exact hreads [] (if_pos hcode) hcode.symm
  by_cases hscoped : code = textOf (comparison scope blank)
  · exact hreads scope ((if_neg hcode).trans (if_pos hscoped)) hscoped.symm
  · -- No other text is a comparison.
    have hlex : (comparisonParser scope blank).lex code = [⟨.skipped, code⟩] := (if_neg hcode).trans (if_neg hscoped)
    rw [PromelaParser.ast, hlex] at hast
    cases hast

theorem ast_comparison (blank : List Char) :
    (comparisonParser ['p', '_'] blank).ast (textOf (comparison [] blank)) = some comparisonAst := by
  rw [PromelaParser.ast, (comparisonParser_lex ['p', '_'] blank).1]
  rfl

/-- A single newline in front of the variable does no harm. -/
theorem adaptCode_comparison :
    adaptCode (comparisonParser ['p', '_'] ['\n']) (fun _ => some ['A']) (textOf (comparison [] ['\n'])) ['p', '_'] =
      some "A\n== p_x".toList := by
  have hlex := comparisonParser_lex ['p', '_'] ['\n']
  have hscoped : (comparisonParser ['p', '_'] ['\n']).scoped ['p', '_'] comparisonAst (textOf (comparison [] ['\n'])) =
      comparison ['p', '_'] ['\n'] := by
    rw [PromelaParser.scoped, hlex.1]
    decide
  have hast' : (comparisonParser ['p', '_'] ['\n']).ast (textOf (comparison ['p', '_'] ['\n'])) = some comparisonAst := by
    rw [PromelaParser.ast, hlex.2]
    rfl
  refine (adaptCode_eq_iff (comparisonParser ['p', '_'] ['\n']) (fun _ => some ['A']) (textOf (comparison [] ['\n']))
    ['p', '_'] (ast_comparison ['\n']) (lawful_comparisonParser _ _) (fun _ _ => rfl) ⟨?_, ?_, ?_⟩).mpr ⟨?_, ?_, ?_⟩
  · have hnames : tokensWhere .name (fun p => !p.looksField) comparisonAst = [4] := rfl
    intro i hi
    rw [hlex.1]
    rw [hnames, List.mem_singleton] at hi
    subst hi
    exact fun _ => ⟨by decide, ['\'', 'a', '\''], ['=', '=', ' ', 'x'], by decide, by decide, by decide⟩
  · rw [hscoped, hlex.2]
    exact fun _ => rfl
  · rw [hscoped, hlex.2, hast']
    rintro _ ⟨⟩ i hi
    have hstrings : tokensWhere .string (fun _ => true) comparisonAst = [0] := rfl
    rw [hstrings, List.mem_singleton] at hi
    subst hi
    exact fun hnewline => absurd hnewline (by decide)
  · rw [hscoped, hast']
    rfl
  · exact fun _ _ _ => .inr rfl
  · rw [hlex.1]
    refine .inr fun i hi => ?_
    have hnames : topLevelNames comparisonAst = [4] := rfl
    rw [hnames, List.mem_singleton] at hi
    subst hi
    exact ⟨by decide, fun l hl => by cases hl; decide⟩

/-- A blank in front of the newline: the name is looked for behind the end of the text. -/
theorem adaptCode_blank_newline :
    (comparisonParser ['p', '_'] [' ', '\n']).Lawful ∧
      (comparisonParser ['p', '_'] [' ', '\n']).ast (textOf (comparison [] [' ', '\n'])) = some comparisonAst ∧
      adaptCode (comparisonParser ['p', '_'] [' ', '\n']) (fun _ => some ['A'])
          (textOf (comparison [] [' ', '\n'])) ['p', '_'] ≠
        some (adapted (fun _ => some ['A']) ['p', '_'] comparisonAst
          ((comparisonParser ['p', '_'] [' ', '\n']).lex (textOf (comparison [] [' ', '\n'])))) := by
  refine ⟨lawful_comparisonParser _ _, ast_comparison _, ?_⟩
  decide +kernel

end ChartToPromela

end Uscxml
