import Uscxml.Lib.Forest
import Mathlib.Data.List.Basic

/-!
# Positions of tokens

The scanner gives a token the line and the columns it is at, and `PromelaCodeAnalyzer::getTokenPositions` makes positions in
the text of them. A column counts from the begin of the match with the last newline, since the scanner sets it to 0 for a
newline and adds the length of the whole match after that.
-/

namespace Uscxml

namespace ChartToPromela

/-! ### The scanner -/

/-- The types of matches: tokens, and white space, comments and unknown characters, which are skipped. -/
inductive TokenType where
  | name | string
  | other (type : Nat)
  | skipped
  deriving DecidableEq, Repr

/-- A match of the scanner. -/
structure Lexeme where
  type : TokenType
  text : List Char
  deriving DecidableEq, Repr

def textOf (lexemes : List Lexeme) : List Char := lexemes.flatMap Lexeme.text

structure ScanState where
  yylineno : Nat := 0
  yycolumn : Nat := 0
  deriving DecidableEq, Repr

/-- `PromelaParserNode::Location`. -/
structure Location where
  firstLine : Nat
  firstCol : Nat
  lastCol : Nat
  deriving DecidableEq, Repr

/-- The scanner's loop over the characters of a match. -/
def ScanState.countLines (s : ScanState) (yytext : List Char) : ScanState :=
  yytext.foldl (fun s c => if c = '\n' then ⟨s.yylineno + 1, 0⟩ else s) s

/-- The scanner after a match: `YY_USER_ACTION` adds its length. -/
def ScanState.userAction (s : ScanState) (yytext : List Char) : ScanState :=
  { s.countLines yytext with yycolumn := (s.countLines yytext).yycolumn + yytext.length }

def ScanState.location (s : ScanState) (yytext : List Char) : Location where
  firstLine := (s.countLines yytext).yylineno
  firstCol := (s.countLines yytext).yycolumn
  lastCol := (s.countLines yytext).yycolumn + yytext.length

def scan (lexemes : List Lexeme) : ScanState := lexemes.foldl (fun s l => s.userAction l.text) {}

def locationAt (lexemes : List Lexeme) (i : Nat) : Location :=
  (scan (lexemes.take i)).location ((lexemes.map Lexeme.text).getD i [])

/-! ### The nodes of a parsed text -/

inductive NodeType where
  | name | string | cmpnd | varArray | asgn
  | other (type : Nat)
  deriving DecidableEq, Repr

/-- A node of the parser: one that was made by `value` with a location has the index of its token. -/
structure AstLabel where
  type : NodeType
  token : Option Nat := none
  deriving DecidableEq, Repr

/-- What is above a node, and whether it and its parent are first among the operands. -/
structure Parents where
  parent : Option NodeType := none
  front : Bool := true
  grandparent : Option NodeType := none
  parentFront : Bool := true
  deriving DecidableEq, Repr

/-- The nodes, a parent before its operands. -/
def nodes (parents : Parents) : Forest AstLabel → List (AstLabel × Parents)
  | .nil => []
  | .cons label operands next =>
    (label, parents) :: nodes ⟨some label.type, true, parents.parent, parents.front⟩ operands ++
      nodes { parents with front := false } next

/-- The test of `getTokenPositions` for a field in a compound. -/
def Parents.looksField (p : Parents) : Bool :=
  (p.parent = some .cmpnd && !p.front) || (p.parent = some .varArray && p.grandparent = some .cmpnd)

/-- `find_first_of` for a newline; -1 is `npos`. -/
def findNewline (expr : List Char) (pos : Int) : Int :=
  match (expr.drop pos.toNat).findIdx? (· = '\n') with
  | some k => pos + k
  | none => -1

/-- The loop over the lines. -/
def lastPos (expr : List Char) : Nat → Int
  | 0 => 0
  | line + 1 => findNewline expr (lastPos expr line + 1)

def position (expr : List Char) (loc : Location) : Int × Int :=
  if loc.firstLine = 0 then (loc.firstCol, loc.lastCol)
  else (lastPos expr loc.firstLine + loc.firstCol, lastPos expr loc.firstLine + loc.lastCol)

/-- `getTokenPositions`, with the lexemes of the text that was parsed. -/
def getTokenPositions (expr : List Char) (type : NodeType) (lexemes : List Lexeme) (ast : Forest AstLabel) :
    List (Int × Int) :=
  (nodes {} ast).filterMap fun node =>
    if node.1.type = type ∧ ¬ (type = .name ∧ node.2.looksField = true) then
      node.1.token.map fun i => position expr (locationAt lexemes i)
    else none

/-! ### Where a token is -/

/-- The begin of the last match with a newline. -/
def lineStart (lexemes : List Lexeme) : Nat :=
  (lexemes.foldl (fun s l => (if '\n' ∈ l.text then s.2 else s.1, s.2 + l.text.length)) ((0, 0) : Nat × Nat)).1

theorem textOf_append (l l' : List Lexeme) : textOf (l ++ l') = textOf l ++ textOf l' := List.flatMap_append

theorem textOf_concat (l : List Lexeme) (x : Lexeme) : textOf (l ++ [x]) = textOf l ++ x.text := by
  rw [textOf_append]
  exact congrArg _ (List.append_nil _)

theorem lineStart_concat (l : List Lexeme) (x : Lexeme) :
    lineStart (l ++ [x]) = if '\n' ∈ x.text then (textOf l).length else lineStart l := by
  have hlength : ∀ l : List Lexeme,
      (l.foldl (fun s l => (if '\n' ∈ l.text then s.2 else s.1, s.2 + l.text.length)) ((0, 0) : Nat × Nat)).2 =
        (textOf l).length := by
    intro l
    induction l using List.reverseRecOn with
    | nil => rfl
    | append_singleton l y ih => rw [List.foldl_append, textOf_concat, List.length_append, ← ih]; rfl
  rw [lineStart, List.foldl_append, ← hlength]
  rfl

theorem countLines_eq (s : ScanState) (text : List Char) :
    s.countLines text =
      ⟨s.yylineno + text.count '\n', if '\n' ∈ text then 0 else s.yycolumn⟩ := by
  induction text generalizing s with
  | nil => rfl
  | cons c text ih =>
    rw [ScanState.countLines, List.foldl_cons, ← ScanState.countLines, ih]
    by_cases hc : c = '\n'
    · subst hc
      rw [if_pos rfl, List.count_cons_self, if_pos List.mem_cons_self]
      simp only [ScanState.mk.injEq]
      exact ⟨by omega, ite_self 0⟩
    · rw [if_neg hc, List.count_cons_of_ne hc]
      have hmem : '\n' ∈ c :: text ↔ '\n' ∈ text := by
        rw [List.mem_cons]
        exact or_iff_right (Ne.symm hc)
      simp only [hmem]

/-- Columns count from the begin of the last match with a newline. -/
theorem scan_eq (lexemes : List Lexeme) :
    (scan lexemes).yylineno = (textOf lexemes).count '\n' ∧
      (scan lexemes).yycolumn + lineStart lexemes = (textOf lexemes).length := by
  induction lexemes using List.reverseRecOn with
  | nil => exact ⟨rfl, rfl⟩
  | append_singleton l x ih =>
    have hscan : scan (l ++ [x]) = (scan l).userAction x.text := by
      rw [scan, List.foldl_append]
      rfl
    rw [hscan, ScanState.userAction, countLines_eq, lineStart_concat, textOf_concat, List.count_append, List.length_append]
    refine ⟨by rw [ih.1], ?_⟩
    by_cases hx : '\n' ∈ x.text
    · simp only [if_pos hx]
      omega
    · simp only [if_neg hx]
      omega

/-- A token has as its first column its distance from there, the token itself being looked at as well. -/
theorem locationAt_eq {lexemes : List Lexeme} {i : Nat} (hi : i < lexemes.length) :
    (locationAt lexemes i).firstLine = (textOf (lexemes.take (i + 1))).count '\n' ∧
      (locationAt lexemes i).firstCol + lineStart (lexemes.take (i + 1)) = (textOf (lexemes.take i)).length ∧
      (locationAt lexemes i).lastCol = (locationAt lexemes i).firstCol + lexemes[i].text.length := by
  have htext : (lexemes.map Lexeme.text).getD i [] = lexemes[i].text := by
    rw [List.getD_eq_getElem?_getD, List.getElem?_map, List.getElem?_eq_getElem hi]
    rfl
  obtain ⟨hline, hcol⟩ := scan_eq (lexemes.take i)
  rw [locationAt, htext, ScanState.location, countLines_eq, List.take_succ_eq_append_getElem hi, textOf_concat,
    lineStart_concat, List.count_append]
  refine ⟨by rw [hline], ?_, rfl⟩
  by_cases hx : '\n' ∈ lexemes[i].text
  · simp only [if_pos hx]
    omega
  · simp only [if_neg hx]
    omega

/-! ### Newlines -/

theorem exists_last_newline {text : List Char} (h : '\n' ∈ text) :
    ∃ front back, text = front ++ '\n' :: back ∧ '\n' ∉ back := by
  induction text using List.reverseRecOn with
  | nil => cases h
  | append_singleton text c ih =>
    by_cases hc : c = '\n'
    · exact ⟨text, [], by rw [hc], List.not_mem_nil⟩
    · rcases List.mem_append.mp h with htext | hlast
      · obtain ⟨front, back, rfl, hback⟩ := ih htext
        refine ⟨front, back ++ [c], by rw [List.append_assoc]; rfl, ?_⟩
        rw [List.mem_append, List.mem_singleton]
        exact fun hmem => hmem.elim hback (Ne.symm hc)
      · exact absurd (List.mem_singleton.mp hlast).symm hc

theorem findNewline_append (front back : List Char) {mid : List Char} (h : '\n' ∉ mid) :
    findNewline (front ++ mid ++ '\n' :: back) front.length = ((front ++ mid).length : Int) := by
  have hfind : (mid ++ '\n' :: back).findIdx? (· = '\n') = some mid.length := by
    have hnone : mid.findIdx? (· = '\n') = none := by
      rw [List.findIdx?_eq_none_iff]
      exact fun c hc => decide_eq_false fun hnl => h (hnl ▸ hc)
    rw [List.findIdx?_append, hnone, Option.none_or, List.findIdx?_cons, if_pos (decide_eq_true rfl)]
    simp
  rw [findNewline, Int.toNat_natCast, List.append_assoc, List.drop_left, hfind, List.length_append]
  push_cast
  rfl

/-- The loop finds the newline that ends a line, unless the text begins with one. -/
theorem lastPos_eq {front back : List Char} (h : (front ++ '\n' :: back).head? ≠ some '\n') :
    lastPos (front ++ '\n' :: back) (front.count '\n' + 1) = front.length := by
  induction hn : front.count '\n' generalizing front back with
  | zero =>
    have hfree : '\n' ∉ front := List.count_eq_zero.mp hn
    match front, h, hfree with
    | c :: front, _, hfree =>
      have hfound := findNewline_append [c] back fun hmem => hfree (List.mem_cons_of_mem c hmem)
      exact hfound
  | succ n ih =>
    obtain ⟨first, mid, rfl, hmid⟩ := exists_last_newline (show _ ∈ front from List.count_pos_iff.mp (by omega))
    have hcount : first.count '\n' = n := by
      rw [List.count_append, List.count_cons_self, List.count_eq_zero.mpr hmid] at hn
      omega
    have hsplit : first ++ '\n' :: mid ++ '\n' :: back = first ++ '\n' :: (mid ++ '\n' :: back) := by
      rw [List.append_assoc]
      rfl
    have hfound : findNewline (first ++ '\n' :: (mid ++ '\n' :: back)) (first.length + 1) = first.length + (mid.length + 1) := by
      have := findNewline_append (first ++ ['\n']) back hmid
      simpa using this
    rw [lastPos, hsplit, ih (by rwa [← hsplit]) hcount, hfound]
    simp only [List.length_append, List.length_cons]
    omega

end ChartToPromela

end Uscxml
