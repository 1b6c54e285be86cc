import Uscxml.ChartToPromela.AdaptCode
import Uscxml.Lib.Fold

/-!
# Macros for literals

`PromelaCodeAnalyzer::createMacroName`. A literal is shortened and cleaned, and while the name is taken a number is written
over its end. The loop over the numbers has no bound, so that the rounds are counted here. A number that is as long as the
name replaces it, and then the name begins with a digit.
-/

namespace Uscxml

namespace ChartToPromela

/-- `isInteger` for the base ten, on the text up to its first zero. -/
def isInteger (text : List Char) : Bool := (text.takeWhile (· ≠ '\x00')).all fun c => c = '-' || c.isDigit

/-- The characters that are replaced. -/
def illegalChars : List Char :=
  ['#', '\\', '/', ':', '?', '\x22', '<', '>', '|', ' ', '\n', '\t', '(', ')', '[', ']', '\x7b', '\x7d', '\x27', ',', '.', '-']

/-- The loop over the characters: one `_` for each run of illegal ones. The flag says that the last character was illegal. -/
def collapse : Bool → List Char → List Char
  | _, [] => []
  | run, c :: rest =>
    if c ∈ illegalChars then if run then collapse true rest else '_' :: collapse true rest else c :: collapse false rest

/-- The literal with a `_` in front of a number, cut to `MAX_MACRO_CHARS`. -/
def shortened (literal : Literal) : List Char := (if isInteger (literal.take 1) then '_' :: literal else literal).take 64

def firstName (literal : Literal) : List Char :=
  let macroName := collapse false ((shortened literal).map Char.toUpper)
  let macroName := if macroName.length < 1 then "_EMPTY_STRING".toList else macroName
  if macroName.length < 2 ∧ macroName[0]? = some '_' then "_WEIRD_CHARS".toList else macroName

def overwrite (index : Nat) (macroName : List Char) : List Char :=
  let suffix := Nat.toDigits 10 index
  if macroName.length > suffix.length then macroName.take (macroName.length - suffix.length) ++ suffix else suffix

-- The test of membership uses it by name.
theorem lawfulBEq_macroName : LawfulBEq (List Char) := List.instLawfulBEq

attribute [local instance] lawfulBEq_macroName

/-- The loop over the names. The index is an `unsigned int`; the first number bounds the rounds. -/
def macroLoop (macroNameSet : List (List Char)) : Nat → Nat → List Char → Option (List Char)
  | 0, _, _ => none
  | n + 1, index, macroName =>
    if macroName ∈ macroNameSet then macroLoop macroNameSet n ((index + 1) % 2 ^ 32) (overwrite index macroName)
    else some macroName

/-- The members of `PromelaCodeAnalyzer` that macros change. -/
structure MacroTable where
  strMacros : Literal → Option (List Char) := fun _ => none
  macroNameSet : List (List Char) := []

/-- `PromelaCodeAnalyzer::createMacroName`; `none` when the rounds do not suffice. -/
def createMacroName (rounds : Nat) (t : MacroTable) (literal : Literal) : Option (List Char × MacroTable) :=
  match t.strMacros literal with
  | some macroName => some (macroName, t)
  | none =>
    (macroLoop t.macroNameSet rounds 2 (firstName literal)).map fun macroName =>
      (macroName, ⟨Function.update t.strMacros literal (some macroName), macroName :: t.macroNameSet⟩)

/-- The macros of some calls, and what they leave. -/
def createMacroNames (rounds : Nat) (literals : List Literal) : Option (List (List Char) × MacroTable) :=
  literals.foldlM (fun (macros, t) literal => (createMacroName rounds t literal).map fun (m, t) => (macros ++ [m], t)) ([], {})

/-- An identifier of the preprocessor. -/
structure LegalMacro (macroName : List Char) : Prop where
  nonempty : macroName ≠ []
  chars : ∀ c ∈ macroName, isIdChar c = true
  noDigit : ∀ c ∈ macroName.head?, c.isDigit = false

def ProperMacros (literals : List Literal) (macros : List (List Char)) : Prop :=
  ∃ macroOf : Literal → List Char, macros = literals.map macroOf ∧
    (∀ l ∈ literals, ∀ l' ∈ literals, macroOf l = macroOf l' → l = l') ∧ ∀ l ∈ literals, LegalMacro (macroOf l)

/-- The names that the loop tries. -/
def candidate (macroName : List Char) : Nat → List Char
  | 0 => macroName
  | k + 1 => overwrite ((k + 2) % 2 ^ 32) (candidate macroName k)

/-- The literal has a macro, or its first characters are such as can stand in a name or are replaced, and a name is free before
a number gets as long as the name. -/
def Nameable (t : MacroTable) (literal : Literal) : Prop :=
  (t.strMacros literal).isSome ∨
    (∀ c ∈ shortened literal, isIdChar c = true ∨ c ∈ illegalChars) ∧
      ∃ k, candidate (firstName literal) k ∉ t.macroNameSet ∧
        ∀ j < k, (Nat.toDigits 10 ((j + 2) % 2 ^ 32)).length < (firstName literal).length

/-! ### The first name -/

theorem toUpper_spec (c : Char) :
    isIdChar c.toUpper = isIdChar c ∧ (c.toUpper ∈ illegalChars ↔ c ∈ illegalChars) ∧ c.toUpper.isDigit = c.isDigit := by
  by_cases hlower : 'a'.val ≤ c.val ∧ c.val ≤ 'z'.val
  · have hletters : ∀ n < 123, 97 ≤ n → isIdChar (Char.ofNat n).toUpper = isIdChar (Char.ofNat n) ∧
        ((Char.ofNat n).toUpper ∈ illegalChars ↔ Char.ofNat n ∈ illegalChars) ∧
          (Char.ofNat n).toUpper.isDigit = (Char.ofNat n).isDigit := by
      decide +kernel
    have hlow : 97 ≤ c.toNat := hlower.1
    have hhigh : c.toNat ≤ 122 := hlower.2
    rw [← Char.ofNat_toNat c]
    exact hletters c.toNat (Nat.lt_succ_of_le hhigh) hlow
  · have hsame : c.toUpper = c := dif_neg hlower
    rw [hsame]
    exact ⟨rfl, Iff.rfl, rfl⟩

/-- What is left after the loop is legal if the other characters were. -/
theorem collapse_legal_iff (run : Bool) (s : List Char) :
    (∀ c ∈ collapse run s, isIdChar c = true) ↔ ∀ c ∈ s, isIdChar c = true ∨ c ∈ illegalChars := by
  have hline : isIdChar '_' = true := by decide
  induction s generalizing run with
  | nil => simp [collapse]
  | cons c s ih =>
    rw [collapse, List.forall_mem_cons]
    by_cases hc : c ∈ illegalChars
    · cases run <;> simp [hc, hline, ih]
    · simp [hc, ih]

theorem head_collapse (s : List Char) (hs : s ≠ []) :
    ∃ c ∈ s.head?, (collapse false s).head? = some c ∨ (collapse false s).head? = some '_' := by
  cases s with
  | nil => exact absurd rfl hs
  | cons c s =>
    refine ⟨c, rfl, ?_⟩
    rw [collapse]
    split
    · exact .inr rfl
    · exact .inl rfl

theorem head_shortened (literal : Literal) : ∃ c, (shortened literal).head? = some c ∧ c.isDigit = false := by
  rw [shortened]
  split
  · exact ⟨'_', rfl, by decide⟩
  · rename_i hinteger
    cases literal with
    | nil => exact absurd rfl hinteger
    | cons c literal =>
      refine ⟨c, rfl, ?_⟩
      rw [Bool.eq_false_iff]
      intro hdigit
      apply hinteger
      have hzero : c ≠ '\x00' := by
        rintro rfl
        exact absurd hdigit (by decide)
      simp [isInteger, hzero, hdigit]

/-- The name that is tried first begins with no digit, and it is legal if the characters of the literal are or are replaced. -/
theorem legal_firstName_iff (literal : Literal) :
    LegalMacro (firstName literal) ↔ ∀ c ∈ shortened literal, isIdChar c = true ∨ c ∈ illegalChars := by
  obtain ⟨c, hhead, hdigit⟩ := head_shortened literal
  set name := collapse false ((shortened literal).map Char.toUpper) with hname
  have hupper : ((shortened literal).map Char.toUpper).head? = some c.toUpper := by
    rw [List.head?_map, hhead]
    rfl
  have hchars : (∀ x ∈ name, isIdChar x = true) ↔ ∀ x ∈ shortened literal, isIdChar x = true ∨ x ∈ illegalChars := by
    rw [hname, collapse_legal_iff, List.forall_mem_map]
    simp only [toUpper_spec]
  have hfirst : ∃ x, name.head? = some x ∧ x.isDigit = false := by
    obtain ⟨x, hx, hcollapse⟩ := head_collapse ((shortened literal).map Char.toUpper) (by rintro hnil; rw [hnil] at hupper; cases hupper)
    obtain rfl := Option.some.inj (hupper.symm.trans hx)
    rcases hcollapse with hcollapse | hcollapse
    · exact ⟨_, hcollapse, by rw [(toUpper_spec c).2.2, hdigit]⟩
    · exact ⟨_, hcollapse, by decide⟩
  obtain ⟨x, hx, hxdigit⟩ := hfirst
  obtain ⟨rest, hcons⟩ : ∃ rest, name = x :: rest := List.head?_eq_some_iff.mp hx
  have hlong : ¬ name.length < 1 := by
    rw [hcons, List.length_cons]
    omega
  rw [← hchars]
  have hresult : firstName literal = if name.length < 2 ∧ name[0]? = some '_' then "_WEIRD_CHARS".toList else name := by
    rw [firstName]
    simp only [← hname, if_neg hlong]
  rw [hresult]
  split
  · rename_i hweird
    obtain ⟨hshort, hline⟩ := hweird
    have hall : "_WEIRD_CHARS".toList.all isIdChar = true := by decide +kernel
    have hhead : "_WEIRD_CHARS".toList.head? = some '_' := by decide +kernel
    have hdigit : ∀ c ∈ "_WEIRD_CHARS".toList.head?, c.isDigit = false := by
      rw [hhead]
      rintro c ⟨⟩
      rfl
    refine iff_of_true ⟨by decide +kernel, List.all_eq_true.mp hall, hdigit⟩ ?_
    rw [hcons] at hshort hline ⊢
    obtain rfl : rest = [] := List.length_eq_zero_iff.mp (by rw [List.length_cons] at hshort; omega)
    obtain rfl : x = '_' := Option.some.inj hline
    exact List.forall_mem_singleton.mpr (by decide)
  · constructor
    · exact fun h => h.chars
    · intro hall
      refine ⟨by rw [hcons]; exact List.cons_ne_nil _ _, hall, ?_⟩
      rw [hx]
      intro y hy
      obtain rfl := Option.some.inj hy
      exact hxdigit

/-! ### The loop -/

theorem isDigit_suffix {n : Nat} {c : Char} (h : c ∈ Nat.toDigits 10 n) : c.isDigit = true :=
  Nat.isDigit_of_mem_toDigits (by decide) (by decide) h

theorem not_legal_toDigits (n : Nat) : ¬ LegalMacro (Nat.toDigits 10 n) := by
  intro h
  cases hdigits : Nat.toDigits 10 n with
  | nil => exact h.nonempty hdigits
  | cons c rest =>
    have hdigit : c.isDigit = true := isDigit_suffix (by rw [hdigits]; exact List.mem_cons_self)
    have hno := h.noDigit c (by rw [hdigits]; rfl)
    rw [hdigit] at hno
    cases hno

/-- As long as the number is shorter, the name keeps its length and its first character. -/
theorem legal_overwrite {index : Nat} {macroName : List Char} (h : LegalMacro macroName)
    (hshort : (Nat.toDigits 10 index).length < macroName.length) :
    LegalMacro (overwrite index macroName) ∧ (overwrite index macroName).length = macroName.length := by
  have hoverwrite : overwrite index macroName =
      macroName.take (macroName.length - (Nat.toDigits 10 index).length) ++ Nat.toDigits 10 index := if_pos hshort
  rw [hoverwrite]
  constructor
  · obtain ⟨c, rest, hcons⟩ := List.exists_cons_of_ne_nil h.nonempty
    have htake : (macroName.take (macroName.length - (Nat.toDigits 10 index).length) ++ Nat.toDigits 10 index).head? = some c := by
      obtain ⟨k, hk⟩ : ∃ k, macroName.length - (Nat.toDigits 10 index).length = k + 1 := ⟨_, (Nat.succ_pred (by omega)).symm⟩
      rw [hk, hcons]
      rfl
    refine ⟨?_, ?_, ?_⟩
    · intro hnil
      rw [hnil] at htake
      cases htake
    · intro x hx
      rcases List.mem_append.mp hx with hx | hx
      · exact h.chars x (List.mem_of_mem_take hx)
      · rw [isIdChar, isDigit_suffix hx, Bool.or_true, Bool.true_or]
    · rw [htake]
      intro x hx
      exact h.noDigit x (by rw [hcons]; exact hx)
  · rw [List.length_append, List.length_take]
    omega

/-- The candidates are legal before a number gets as long as the name. -/
theorem legal_candidate {macroName : List Char} (h : LegalMacro macroName) {k : Nat}
    (hshort : ∀ j < k, (Nat.toDigits 10 ((j + 2) % 2 ^ 32)).length < macroName.length) :
    LegalMacro (candidate macroName k) ∧ (candidate macroName k).length = macroName.length := by
  induction k with
  | zero => exact ⟨h, rfl⟩
  | succ k ih =>
    obtain ⟨hlegal, hlength⟩ := ih fun j hj => hshort j (Nat.lt_succ_of_lt hj)
    have hfits : (Nat.toDigits 10 ((k + 2) % 2 ^ 32)).length < (candidate macroName k).length := by
      rw [hlength]
      exact hshort k (Nat.lt_succ_self k)
    have hnext := legal_overwrite hlegal hfits
    exact ⟨hnext.1, hnext.2.trans hlength⟩

/-- The loop returns the first candidate that is not taken. -/
theorem macroLoop_eq_some_iff (macroNameSet : List (List Char)) (macroName r : List Char) (rounds k : Nat) :
    macroLoop macroNameSet rounds ((k + 2) % 2 ^ 32) (candidate macroName k) = some r ↔
      ∃ j, k ≤ j ∧ j < k + rounds ∧ r = candidate macroName j ∧ r ∉ macroNameSet ∧
        ∀ i, k ≤ i → i < j → candidate macroName i ∈ macroNameSet := by
  induction rounds generalizing k with
  | zero =>
    apply iff_of_false
    · intro h
      cases h
    · rintro ⟨j, hkj, hj, -⟩
      omega
  | succ rounds ih =>
    have hindex : ((k + 2) % 2 ^ 32 + 1) % 2 ^ 32 = (k + 1 + 2) % 2 ^ 32 := by omega
    rw [macroLoop, hindex]
    split
    · rename_i htaken
      have hnext : overwrite ((k + 2) % 2 ^ 32) (candidate macroName k) = candidate macroName (k + 1) := rfl
      rw [hnext, ih]
      constructor
      · rintro ⟨j, hkj, hj, hr, hfree, hbefore⟩
        refine ⟨j, by omega, by omega, hr, hfree, ?_⟩
        intro i hki hij
        rcases Nat.eq_or_lt_of_le hki with rfl | hki
        · exact htaken
        · exact hbefore i hki hij
      · rintro ⟨j, hkj, hj, rfl, hfree, hbefore⟩
        have hne : j ≠ k := by
          rintro rfl
          exact hfree htaken
        exact ⟨j, by omega, by omega, rfl, hfree, fun i hki hij => hbefore i (by omega) hij⟩
    · rename_i hfree
      constructor
      · intro h
        obtain rfl := Option.some.inj h
        exact ⟨k, le_rfl, by omega, rfl, hfree, fun i hki hik => by omega⟩
      · rintro ⟨j, hkj, hj, rfl, -, hbefore⟩
        rcases Nat.eq_or_lt_of_le hkj with rfl | hkj
        · rfl
        · exact absurd (hbefore k le_rfl hkj) hfree

/-- With rounds enough the loop returns exactly the first candidate that is not taken. -/
theorem exists_macroLoop_iff {macroNameSet : List (List Char)} {macroName r : List Char} :
    (∃ rounds, macroLoop macroNameSet rounds 2 macroName = some r) ↔
      ∃ j, r = candidate macroName j ∧ r ∉ macroNameSet ∧ ∀ i < j, candidate macroName i ∈ macroNameSet := by
  have hloop := fun rounds => macroLoop_eq_some_iff macroNameSet macroName r rounds 0
  constructor
  · rintro ⟨rounds, h⟩
    obtain ⟨j, -, -, hr, hfree, hbefore⟩ := (hloop rounds).mp h
    exact ⟨j, hr, hfree, fun i hi => hbefore i (Nat.zero_le i) hi⟩
  · rintro ⟨j, hr, hfree, hbefore⟩
    exact ⟨j + 1, (hloop (j + 1)).mpr ⟨j, Nat.zero_le j, by omega, hr, hfree, fun i _ hi => hbefore i hi⟩⟩

/-- The first candidate that is not taken is legal exactly when there is one before the numbers get as long as the name, provided
that the names that are taken are legal. -/
theorem exists_legal_iff {macroNameSet : List (List Char)} {macroName : List Char} (htaken : ∀ n ∈ macroNameSet, LegalMacro n) :
    (∃ r, (∃ rounds, macroLoop macroNameSet rounds 2 macroName = some r) ∧ LegalMacro r) ↔
      LegalMacro macroName ∧ ∃ k, candidate macroName k ∉ macroNameSet ∧
        ∀ j < k, (Nat.toDigits 10 ((j + 2) % 2 ^ 32)).length < macroName.length := by
  simp only [exists_macroLoop_iff]
  constructor
  · rintro ⟨r, ⟨j, rfl, hfree, hbefore⟩, hlegal⟩
    have hall : ∀ i ≤ j, LegalMacro (candidate macroName i) := by
      intro i hi
      rcases Nat.eq_or_lt_of_le hi with rfl | hi
      · exact hlegal
      · exact htaken _ (hbefore i hi)
    have hfirst : LegalMacro macroName := hall 0 (Nat.zero_le j)
    refine ⟨hfirst, j, hfree, ?_⟩
    intro i
    induction i using Nat.strong_induction_on with
    | _ i ih =>
      intro hi
      by_contra hlong
      -- the next name is the number
      have hlength := (legal_candidate hfirst fun m hm => ih m hm (hm.trans hi)).2
      have hnumber : candidate macroName (i + 1) = Nat.toDigits 10 ((i + 2) % 2 ^ 32) := by
        show overwrite ((i + 2) % 2 ^ 32) (candidate macroName i) = _
        exact if_neg (by rw [hlength]; exact hlong)
      exact not_legal_toDigits _ (hnumber ▸ hall (i + 1) hi)
  · rintro ⟨hfirst, k, hfree, hshort⟩
    have hexists : ∃ j, candidate macroName j ∉ macroNameSet := ⟨k, hfree⟩
    classical
    have hle : Nat.find hexists ≤ k := Nat.find_min' hexists hfree
    refine ⟨_, ⟨Nat.find hexists, rfl, Nat.find_spec hexists, ?_⟩, ?_⟩
    · intro i hi
      exact not_not.mp (Nat.find_min hexists hi)
    · exact (legal_candidate hfirst fun j hj => hshort j (hj.trans_le hle)).1

/-! ### Runs -/

theorem createMacroNames_concat (rounds : Nat) (literals : List Literal) (literal : Literal) :
    createMacroNames rounds (literals ++ [literal]) = (createMacroNames rounds literals).bind fun (macros, t) =>
      (createMacroName rounds t literal).map fun (m, t) => (macros ++ [m], t) :=
  List.foldlM_concat _ _ literals literal

theorem createMacroName_mono {rounds rounds' : Nat} (hle : rounds ≤ rounds') {t : MacroTable} {literal : Literal}
    {x : List Char × MacroTable} (h : createMacroName rounds t literal = some x) : createMacroName rounds' t literal = some x := by
  rw [createMacroName] at h ⊢
  cases hknown : t.strMacros literal with
  | some macroName =>
    rw [hknown] at h
    exact h
  | none =>
    rw [hknown] at h
    obtain ⟨r, hr, rfl⟩ := Option.map_eq_some_iff.mp h
    have hloop := fun rounds => macroLoop_eq_some_iff t.macroNameSet (firstName literal) r rounds 0
    obtain ⟨j, hj, hlt, hr⟩ := (hloop rounds).mp hr
    have hmore : macroLoop t.macroNameSet rounds' 2 (firstName literal) = some r := (hloop rounds').mpr ⟨j, hj, by omega, hr⟩
    exact congrArg (Option.map _) hmore

theorem createMacroNames_mono {rounds rounds' : Nat} (hle : rounds ≤ rounds') {literals : List Literal}
    {x : List (List Char) × MacroTable} (h : createMacroNames rounds literals = some x) :
    createMacroNames rounds' literals = some x := by
  induction literals using List.reverseRecOn generalizing x with
  | nil => exact h
  | append_singleton literals literal ih =>
    rw [createMacroNames_concat] at h ⊢
    obtain ⟨⟨macros, t⟩, hrun, hcall⟩ := Option.bind_eq_some_iff.mp h
    obtain ⟨y, hy, rfl⟩ := Option.map_eq_some_iff.mp hcall
    rw [ih hrun, Option.bind_some]
    exact congrArg (Option.map _) (createMacroName_mono hle hy)

theorem createMacroNames_unique {rounds rounds' : Nat} {literals : List Literal} {x x' : List (List Char) × MacroTable}
    (h : createMacroNames rounds literals = some x) (h' : createMacroNames rounds' literals = some x') : x = x' :=
  Option.some.inj ((createMacroNames_mono (le_max_left rounds rounds') h).symm.trans
    (createMacroNames_mono (le_max_right rounds rounds') h'))

/-- The table after some calls: each literal has the macro that its calls returned, and no two have the same. -/
structure Tabled (literals : List Literal) (macros : List (List Char)) (t : MacroTable) : Prop where
  macros_eq : macros = literals.map fun l => (t.strMacros l).getD []
  known : ∀ l, (t.strMacros l).isSome ↔ l ∈ literals
  mem : ∀ n, n ∈ t.macroNameSet ↔ ∃ l, t.strMacros l = some n
  injective : ∀ l l' n, t.strMacros l = some n → t.strMacros l' = some n → l = l'

theorem tabled_new {literals : List Literal} {macros : List (List Char)} {t t' : MacroTable} (h : Tabled literals macros t)
    {literal : Literal} {m : List Char} (hknown : t.strMacros literal = none) (hfree : m ∉ t.macroNameSet)
    (hself : t'.strMacros literal = some m) (hother : ∀ l, l ≠ literal → t'.strMacros l = t.strMacros l)
    (hset : t'.macroNameSet = m :: t.macroNameSet) : Tabled (literals ++ [literal]) (macros ++ [m]) t' := by
  have hnew : literal ∉ literals := by
    rw [← h.known, hknown]
    exact Bool.false_ne_true
  constructor
  · rw [List.map_append, List.map_singleton, hself, h.macros_eq]
    congr 1
    apply List.map_congr_left
    intro l hl
    rw [hother l (ne_of_mem_of_not_mem hl hnew)]
  · intro l
    rw [List.mem_append, List.mem_singleton, ← h.known]
    by_cases hl : l = literal
    · simp [hl, hself]
    · rw [hother l hl]
      simp [hl]
  · intro n
    rw [hset, List.mem_cons, h.mem]
    constructor
    · rintro (rfl | ⟨l, hl⟩)
      · exact ⟨literal, hself⟩
      · have hne : l ≠ literal := by
          rintro rfl
          rw [hknown] at hl
          cases hl
        exact ⟨l, (hother l hne).trans hl⟩
    · rintro ⟨l, hl⟩
      by_cases hliteral : l = literal
      · rw [hliteral, hself] at hl
        exact .inl (Option.some.inj hl).symm
      · exact .inr ⟨l, (hother l hliteral).symm.trans hl⟩
  · have htaken : ∀ {l}, l ≠ literal → t'.strMacros l ≠ some m := by
      intro l hl hm
      rw [hother l hl] at hm
      exact hfree ((h.mem m).mpr ⟨l, hm⟩)
    intro l l' n hl hl'
    by_cases hliteral : l = literal <;> by_cases hliteral' : l' = literal
    · rw [hliteral, hliteral']
    · rw [hliteral, hself] at hl
      obtain rfl := Option.some.inj hl
      exact absurd hl' (htaken hliteral')
    · rw [hliteral', hself] at hl'
      obtain rfl := Option.some.inj hl'
      exact absurd hl (htaken hliteral)
    · rw [hother l hliteral] at hl
      rw [hother l' hliteral'] at hl'
      exact h.injective l l' n hl hl'

theorem tabled_createMacroName {literals : List Literal} {macros : List (List Char)} {t : MacroTable} (h : Tabled literals macros t)
    {rounds : Nat} {literal : Literal} {m : List Char} {t' : MacroTable} (hcall : createMacroName rounds t literal = some (m, t')) :
    Tabled (literals ++ [literal]) (macros ++ [m]) t' := by
  rw [createMacroName] at hcall
  cases hknown : t.strMacros literal with
  | some macroName =>
    rw [hknown] at hcall
    obtain ⟨rfl, rfl⟩ := Prod.mk.inj (Option.some.inj hcall)
    have hmem : literal ∈ literals := (h.known literal).mp (by rw [hknown]; rfl)
    refine ⟨?_, ?_, h.mem, h.injective⟩
    · rw [h.macros_eq, List.map_append, List.map_singleton, hknown]
      rfl
    · intro l
      rw [h.known, List.mem_append, List.mem_singleton]
      exact ⟨.inl, fun hl => hl.elim id fun heq => heq ▸ hmem⟩
  | none =>
    rw [hknown] at hcall
    obtain ⟨r, hr, heq⟩ := Option.map_eq_some_iff.mp hcall
    obtain ⟨rfl, rfl⟩ := Prod.mk.inj heq
    obtain ⟨-, -, hfree, -⟩ := exists_macroLoop_iff.mp ⟨_, hr⟩
    exact tabled_new h hknown hfree (Function.update_self ..) (fun l hl => Function.update_of_ne hl _ _) rfl

theorem tabled_createMacroNames {rounds : Nat} {literals : List Literal} {macros : List (List Char)} {t : MacroTable}
    (h : createMacroNames rounds literals = some (macros, t)) : Tabled literals macros t := by
  induction literals using List.reverseRecOn generalizing macros t with
  | nil =>
    obtain ⟨rfl, rfl⟩ := Prod.mk.inj (Option.some.inj h)
    refine ⟨rfl, fun l => by simp, fun n => by simp, ?_⟩
    intro l l' n hl
    cases hl
  | append_singleton literals literal ih =>
    rw [createMacroNames_concat] at h
    obtain ⟨⟨macros₀, t₀⟩, hrun, hcall⟩ := Option.bind_eq_some_iff.mp h
    obtain ⟨⟨m, t₁⟩, hm, heq⟩ := Option.map_eq_some_iff.mp hcall
    obtain ⟨rfl, rfl⟩ := Prod.mk.inj heq
    exact tabled_createMacroName (ih hrun) hm

/-- Literals keep their macros, and different ones have different ones; all that can go wrong is that one is not legal. -/
theorem properMacros_iff {literals : List Literal} {macros : List (List Char)} {t : MacroTable} (h : Tabled literals macros t) :
    ProperMacros literals macros ↔ ∀ n ∈ t.macroNameSet, LegalMacro n := by
  have hsome : ∀ l ∈ literals, t.strMacros l = some ((t.strMacros l).getD []) := by
    intro l hl
    obtain ⟨n, hn⟩ := Option.isSome_iff_exists.mp ((h.known l).mpr hl)
    rw [hn]
    rfl
  constructor
  · rintro ⟨macroOf, hmacros, -, hlegal⟩ n hn
    obtain ⟨l, hl⟩ := (h.mem n).mp hn
    have hmem : l ∈ literals := (h.known l).mp (by rw [hl]; rfl)
    have hsame := List.map_inj_left.mp (hmacros.symm.trans h.macros_eq) l hmem
    rw [hl, Option.getD_some] at hsame
    rw [← hsame]
    exact hlegal l hmem
  · intro hlegal
    refine ⟨_, h.macros_eq, ?_, ?_⟩
    · intro l hl l' hl' heq
      exact h.injective l l' _ (hsome l hl) ((hsome l' hl').trans (congrArg some heq.symm))
    · intro l hl
      exact hlegal _ ((h.mem _).mpr ⟨l, hsome l hl⟩)

/-- A call returns a legal macro exactly when the literal is one that can be named. -/
theorem createMacroName_legal_iff {t : MacroTable} {literal : Literal} (hlegal : ∀ n ∈ t.macroNameSet, LegalMacro n) :
    (∃ rounds m t', createMacroName rounds t literal = some (m, t') ∧ ∀ n ∈ t'.macroNameSet, LegalMacro n) ↔
      Nameable t literal := by
  cases hknown : t.strMacros literal with
  | some macroName =>
    have hcall : ∀ rounds, createMacroName rounds t literal = some (macroName, t) := by
      intro rounds
      rw [createMacroName, hknown]
    exact iff_of_true ⟨0, macroName, t, hcall 0, hlegal⟩ (.inl (by rw [hknown]; rfl))
  | none =>
    have hcall : ∀ rounds, createMacroName rounds t literal =
        (macroLoop t.macroNameSet rounds 2 (firstName literal)).map fun macroName =>
          (macroName, ⟨Function.update t.strMacros literal (some macroName), macroName :: t.macroNameSet⟩) := by
      intro rounds
      rw [createMacroName, hknown]
    rw [Nameable, hknown, ← legal_firstName_iff, ← exists_legal_iff hlegal]
    constructor
    · rintro ⟨rounds, m, t', hm, hlegal'⟩
      rw [hcall] at hm
      obtain ⟨r, hr, heq⟩ := Option.map_eq_some_iff.mp hm
      obtain ⟨rfl, rfl⟩ := Prod.mk.inj heq
      exact .inr ⟨r, ⟨rounds, hr⟩, hlegal' r List.mem_cons_self⟩
    · rintro (hsome | ⟨r, ⟨rounds, hr⟩, hr'⟩)
      · cases hsome
      · refine ⟨rounds, r, _, by rw [hcall, hr]; rfl, ?_⟩
        exact List.forall_mem_cons.mpr ⟨hr', hlegal⟩

theorem subset_createMacroName {rounds : Nat} {t : MacroTable} {literal : Literal} {m : List Char} {t' : MacroTable}
    (h : createMacroName rounds t literal = some (m, t')) : t.macroNameSet ⊆ t'.macroNameSet := by
  rw [createMacroName] at h
  split at h
  · obtain ⟨-, rfl⟩ := Prod.mk.inj (Option.some.inj h)
    exact List.Subset.refl _
  · obtain ⟨r, -, heq⟩ := Option.map_eq_some_iff.mp h
    obtain ⟨-, rfl⟩ := Prod.mk.inj heq
    exact List.subset_cons_self _ _

theorem exists_createMacroNames_of_append {rounds : Nat} (before after : List Literal) {macros : List (List Char)} {t : MacroTable}
    (h : createMacroNames rounds (before ++ after) = some (macros, t)) :
    ∃ macros₀ t₀, createMacroNames rounds before = some (macros₀, t₀) ∧ t₀.macroNameSet ⊆ t.macroNameSet := by
  induction after using List.reverseRecOn generalizing macros t with
  | nil =>
    rw [List.append_nil] at h
    exact ⟨macros, t, h, List.Subset.refl _⟩
  | append_singleton after literal ih =>
    rw [← List.append_assoc, createMacroNames_concat] at h
    obtain ⟨⟨macros₁, t₁⟩, hrun, hcall⟩ := Option.bind_eq_some_iff.mp h
    obtain ⟨⟨m, t₂⟩, hm, heq⟩ := Option.map_eq_some_iff.mp hcall
    obtain ⟨rfl, rfl⟩ := Prod.mk.inj heq
    obtain ⟨macros₀, t₀, hbefore, hsubset⟩ := ih hrun
    exact ⟨macros₀, t₀, hbefore, List.Subset.trans hsubset (subset_createMacroName hm)⟩

/-- All calls return and their macros are legal, the same for the same literal and different for different ones, exactly when each
literal can be named at its time. -/
theorem properMacros_iff_nameable (literals : List Literal) :
    (∃ rounds macros t, createMacroNames rounds literals = some (macros, t) ∧ ProperMacros literals macros) ↔
      ∀ before literal rounds macros t, before ++ [literal] <+: literals → createMacroNames rounds before = some (macros, t) →
        Nameable t literal := by
  have hlegal_iff : ∀ {l : List Literal}, (∃ rounds macros t, createMacroNames rounds l = some (macros, t) ∧ ProperMacros l macros) ↔
      ∃ rounds macros t, createMacroNames rounds l = some (macros, t) ∧ ∀ n ∈ t.macroNameSet, LegalMacro n := by
    intro l
    constructor
    · rintro ⟨rounds, macros, t, hrun, hproper⟩
      exact ⟨rounds, macros, t, hrun, (properMacros_iff (tabled_createMacroNames hrun)).mp hproper⟩
    · rintro ⟨rounds, macros, t, hrun, hlegal⟩
      exact ⟨rounds, macros, t, hrun, (properMacros_iff (tabled_createMacroNames hrun)).mpr hlegal⟩
  rw [hlegal_iff]
  constructor
  · rintro ⟨rounds, macros, t, hrun, hlegal⟩ before literal rounds' macros' t' ⟨after, rfl⟩ hrun'
    obtain ⟨macros₁, t₁, hcalls, hsubset⟩ := exists_createMacroNames_of_append (before ++ [literal]) after hrun
    rw [createMacroNames_concat] at hcalls
    obtain ⟨⟨macros₀, t₀⟩, hbefore, hcall⟩ := Option.bind_eq_some_iff.mp hcalls
    obtain ⟨⟨m, t₂⟩, hm, heq⟩ := Option.map_eq_some_iff.mp hcall
    obtain ⟨rfl, rfl⟩ := Prod.mk.inj heq
    obtain ⟨rfl, rfl⟩ := Prod.mk.inj (createMacroNames_unique hbefore hrun')
    have hlegal₁ : ∀ n ∈ t₂.macroNameSet, LegalMacro n := fun n hn => hlegal n (hsubset hn)
    exact (createMacroName_legal_iff fun n hn => hlegal₁ n (subset_createMacroName hm hn)).mp ⟨rounds, m, t₂, hm, hlegal₁⟩
  · intro hnameable
    have hall : ∀ before, before <+: literals →
        ∃ rounds macros t, createMacroNames rounds before = some (macros, t) ∧ ∀ n ∈ t.macroNameSet, LegalMacro n := by
      intro before
      induction before using List.reverseRecOn with
      | nil => exact fun _ => ⟨0, [], {}, rfl, List.forall_mem_nil _⟩
      | append_singleton before literal ih =>
        intro hpre
        obtain ⟨rounds, macros, t, hrun, hlegal⟩ := ih ((List.prefix_append _ _).trans hpre)
        obtain ⟨rounds', m, t', hm, hlegal'⟩ :=
          (createMacroName_legal_iff hlegal).mpr (hnameable before literal rounds macros t hpre hrun)
        refine ⟨max rounds rounds', macros ++ [m], t', ?_, hlegal'⟩
        rw [createMacroNames_concat, createMacroNames_mono (le_max_left _ _) hrun, Option.bind_some]
        exact congrArg (Option.map _) (createMacroName_mono (le_max_right rounds rounds') hm)
    exact hall literals List.prefix_rfl

/-- Two literals that differ in case: the number of the second one replaces the name. -/
theorem case_gives_number :
    ¬ ∃ rounds macros t, createMacroNames rounds [['a'], ['A']] = some (macros, t) ∧ ProperMacros [['a'], ['A']] macros := by
  rintro ⟨rounds, macros, t, hrun, macroOf, hmacros, -, hlegal⟩
  have hcalls : (createMacroNames 2 [['a'], ['A']]).map (·.1) = some [['A'], ['2']] := by decide +kernel
  obtain ⟨x, hx, heq⟩ := Option.map_eq_some_iff.mp hcalls
  rw [createMacroNames_unique hx hrun] at heq
  have hsecond : [macroOf ['a'], macroOf ['A']] = [['A'], ['2']] := hmacros.symm.trans heq
  have hnumber : macroOf ['A'] = ['2'] := (List.cons.inj (List.cons.inj hsecond).2).1
  have hlegal' := hlegal ['A'] (by simp)
  rw [hnumber] at hlegal'
  exact absurd (hlegal'.noDigit '2' rfl) (by decide)

end ChartToPromela

end Uscxml
