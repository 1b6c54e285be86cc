import Uscxml.EventDescriptors
import Uscxml.Lib.Trie

/-!
# Event tests of the generators

`ChartToPromela` and `ChartToVHDL` do not match descriptors at run time: they put the event names of a chart into a trie
(`transform/Trie.cpp`) and emit, for every transition, a test for each name they find below its descriptors. The two strip
wild cards from a descriptor in different ways before they look it up.
-/

namespace Uscxml

/-- The loop of `tokenize` from `i` on, when the current token begins at `start`. The number bounds the rounds. -/
def tokenizeLoop (text : List Char) : Nat → Nat → Nat → List (List Char)
  | 0, _, _ => []
  | n + 1, i, start =>
    match text[i]? with
    | none => []
    | some c =>
      if isspace c then
        let token := if 0 < i ∧ start < i then [substr start (i - start) text] else []
        let i := i + ((text.drop i).takeWhile isspace).length
        let start := i
        token ++ ((if i + 1 = text.length then [substr start (i + 1 - start) text] else []) ++
          tokenizeLoop text n (i + 1) start)
      else
        (if i + 1 = text.length then [substr start (i + 1 - start) text] else []) ++ tokenizeLoop text n (i + 1) start

/-- `tokenize` at white space. -/
def tokenize (text : List Char) : List (List Char) := tokenizeLoop text text.length 0 0

/-- `Trie::getNextToken` with the separator `.`, on what is left of the word: the token and what is left behind it. -/
def getNextToken : List Char → List Char × Option (List Char)
  | [] => ([], none)
  | c :: rest =>
    if c = '.' then getNextToken rest
    else
      match (c :: rest).dropWhile (· ≠ '.') with
      | [] => (c :: rest, none)
      | _ :: behind => ((c :: rest).takeWhile (· ≠ '.'), some behind)

/-- The tokens that the loops of `addWord` and `getNodeWithPrefix` go through. The number bounds the rounds. -/
def nextTokens : Nat → List Char → List (List Char)
  | 0, _ => []
  | n + 1, word =>
    let (token, behind) := getNextToken word
    (if token.length > 0 then [token] else []) ++ behind.elim [] (nextTokens n)

def wordTokens (word : List Char) : List (List Char) := nextTokens (word.length + 1) word

abbrev EventTrie := TrieNode (List Char) (List Char)

/-- `Trie::addWord`: the node at the end of the tokens gets the word unless it has one. -/
def EventTrie.addWord (trie : EventTrie) (word : List Char) : EventTrie := trie.insert (wordTokens word) word

def EventTrie.getNodeWithPrefix (trie : EventTrie) (word : List Char) : Option EventTrie := trie.find? (wordTokens word)

def EventTrie.getWordsWithPrefix (trie : EventTrie) (word : List Char) : List (List Char) :=
  (trie.getNodeWithPrefix word).elim [] TrieNode.words

/-- The event names of an `event` attribute: its tokens without one `*` and then one `.` at their end. -/
def eventNames (event : List Char) : List (List Char) :=
  ((tokenize event).map removeWildcard).filter fun eventName => eventName.length > 0

def eventTrie (words : List (List Char)) : EventTrie := words.foldl EventTrie.addWord TrieNode.empty

/-- A descriptor as `ChartToPromela` looks it up. -/
def promelaLiteral (eventLiteral : List Char) : List Char :=
  let eventLiteral := if ['.', '*'] <:+ eventLiteral then eventLiteral.take (eventLiteral.length - 2) else eventLiteral
  if ['.'] <:+ eventLiteral then eventLiteral.take (eventLiteral.length - 1) else eventLiteral

/-- The events `writeFSMSelectTransitions` tests for; there is no test for the attribute `*`. -/
def promelaEvents (trie : EventTrie) (event : List Char) : Option (List (List Char)) :=
  if event ≠ ['*'] then
    some ((tokenize event).flatMap fun eventLiteral => trie.getWordsWithPrefix (promelaLiteral eventLiteral))
  else none

/-- The events `writeOptimalTransitionSetSelection` tests for. -/
def vhdlEvents (trie : EventTrie) (event : List Char) : List (List Char) :=
  (tokenize event).flatMap fun desc => trie.getWordsWithPrefix (if desc = ['*'] then [] else desc)

/-- The emitted Promela tests let the event pass. -/
def PromelaPasses (trie : EventTrie) (event eventName : List Char) : Prop :=
  ∀ events, promelaEvents trie event = some events → eventName ∈ events

/-- The emitted VHDL tests let the event pass. -/
def VhdlPasses (trie : EventTrie) (event eventName : List Char) : Prop := eventName ∈ vhdlEvents trie event

/-! ### What descriptors mean, token by token -/

def nameTokens (name : List Char) : List (List Char) := (name.splitOnP (· = '.')).filter fun token => !token.isEmpty

/-- The tokens a descriptor asks for: none for `*`, and else those in front of a `.*` at its end. -/
def descTokens (desc : List Char) : List (List Char) :=
  if desc = ['*'] then []
  else if ['.', '*'] <:+ desc then nameTokens (desc.take (desc.length - 2))
  else nameTokens desc

/-- The tokens of the descriptor are the first tokens of the name. -/
def TokensMatch (desc eventName : List Char) : Prop := descTokens desc <+: nameTokens eventName

instance (desc eventName : List Char) : Decidable (TokensMatch desc eventName) := inferInstanceAs (Decidable (_ <+: _))

def SomeMatch (event eventName : List Char) : Prop := ∃ desc ∈ descriptors event, TokensMatch desc eventName

/-! ### The texts -/

theorem tokenizeLoop_of_length_le {text : List Char} {i : Nat} (h : text.length ≤ i) (n start : Nat) :
    tokenizeLoop text n i start = [] := by
  cases n with
  | zero => rfl
  | succ n => rw [tokenizeLoop, List.getElem?_eq_none h]

/-- The loop at the end of the piece `w` of a token, with `c :: rest` ahead. -/
theorem tokenizeLoop_eq (n : Nat) (pre w : List Char) (c : Char) (rest : List Char) (hw : ∀ x ∈ w, isspace x = false)
    (hn : (c :: rest).length ≤ n) :
    tokenizeLoop (pre ++ (w ++ c :: rest)) n (pre.length + w.length) pre.length = descriptors (w ++ c :: rest) := by
  induction n generalizing pre w c rest with
  | zero => simp at hn
  | succ n ih =>
    rw [List.length_cons] at hn
    have hdrop : (pre ++ (w ++ c :: rest)).drop (pre.length + w.length) = c :: rest := by
      rw [← List.append_assoc, ← List.length_append, List.drop_left]
    have hget : (pre ++ (w ++ c :: rest))[pre.length + w.length]? = some c := by
      rw [← List.head?_drop, hdrop]
      rfl
    have hsub : substr pre.length (pre.length + w.length - pre.length) (pre ++ (w ++ c :: rest)) = w := by
      rw [substr, List.drop_left, Nat.add_sub_cancel_left, List.take_left]
    rw [tokenizeLoop, hget]
    simp only
    cases hc : isspace c with
    | true =>
      rw [if_pos rfl, descriptors_append_space hw hc, hsub, hdrop, List.takeWhile_cons, if_pos hc, List.length_cons]
      congr 1
      · cases w with
        | nil => simp
        | cons x w => simp
      · -- Behind the white space a new token begins.
        rw [← descriptors_dropWhile rest]
        have hsplit : pre ++ (w ++ c :: rest) = (pre ++ w ++ c :: rest.takeWhile isspace) ++ rest.dropWhile isspace := by
          rw [List.append_assoc, List.append_assoc, List.cons_append, List.takeWhile_append_dropWhile]
        have hpos : pre.length + w.length + ((rest.takeWhile isspace).length + 1) =
            (pre ++ w ++ c :: rest.takeWhile isspace).length := by
          simp only [List.length_append, List.length_cons]
        rw [hsplit, hpos]
        have hless : (rest.dropWhile isspace).length ≤ rest.length := List.length_dropWhile_le isspace rest
        generalize pre ++ w ++ c :: rest.takeWhile isspace = pre'
        rcases hnext : rest.dropWhile isspace with _ | ⟨x, next⟩
        · rw [List.append_nil, if_neg (by omega), tokenizeLoop_of_length_le (by omega)]
          rfl
        · have hx : isspace x = false := by
            have := List.head?_dropWhile_not isspace rest
            rw [hnext] at this
            simpa using this
          have hsingle : ∀ y ∈ [x], isspace y = false := fun y hy => List.mem_singleton.mp hy ▸ hx
          cases next with
          | nil =>
            rw [if_pos (by simp), tokenizeLoop_of_length_le (by simp), descriptors_of_none hsingle, substr, List.drop_left]
            simp
          | cons y next =>
            rw [hnext, List.length_cons] at hless
            rw [if_neg (by simp), List.nil_append]
            exact ih pre' [x] y next hsingle (by omega)
    | false =>
      rw [if_neg Bool.false_ne_true]
      have hw' : ∀ x ∈ w ++ [c], isspace x = false :=
        List.forall_mem_append.mpr ⟨hw, List.forall_mem_singleton.mpr hc⟩
      cases rest with
      | nil =>
        rw [if_pos (by simp; omega), tokenizeLoop_of_length_le (by simp; omega), descriptors_of_none hw', if_neg (by simp),
          substr, List.drop_left, Nat.add_assoc, Nat.add_sub_cancel_left, List.take_of_length_le (by simp)]
        rfl
      | cons y rest =>
        rw [if_neg (by simp; omega), List.nil_append]
        have := ih pre (w ++ [c]) y rest hw' (by simpa using hn)
        simpa [Nat.add_assoc] using this

theorem tokenize_eq (text : List Char) : tokenize text = descriptors text := by
  cases text with
  | nil => rfl
  | cons c rest => exact tokenizeLoop_eq _ [] [] c rest (List.forall_mem_nil _) (Nat.le_refl _)

theorem nameTokens_append_dot (x y : List Char) : nameTokens (x ++ '.' :: y) = nameTokens x ++ nameTokens y := by
  rw [nameTokens, List.splitOnP_append_cons x y (by simp), List.filter_append]
  rfl

theorem nameTokens_of_no_dot {x : List Char} (h : ∀ c ∈ x, c ≠ '.') : nameTokens x = if x = [] then [] else [x] := by
  rw [nameTokens, List.splitOnP_eq_singleton (by simpa using h)]
  cases x with
  | nil => rfl
  | cons c x => rfl

theorem getNextToken_spec (word : List Char) :
    nameTokens word = (if (getNextToken word).1.length > 0 then [(getNextToken word).1] else []) ++
        (getNextToken word).2.elim [] nameTokens ∧
      ∀ behind, (getNextToken word).2 = some behind → behind.length < word.length := by
  induction word with
  | nil => exact ⟨rfl, by simp [getNextToken]⟩
  | cons c rest ih =>
    rw [getNextToken]
    split
    · rename_i hc
      subst hc
      have hdot : nameTokens ('.' :: rest) = nameTokens rest := nameTokens_append_dot [] rest
      rw [hdot]
      refine ⟨ih.1, fun behind h => ?_⟩
      have := ih.2 behind h
      rw [List.length_cons]
      omega
    · rename_i hc
      have hsplit := List.takeWhile_append_dropWhile (p := fun x => decide (x ≠ '.')) (l := c :: rest)
      have hfree : ∀ x ∈ (c :: rest).takeWhile (fun x => decide (x ≠ '.')), x ≠ '.' := by
        intro x hx
        simpa using List.mem_takeWhile_imp hx
      have hne : (c :: rest).takeWhile (fun x => decide (x ≠ '.')) ≠ [] := by simp [hc]
      generalize (c :: rest).takeWhile (fun x => decide (x ≠ '.')) = token at hsplit hfree hne
      cases hd : (c :: rest).dropWhile (fun x => decide (x ≠ '.')) with
      | nil =>
        rw [hd, List.append_nil] at hsplit
        subst hsplit
        refine ⟨?_, by simp⟩
        rw [nameTokens_of_no_dot hfree]
        simp
      | cons y behind =>
        have hy : y = '.' := by
          have := List.head?_dropWhile_not (fun x => decide (x ≠ '.')) (c :: rest)
          rw [hd] at this
          simpa using this
        rw [hd, hy] at hsplit
        rw [← hsplit]
        refine ⟨?_, ?_⟩
        · rw [nameTokens_append_dot, nameTokens_of_no_dot hfree, if_neg hne, if_pos (List.length_pos_iff.mpr hne)]
          rfl
        · intro b hb
          cases hb
          rw [List.length_append, List.length_cons]
          omega

theorem nextTokens_eq (n : Nat) (word : List Char) (h : word.length < n) : nextTokens n word = nameTokens word := by
  induction n generalizing word with
  | zero => omega
  | succ n ih =>
    obtain ⟨hspec, hlen⟩ := getNextToken_spec word
    rw [nextTokens, hspec]
    simp only
    cases hb : (getNextToken word).2 with
    | none => rfl
    | some behind =>
      have := hlen behind hb
      rw [Option.elim_some, Option.elim_some, ih behind (by omega)]

theorem wordTokens_eq (word : List Char) : wordTokens word = nameTokens word := nextTokens_eq _ word (Nat.lt_succ_self _)

/-! ### The trie -/

theorem distinct_eventTrie (words : List (List Char)) : (eventTrie words).Distinct :=
  TrieNode.distinct_foldl_insert wordTokens words TrieNode.distinct_empty

theorem nameTokens_of_get {words : List (List Char)} {ts : List (List Char)} {w : List Char}
    (h : (eventTrie words).get ts = some w) : nameTokens w = ts := by
  have hget := TrieNode.get_foldl_insert wordTokens words TrieNode.empty ts
  rw [TrieNode.get_empty, Option.none_or] at hget
  have hfind := List.find?_some (hget.symm.trans h)
  rw [← wordTokens_eq]
  exact of_decide_eq_true hfind

/-- The events of the trie below a word are those whose names begin with its tokens. -/
theorem mem_getWordsWithPrefix {words : List (List Char)} {eventName : List Char} (h : eventName ∈ (eventTrie words).words)
    (word : List Char) :
    eventName ∈ (eventTrie words).getWordsWithPrefix word ↔ nameTokens word <+: nameTokens eventName := by
  have hmem : eventName ∈ (eventTrie words).getWordsWithPrefix word ↔
      ∃ us, (eventTrie words).get (nameTokens word ++ us) = some eventName := by
    rw [← wordTokens_eq word]
    exact TrieNode.mem_words_find (distinct_eventTrie words)
  obtain ⟨ts, hts⟩ := (TrieNode.mem_words (distinct_eventTrie words)).mp h
  obtain rfl := nameTokens_of_get hts
  rw [hmem]
  constructor
  · rintro ⟨us, hus⟩
    exact ⟨us, (nameTokens_of_get hus).symm⟩
  · rintro ⟨us, hus⟩
    exact ⟨us, by rw [hus, hts]⟩

/-! ### Descriptors and what is looked up for them -/

theorem nameTokens_append_last_dot (x : List Char) : nameTokens (x ++ ['.']) = nameTokens x := by
  rw [nameTokens_append_dot]
  exact List.append_nil _

theorem take_of_suffix (x y : List Char) : (x ++ y).take ((x ++ y).length - y.length) = x := by
  rw [List.length_append, Nat.add_sub_cancel, List.take_left]

theorem nameTokens_promelaLiteral {desc : List Char} (h : desc ≠ ['*']) :
    nameTokens (promelaLiteral desc) = descTokens desc := by
  have hdot : ∀ x : List Char, nameTokens (if ['.'] <:+ x then x.take (x.length - 1) else x) = nameTokens x := by
    intro x
    split
    · rename_i hx
      obtain ⟨y, rfl⟩ := hx
      have htake := take_of_suffix y ['.']
      rw [List.length_singleton] at htake
      rw [htake, nameTokens_append_last_dot]
    · rfl
  rw [promelaLiteral, descTokens, if_neg h]
  simp only [hdot]
  split
  · rfl
  · rfl

/-- Without a `.*` at its end a descriptor is looked up in VHDL as it should be, and with it one token too many. -/
theorem nameTokens_vhdl (desc : List Char) :
    nameTokens (if desc = ['*'] then [] else desc) =
      descTokens desc ++ if ['.', '*'] <:+ desc then [['*']] else [] := by
  rw [descTokens]
  by_cases hstar : desc = ['*']
  · subst hstar
    rfl
  rw [if_neg hstar, if_neg hstar]
  split
  · rename_i hsuf
    obtain ⟨x, rfl⟩ := hsuf
    have htake := take_of_suffix x ['.', '*']
    rw [List.length_cons, List.length_singleton] at htake
    rw [htake, nameTokens_append_dot, nameTokens_of_no_dot (x := ['*']) (by simp)]
    rfl
  · rw [List.append_nil]

section Tests

variable {words : List (List Char)} {event eventName : List Char} (h : eventName ∈ (eventTrie words).words)

include h

theorem promelaPasses_iff :
    PromelaPasses (eventTrie words) event eventName ↔
      event = ['*'] ∨ ∃ desc ∈ descriptors event, nameTokens (promelaLiteral desc) <+: nameTokens eventName := by
  rw [PromelaPasses, promelaEvents]
  by_cases hstar : event = ['*']
  · simp [hstar]
  · simp only [hstar, ne_eq, not_false_eq_true, if_true, Option.some.injEq, forall_eq', false_or, tokenize_eq,
      List.mem_flatMap, mem_getWordsWithPrefix h]

theorem vhdlPasses_iff :
    VhdlPasses (eventTrie words) event eventName ↔
      ∃ desc ∈ descriptors event, (descTokens desc ++ if ['.', '*'] <:+ desc then [['*']] else []) <+: nameTokens eventName := by
  simp only [VhdlPasses, vhdlEvents, tokenize_eq, List.mem_flatMap, mem_getWordsWithPrefix h, nameTokens_vhdl]

end Tests

/-- In Promela a `*` counts when it is the whole attribute; in a list it is looked up as a token. -/
theorem promela_exact_iff {words : List (List Char)} {event eventName : List Char}
    (h : eventName ∈ (eventTrie words).words) :
    (PromelaPasses (eventTrie words) event eventName ↔ SomeMatch event eventName) ↔
      (event = ['*'] ∨ ['*'] ∉ descriptors event ∨
        (∃ desc ∈ descriptors event, desc ≠ ['*'] ∧ TokensMatch desc eventName) ∨ [['*']] <+: nameTokens eventName) := by
  rw [promelaPasses_iff h, SomeMatch]
  by_cases hevent : event = ['*']
  · subst hevent
    have hmatch : ∃ desc ∈ descriptors ['*'], TokensMatch desc eventName :=
      ⟨['*'], by decide, List.nil_prefix⟩
    simp [hmatch]
  simp only [hevent, false_or]
  have hstar : nameTokens (promelaLiteral ['*']) = [['*']] := rfl
  have hother : ∀ desc, desc ≠ ['*'] → (nameTokens (promelaLiteral desc) <+: nameTokens eventName ↔ TokensMatch desc eventName) := by
    intro desc hdesc
    rw [nameTokens_promelaLiteral hdesc]
    rfl
  by_cases hmem : ['*'] ∈ descriptors event
  · have hmatch : ∃ desc ∈ descriptors event, TokensMatch desc eventName := ⟨['*'], hmem, List.nil_prefix⟩
    simp only [hmatch, iff_true, hmem, not_true_eq_false, false_or]
    constructor
    · rintro ⟨desc, hdesc, hpre⟩
      by_cases heq : desc = ['*']
      · rw [heq, hstar] at hpre
        exact Or.inr hpre
      · exact Or.inl ⟨desc, hdesc, heq, (hother desc heq).mp hpre⟩
    · rintro (⟨desc, hdesc, hne, hpre⟩ | hpre)
      · exact ⟨desc, hdesc, (hother desc hne).mpr hpre⟩
      · exact ⟨['*'], hmem, hstar ▸ hpre⟩
  · simp only [hmem, not_false_eq_true, true_or, iff_true]
    refine exists_congr fun desc => and_congr_right fun hdesc => hother desc ?_
    rintro rfl
    exact hmem hdesc

/-- In VHDL a descriptor with `.*` at its end is looked up with its star. -/
theorem vhdl_exact_iff {words : List (List Char)} {event eventName : List Char} (h : eventName ∈ (eventTrie words).words) :
    (VhdlPasses (eventTrie words) event eventName ↔ SomeMatch event eventName) ↔
      ((∃ desc ∈ descriptors event, ['.', '*'] <:+ desc ∧ TokensMatch desc eventName) →
        (∃ desc ∈ descriptors event, ¬ ['.', '*'] <:+ desc ∧ TokensMatch desc eventName) ∨
          ∃ desc ∈ descriptors event, ['.', '*'] <:+ desc ∧ descTokens desc ++ [['*']] <+: nameTokens eventName) := by
  have hpasses : VhdlPasses (eventTrie words) event eventName ↔
      (∃ desc ∈ descriptors event, ¬ ['.', '*'] <:+ desc ∧ TokensMatch desc eventName) ∨
        ∃ desc ∈ descriptors event, ['.', '*'] <:+ desc ∧ descTokens desc ++ [['*']] <+: nameTokens eventName := by
    rw [vhdlPasses_iff h]
    constructor
    · rintro ⟨desc, hdesc, hpre⟩
      split at hpre
      · rename_i hsuf
        exact Or.inr ⟨desc, hdesc, hsuf, hpre⟩
      · rename_i hsuf
        exact Or.inl ⟨desc, hdesc, hsuf, by rwa [List.append_nil] at hpre⟩
    · rintro (⟨desc, hdesc, hsuf, hpre⟩ | ⟨desc, hdesc, hsuf, hpre⟩)
      · exact ⟨desc, hdesc, by rw [if_neg hsuf, List.append_nil]; exact hpre⟩
      · exact ⟨desc, hdesc, by rwa [if_pos hsuf]⟩
  have hsome : SomeMatch event eventName ↔
      (∃ desc ∈ descriptors event, ['.', '*'] <:+ desc ∧ TokensMatch desc eventName) ∨
        ∃ desc ∈ descriptors event, ¬ ['.', '*'] <:+ desc ∧ TokensMatch desc eventName := by
    constructor
    · rintro ⟨desc, hdesc, hmatch⟩
      by_cases hsuf : ['.', '*'] <:+ desc
      · exact Or.inl ⟨desc, hdesc, hsuf, hmatch⟩
      · exact Or.inr ⟨desc, hdesc, hsuf, hmatch⟩
    · rintro (⟨desc, hdesc, -, hmatch⟩ | ⟨desc, hdesc, -, hmatch⟩)
      · exact ⟨desc, hdesc, hmatch⟩
      · exact ⟨desc, hdesc, hmatch⟩
  have hlonger : (∃ desc ∈ descriptors event, ['.', '*'] <:+ desc ∧ descTokens desc ++ [['*']] <+: nameTokens eventName) →
      ∃ desc ∈ descriptors event, ['.', '*'] <:+ desc ∧ TokensMatch desc eventName := by
    rintro ⟨desc, hdesc, hsuf, hpre⟩
    exact ⟨desc, hdesc, hsuf, (List.prefix_append _ _).trans hpre⟩
  rw [hpasses, hsome]
  clear hpasses hsome h
  generalize (∃ desc ∈ descriptors event, ['.', '*'] <:+ desc ∧ TokensMatch desc eventName) = starred at hlonger ⊢
  generalize (∃ desc ∈ descriptors event, ¬ ['.', '*'] <:+ desc ∧ TokensMatch desc eventName) = plain
  generalize (∃ desc ∈ descriptors event, ['.', '*'] <:+ desc ∧ descTokens desc ++ [['*']] <+: nameTokens eventName) = literal
    at hlonger ⊢
  tauto

/-- When the tests that `ChartToPromela` and `ChartToVHDL` emit for an attribute let exactly the events pass that one of
its descriptors matches. -/
theorem event_tests_exact_iff {words words' : List (List Char)} {event eventName : List Char}
    (h : eventName ∈ (eventTrie words).words) (h' : eventName ∈ (eventTrie words').words) :
    ((PromelaPasses (eventTrie words) event eventName ↔ SomeMatch event eventName) ↔
      (event = ['*'] ∨ ['*'] ∉ descriptors event ∨
        (∃ desc ∈ descriptors event, desc ≠ ['*'] ∧ TokensMatch desc eventName) ∨ [['*']] <+: nameTokens eventName)) ∧
    ((VhdlPasses (eventTrie words') event eventName ↔ SomeMatch event eventName) ↔
      ((∃ desc ∈ descriptors event, ['.', '*'] <:+ desc ∧ TokensMatch desc eventName) →
        (∃ desc ∈ descriptors event, ¬ ['.', '*'] <:+ desc ∧ TokensMatch desc eventName) ∨
          ∃ desc ∈ descriptors event, ['.', '*'] <:+ desc ∧ descTokens desc ++ [['*']] <+: nameTokens eventName)) :=
  ⟨promela_exact_iff h, vhdl_exact_iff h'⟩

/-- The words of a chart with the attributes `foo.*`, `foo *` and `bar`. -/
def wildcardWords : List (List Char) :=
  [['f', 'o', 'o', '.', '*'], ['f', 'o', 'o', ' ', '*'], ['b', 'a', 'r']].flatMap eventNames

/-- The Promela test for `foo *` does not let `bar` pass, and the VHDL test for `foo.*` not even `foo`. -/
theorem wildcards_lost :
    (['b', 'a', 'r'] ∈ (eventTrie wildcardWords).words ∧ ['f', 'o', 'o'] ∈ (eventTrie wildcardWords).words) ∧
      (SomeMatch ['f', 'o', 'o', ' ', '*'] ['b', 'a', 'r'] ∧
        ¬ PromelaPasses (eventTrie wildcardWords) ['f', 'o', 'o', ' ', '*'] ['b', 'a', 'r']) ∧
      SomeMatch ['f', 'o', 'o', '.', '*'] ['f', 'o', 'o'] ∧
        ¬ VhdlPasses (eventTrie wildcardWords) ['f', 'o', 'o', '.', '*'] ['f', 'o', 'o'] := by
  refine ⟨⟨by decide +kernel, by decide +kernel⟩, ⟨⟨['*'], by decide +kernel, by decide +kernel⟩, fun h => ?_⟩,
    ⟨['f', 'o', 'o', '.', '*'], by decide +kernel, by decide +kernel⟩, fun h => ?_⟩
  · have hevents : promelaEvents (eventTrie wildcardWords) ['f', 'o', 'o', ' ', '*'] = some [['f', 'o', 'o']] := by decide +kernel
    exact absurd (h _ hevents) (by decide)
  · have hevents : vhdlEvents (eventTrie wildcardWords) ['f', 'o', 'o', '.', '*'] = [] := by decide +kernel
    rw [VhdlPasses, hevents] at h
    exact absurd h List.not_mem_nil

/-- The attribute `foo bar` and the event `bar`. -/
theorem event_tests_exact_list :
    (PromelaPasses (eventTrie wildcardWords) ['f', 'o', 'o', ' ', 'b', 'a', 'r'] ['b', 'a', 'r'] ↔
        SomeMatch ['f', 'o', 'o', ' ', 'b', 'a', 'r'] ['b', 'a', 'r']) ∧
      (VhdlPasses (eventTrie wildcardWords) ['f', 'o', 'o', ' ', 'b', 'a', 'r'] ['b', 'a', 'r'] ↔
        SomeMatch ['f', 'o', 'o', ' ', 'b', 'a', 'r'] ['b', 'a', 'r']) := by
  have hknown : ['b', 'a', 'r'] ∈ (eventTrie wildcardWords).words := by decide +kernel
  have hexact := @event_tests_exact_iff wildcardWords wildcardWords ['f', 'o', 'o', ' ', 'b', 'a', 'r'] ['b', 'a', 'r'] hknown hknown
  refine ⟨hexact.1.mpr (Or.inr (Or.inl (by decide +kernel))), hexact.2.mpr ?_⟩
  rintro ⟨desc, hdesc, hsuf, -⟩
  have hnone : ∀ desc ∈ descriptors ['f', 'o', 'o', ' ', 'b', 'a', 'r'], ¬ ['.', '*'] <:+ desc := by decide +kernel
  exact absurd hsuf (hnone desc hdesc)

end Uscxml
