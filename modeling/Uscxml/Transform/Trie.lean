import Uscxml.EventTrie
import Uscxml.Lib.Pieces

/-!
# `transform/Trie.cpp`

The trie with its separator and the numbers of its words. Insertion and look-up go through a word token by token, and
`std::string::npos` says that no token follows; only the loop of `addWord` looks at it, `getNodeWithPrefix` goes on until
there is no child with the token.
-/

namespace Uscxml

/-- What a node with a word holds. -/
structure TrieWord where
  index : Nat
  value : List Char
  identifier : List Char
  deriving DecidableEq, Repr

structure Trie where
  root : TrieNode (List Char) TrieWord
  seperator : List Char
  lastIndex : Nat

namespace Trie

/-- `word.find(seperator, offset)`. -/
def find (word seperator : List Char) (offset : Nat) : Option Nat :=
  (List.range' offset (word.length + 1 - offset)).find? fun k => seperator <+: word.drop k

/-- `Trie::getNextToken`: the token and the offset behind it, which is `none` for `npos`. The number bounds the calls. -/
def getNextToken (seperator word : List Char) : Nat → Option Nat → List Char × Option Nat
  | 0, _ => ([], none)
  | _ + 1, none => ([], none)
  | n + 1, some offset =>
    if word.length ≤ offset then ([], none)
    else if seperator.length > 0 then
      match find word seperator offset with
      | none => (substr offset (word.length - offset) word, none)
      | some sepPos =>
        if sepPos = offset then getNextToken seperator word n (some (offset + seperator.length))
        else (substr offset (sepPos - offset) word, some (sepPos + seperator.length))
    else (substr offset 1 word, some (offset + 1))

def escapeWord (word : List Char) : List Char := word.map fun c => if c = '.' then '_' else c

def addTokens (seperator word : List Char) : Nat → Option Nat → List (List Char)
  | 0, _ => []
  | n + 1, offset =>
    let (token, offset) := getNextToken seperator word (word.length + 1) offset
    (if token.length > 0 then [token] else []) ++ if offset = none then [] else addTokens seperator word n offset

def addWord (t : Trie) (word : List Char) : Trie :=
  let tokens := addTokens t.seperator word (word.length + 1) (some 0)
  match t.root.get tokens with
  | some _ => t
  | none =>
    { t with
      root := t.root.insert tokens { index := t.lastIndex, value := word, identifier := escapeWord word }
      lastIndex := t.lastIndex + 1 }

def getNodeLoop (seperator word : List Char) : Nat → Option Nat → TrieNode (List Char) TrieWord →
    Option (TrieNode (List Char) TrieWord)
  | 0, _, _ => none
  | n + 1, offset, currNode =>
    let (token, offset) := getNextToken seperator word (word.length + 1) offset
    match currNode.childs.child? token with
    | none => if token.length > 0 then none else some currNode
    | some c => getNodeLoop seperator word n offset ⟨c.1, c.2⟩

def getNodeWithPrefix (t : Trie) (word : List Char) : Option (TrieNode (List Char) TrieWord) :=
  getNodeLoop t.seperator word (word.length + 2) (some 0) t.root

/-- `Trie::getChildsWithWords` on the children of a node, with the nodes that are known already. The lists are merged by the
addresses of the nodes: `before` says which of two nodes comes first in memory. -/
def childsWithWords (before : TrieWord → TrieWord → Bool) : Forest (List Char × Option TrieWord) → List TrieWord → List TrieWord
  | .nil, nodes => nodes
  | .cons (_, word) childs next, nodes =>
    childsWithWords before next (nodes.merge (childsWithWords before childs word.toList) fun x y => !before y x)

def getChildsWithWords (before : TrieWord → TrieWord → Bool) (node : TrieNode (List Char) TrieWord) : List TrieWord :=
  childsWithWords before node.childs node.word.toList

def getWordsWithPrefix (before : TrieWord → TrieWord → Bool) (t : Trie) (word : List Char) : List TrieWord :=
  match t.getNodeWithPrefix word with
  | some node => getChildsWithWords before node
  | none => []

def ofWords (seperator : List Char) (words : List (List Char)) : Trie :=
  words.foldl addWord { root := TrieNode.empty, seperator := seperator, lastIndex := 0 }

/-! ### What a word consists of -/

/-- The tokens of a word: its non-empty pieces between separators, or without a separator its characters. -/
def tokens (seperator word : List Char) : List (List Char) :=
  if seperator = [] then word.map fun c => [c] else (List.pieces seperator word).filter fun token => !token.isEmpty

/-- One more word, unless there is one with its tokens. -/
def addFirst (seperator : List Char) (seen : List (List Char)) (word : List Char) : List (List Char) :=
  if ∃ w ∈ seen, tokens seperator w = tokens seperator word then seen else seen ++ [word]

/-- The words in the order of their first addition; a word with the tokens of another one is no new word. -/
def firstWords (seperator : List Char) (words : List (List Char)) : List (List Char) := words.foldl (addFirst seperator) []

/-! ### Tokens -/

theorem firstAt_of_find {word seperator : List Char} {offset k : Nat} (h : find word seperator offset = some k) :
    offset ≤ k ∧ List.FirstAt seperator (word.drop offset) (k - offset) := by
  rw [find, List.find?_range'_eq_some] at h
  obtain ⟨hk, hmem, hbefore⟩ := h
  have hle : offset ≤ k := (List.mem_range'_1.mp hmem).1
  refine ⟨hle, ?_, ?_⟩
  · rw [List.drop_drop, Nat.add_sub_cancel' hle]
    exact of_decide_eq_true hk
  · intro j hj
    have hj' := hbefore (offset + j) (Nat.le_add_right offset j) (by omega)
    rw [List.drop_drop]
    simpa using hj'

theorem none_of_find {word seperator : List Char} {offset : Nat} (h : find word seperator offset = none) :
    ∀ k < (word.drop offset).length, ¬ seperator <+: (word.drop offset).drop k := by
  rw [find, List.find?_range'_eq_none] at h
  intro k hk
  rw [List.length_drop] at hk
  have hk' := h (offset + k) (Nat.le_add_right offset k) (by omega)
  rw [List.drop_drop]
  simpa using hk'

@[simp] theorem tokens_nil (seperator : List Char) : tokens seperator [] = [] := by
  rw [tokens]
  split
  · rfl
  · rfl

theorem tokens_of_none {seperator word : List Char} (hsep : seperator ≠ []) (hword : word ≠ [])
    (hnone : ∀ k < word.length, ¬ seperator <+: word.drop k) : tokens seperator word = [word] := by
  rw [tokens, if_neg hsep, List.pieces_of_none hnone]
  simp [hword]

theorem tokens_of_firstAt {seperator word : List Char} (hsep : seperator ≠ []) {k : Nat} (h : List.FirstAt seperator word k) :
    tokens seperator word =
      (if (word.take k).length > 0 then [word.take k] else []) ++ tokens seperator (word.drop (k + seperator.length)) := by
  rw [tokens, if_neg hsep, tokens, if_neg hsep, List.pieces_of_firstAt hsep h, List.filter_cons]
  cases word.take k with
  | nil => rfl
  | cons c token => rfl

theorem ne_nil_of_mem_tokens {seperator word token : List Char} (h : token ∈ tokens seperator word) : token ≠ [] := by
  rw [tokens] at h
  split at h
  · obtain ⟨c, -, rfl⟩ := List.mem_map.mp h
    exact List.cons_ne_nil c []
  · simpa using (List.mem_filter.mp h).2

def tokensFrom (seperator word : List Char) (offset : Option Nat) : List (List Char) :=
  offset.elim [] fun offset => tokens seperator (word.drop offset)

/-- What one call does: it takes the next token off, it moves on, and without a token it has come to the end. -/
structure TakesToken (seperator word : List Char) (offset : Nat) (result : List Char × Option Nat) : Prop where
  tokens_eq : tokens seperator (word.drop offset) =
    (if result.1.length > 0 then [result.1] else []) ++ tokensFrom seperator word result.2
  moves : ∀ next, result.2 = some next → offset < next
  ends : result.1 = [] → result.2 = none
  inside : result.1 ≠ [] → offset < word.length

theorem getNextToken_spec (seperator word : List Char) (n offset : Nat) (hn : word.length - offset < n) :
    TakesToken seperator word offset (getNextToken seperator word n (some offset)) := by
  induction n generalizing offset with
  | zero => exact absurd hn (Nat.not_lt_zero _)
  | succ n ih =>
    rw [getNextToken]
    by_cases hend : word.length ≤ offset
    · rw [if_pos hend]
      refine ⟨?_, (fun _ h => absurd h.symm (Option.some_ne_none _)), fun _ => rfl, fun h => absurd rfl h⟩
      rw [List.drop_eq_nil_of_le hend, tokens_nil]
      rfl
    have hlt : offset < word.length := Nat.lt_of_not_le hend
    have hrest : word.drop offset ≠ [] := by
      rw [ne_eq, List.drop_eq_nil_iff]
      exact hend
    rw [if_neg hend]
    by_cases hsep : seperator = []
    · -- Without a separator every character is a token.
      rw [if_neg (by rw [hsep]; exact Nat.lt_irrefl 0)]
      have htoken : substr offset 1 word = [word[offset]] := by
        rw [substr, List.drop_eq_getElem_cons hlt, List.take_succ_cons, List.take_zero]
      refine ⟨?_, ?_, ?_, fun _ => hlt⟩
      · rw [htoken, List.drop_eq_getElem_cons hlt, tokens, if_pos hsep, tokensFrom, Option.elim_some, tokens, if_pos hsep]
        rfl
      · intro next h
        cases h
        exact Nat.lt_succ_self offset
      · intro h
        rw [htoken] at h
        cases h
    · rw [if_pos (List.length_pos_iff.mpr hsep)]
      cases hfind : find word seperator offset with
      | none =>
        have htoken : substr offset (word.length - offset) word = word.drop offset := by
          rw [substr, List.take_of_length_le (List.length_drop.le)]
        refine ⟨?_, (fun _ h => absurd h.symm (Option.some_ne_none _)), fun _ => rfl, fun _ => hlt⟩
        simp only
        rw [htoken, tokens_of_none hsep hrest (none_of_find hfind), if_pos (List.length_pos_iff.mpr hrest)]
        rfl
      | some sepPos =>
        obtain ⟨hle, hfirst⟩ := firstAt_of_find hfind
        have htokens := tokens_of_firstAt hsep hfirst
        have hlen : 0 < seperator.length := List.length_pos_iff.mpr hsep
        simp only
        split
        · -- The word starts with a separator here.
          rename_i heq
          subst heq
          have hnext := ih (sepPos + seperator.length) (by omega)
          refine ⟨?_, ?_, hnext.ends, fun _ => hlt⟩
          · rw [htokens, Nat.sub_self, List.take_zero, Nat.zero_add, List.drop_drop, ← hnext.tokens_eq]
            rfl
          · intro next h
            have := hnext.moves next h
            omega
        · rename_i hne
          refine ⟨?_, ?_, ?_, fun _ => hlt⟩
          · rw [htokens, List.drop_drop, ← Nat.add_assoc, Nat.add_sub_cancel' hle]
            rfl
          · intro next h
            cases h
            omega
          · intro h
            have hpos : 0 < sepPos - offset := by omega
            rw [substr, List.take_eq_nil_iff] at h
            rcases h with h | h
            · exact absurd h hpos.ne'
            · exact absurd h hrest

theorem addTokens_eq (seperator word : List Char) (n offset : Nat) (hn : word.length - offset < n) :
    addTokens seperator word n (some offset) = tokens seperator (word.drop offset) := by
  induction n generalizing offset with
  | zero => exact absurd hn (Nat.not_lt_zero _)
  | succ n ih =>
    have hstep := getNextToken_spec seperator word (word.length + 1) offset (by omega)
    rw [addTokens]
    cases hresult : getNextToken seperator word (word.length + 1) (some offset) with
    | mk token next =>
      rw [hresult] at hstep
      rw [hstep.tokens_eq]
      simp only
      congr 1
      cases next with
      | none => rfl
      | some next =>
        rw [if_neg (by simp)]
        apply ih
        have hmove := hstep.moves next rfl
        have htoken : token ≠ [] := by
          intro h
          cases hstep.ends h
        have hlt := hstep.inside htoken
        omega

theorem addTokens_zero (seperator word : List Char) : addTokens seperator word (word.length + 1) (some 0) = tokens seperator word :=
  addTokens_eq seperator word (word.length + 1) 0 (by omega)

theorem child?_nil {childs : Forest (List Char × Option TrieWord)} (h : TrieNode.AllTokens (· ≠ []) childs) :
    childs.child? [] = none := by
  cases hc : childs.child? [] with
  | none => rfl
  | some c => exact absurd rfl (h.child hc).1

/-- The loop of `getNodeWithPrefix` goes down by the tokens, too; it ends where there is no token any more. -/
theorem getNodeLoop_eq (seperator word : List Char) (n : Nat) (offset : Option Nat)
    (hn : offset.elim 0 (fun offset => word.length - offset + 1) < n) (node : TrieNode (List Char) TrieWord)
    (h : TrieNode.AllTokens (· ≠ []) node.childs) :
    getNodeLoop seperator word n offset node = node.find? (tokensFrom seperator word offset) := by
  induction n generalizing offset node with
  | zero => exact absurd hn (Nat.not_lt_zero _)
  | succ n ih =>
    rw [getNodeLoop]
    cases offset with
    | none =>
      change (match node.childs.child? [] with
        | none => if 0 > 0 then none else some node
        | some c => getNodeLoop seperator word n none ⟨c.1, c.2⟩) = _
      rw [child?_nil h]
      rfl
    | some offset =>
      have hstep := getNextToken_spec seperator word (word.length + 1) offset (by omega)
      cases hresult : getNextToken seperator word (word.length + 1) (some offset) with
      | mk token next =>
        rw [hresult] at hstep
        rw [tokensFrom, Option.elim_some, hstep.tokens_eq]
        simp only
        by_cases htoken : token = []
        · have hnext : next = none := hstep.ends htoken
          rw [htoken, hnext, child?_nil h]
          rfl
        · have hpos : token.length > 0 := List.length_pos_iff.mpr htoken
          have htokens : (if token.length > 0 then [token] else []) ++ tokensFrom seperator word next =
              token :: tokensFrom seperator word next := by rw [if_pos hpos, List.singleton_append]
          rw [htokens, TrieNode.find?]
          cases hc : node.childs.child? token with
          | none =>
            simp only
            rw [if_pos hpos]
            rfl
          | some c =>
            rw [Option.bind_some]
            apply ih next _ ⟨c.1, c.2⟩ (h.child hc).2
            have hlt := hstep.inside htoken
            rw [Option.elim_some] at hn
            cases hnext : next with
            | none => rw [Option.elim_none]; omega
            | some next =>
              have hmove := hstep.moves next hnext
              rw [Option.elim_some]
              omega

theorem getNodeWithPrefix_eq {t : Trie} (h : TrieNode.AllTokens (· ≠ []) t.root.childs) (word : List Char) :
    t.getNodeWithPrefix word = t.root.find? (tokens t.seperator word) :=
  getNodeLoop_eq t.seperator word (word.length + 2) (some 0) (by rw [Option.elim_some]; omega) t.root h

/-! ### Words below a node -/

theorem childsWithWords_perm (before : TrieWord → TrieWord → Bool) (childs : Forest (List Char × Option TrieWord))
    (nodes : List TrieWord) : (childsWithWords before childs nodes).Perm (nodes ++ childs.words) := by
  induction childs generalizing nodes with
  | nil => rw [childsWithWords, Forest.words, List.append_nil]
  | cons a childs next ihc ihn =>
    obtain ⟨token, word⟩ := a
    have hmerge : (nodes.merge (childsWithWords before childs word.toList) fun x y => !before y x).Perm
        (nodes ++ (word.toList ++ childs.words)) :=
      (List.merge_perm_append _).trans ((ihc word.toList).append_left nodes)
    have hnext := (ihn _).trans (hmerge.append_right next.words)
    rw [childsWithWords, Forest.words]
    simp only [List.append_assoc] at hnext
    exact hnext

theorem getChildsWithWords_perm (before : TrieWord → TrieWord → Bool) (node : TrieNode (List Char) TrieWord) :
    (getChildsWithWords before node).Perm node.words := childsWithWords_perm before node.childs node.word.toList

/-! ### What the trie holds -/

/-- The trie holds the given words, each with its number, at their tokens. -/
structure Holds (t : Trie) (seen : List (List Char)) : Prop where
  lastIndex_eq : t.lastIndex = seen.length
  get_iff : ∀ ts n, t.root.get ts = some n ↔
    ∃ i w, seen[i]? = some w ∧ tokens t.seperator w = ts ∧ n = { index := i, value := w, identifier := escapeWord w }
  distinct : t.root.Distinct
  nonempty : TrieNode.AllTokens (· ≠ []) t.root.childs

theorem holds_nil (seperator : List Char) : Holds { root := TrieNode.empty, seperator := seperator, lastIndex := 0 } [] where
  lastIndex_eq := rfl
  get_iff := by
    intro ts n
    rw [TrieNode.get_empty]
    simp
  distinct := TrieNode.distinct_empty
  nonempty := trivial

theorem addWord_eq (t : Trie) (word : List Char) : t.addWord word =
    match t.root.get (tokens t.seperator word) with
    | some _ => t
    | none =>
      { t with
        root := t.root.insert (tokens t.seperator word)
          { index := t.lastIndex, value := word, identifier := escapeWord word }
        lastIndex := t.lastIndex + 1 } := by
  rw [addWord, addTokens_zero]

@[simp] theorem addWord_seperator (t : Trie) (word : List Char) : (t.addWord word).seperator = t.seperator := by
  rw [addWord_eq]
  split
  · rfl
  · rfl

theorem Holds.known_iff {t : Trie} {seen : List (List Char)} (h : Holds t seen) (word : List Char) :
    (∃ n, t.root.get (tokens t.seperator word) = some n) ↔ ∃ w ∈ seen, tokens t.seperator w = tokens t.seperator word := by
  constructor
  · rintro ⟨n, hn⟩
    obtain ⟨i, w, hw, htokens, -⟩ := (h.get_iff _ n).mp hn
    exact ⟨w, List.mem_of_getElem? hw, htokens⟩
  · rintro ⟨w, hw, htokens⟩
    obtain ⟨i, hi⟩ := List.mem_iff_getElem?.mp hw
    exact ⟨_, (h.get_iff _ _).mpr ⟨i, w, hi, htokens, rfl⟩⟩

theorem Holds.addWord_of_known {t : Trie} {seen : List (List Char)} (h : Holds t seen) {word : List Char}
    (hknown : ∃ w ∈ seen, tokens t.seperator w = tokens t.seperator word) : t.addWord word = t := by
  obtain ⟨n, hn⟩ := (h.known_iff word).mpr hknown
  rw [addWord_eq, hn]

theorem Holds.addWord {t : Trie} {seen : List (List Char)} (h : Holds t seen) (word : List Char) :
    Holds (t.addWord word) (addFirst t.seperator seen word) := by
  rw [addFirst]
  split
  · rename_i hknown
    rw [h.addWord_of_known hknown]
    exact h
  · rename_i hnew
    have hnone : t.root.get (tokens t.seperator word) = none := by
      rw [Option.eq_none_iff_forall_ne_some]
      exact fun n hn => hnew ((h.known_iff word).mp ⟨n, hn⟩)
    rw [addWord_eq, hnone]
    refine ⟨?_, ?_, h.distinct.insert _ _, h.nonempty.insert (fun _ => ne_nil_of_mem_tokens) _⟩
    · rw [List.length_append, ← h.lastIndex_eq]
      rfl
    · intro ts n
      simp only
      rw [TrieNode.get_insert]
      split
      · -- The new word has the next number.
        rename_i hts
        rw [hnone, Option.none_or, hts, Option.some_inj]
        constructor
        · rintro rfl
          exact ⟨seen.length, word, List.getElem?_concat_length, rfl, by rw [h.lastIndex_eq]⟩
        · rintro ⟨i, w, hi, htokens, rfl⟩
          rw [List.getElem?_append] at hi
          split at hi
          · exact absurd ⟨w, List.mem_of_getElem? hi, htokens⟩ hnew
          · obtain ⟨hlt, hw⟩ := List.getElem?_eq_some_iff.mp hi
            rw [List.length_singleton] at hlt
            have hi' : i = t.lastIndex := by
              have := h.lastIndex_eq
              omega
            rw [List.getElem_singleton] at hw
            rw [hi', hw]
      · rename_i hts
        rw [h.get_iff]
        constructor
        · rintro ⟨i, w, hi, htokens, rfl⟩
          refine ⟨i, w, ?_, htokens, rfl⟩
          rw [List.getElem?_append_left (List.getElem?_eq_some_iff.mp hi).1, hi]
        · rintro ⟨i, w, hi, htokens, rfl⟩
          refine ⟨i, w, ?_, htokens, rfl⟩
          rw [List.getElem?_append] at hi
          split at hi
          · exact hi
          · have hw : w = word := List.mem_singleton.mp (List.mem_of_getElem? hi)
            rw [hw] at htokens
            exact absurd htokens.symm hts

theorem foldl_addWord_seperator (words : List (List Char)) (t : Trie) : (words.foldl Trie.addWord t).seperator = t.seperator := by
  induction words generalizing t with
  | nil => rfl
  | cons w words ih => rw [List.foldl_cons, ih, addWord_seperator]

theorem ofWords_seperator (seperator : List Char) (words : List (List Char)) : (ofWords seperator words).seperator = seperator :=
  foldl_addWord_seperator words _

/-- After any additions the trie holds the words in the order of their first addition. -/
theorem holds_ofWords (seperator : List Char) (words : List (List Char)) :
    Holds (ofWords seperator words) (firstWords seperator words) := by
  suffices h : ∀ (t : Trie) seen, t.seperator = seperator → Holds t seen →
      Holds (words.foldl Trie.addWord t) (words.foldl (addFirst seperator) seen) by
    exact h _ _ rfl (holds_nil seperator)
  induction words with
  | nil => exact fun t seen _ h => h
  | cons w words ih =>
    intro t seen hsep h
    apply ih
    · rw [addWord_seperator, hsep]
    · rw [← hsep]
      exact h.addWord w

theorem exists_mem_firstWords {seperator : List Char} {words : List (List Char)} {ts : List (List Char)} :
    (∃ w ∈ firstWords seperator words, tokens seperator w = ts) ↔ ∃ w ∈ words, tokens seperator w = ts := by
  suffices h : ∀ seen, (∃ w ∈ words.foldl (addFirst seperator) seen, tokens seperator w = ts) ↔
      (∃ w ∈ seen, tokens seperator w = ts) ∨ ∃ w ∈ words, tokens seperator w = ts by
    rw [firstWords, h]
    simp
  induction words with
  | nil => intro seen; simp
  | cons word words ih =>
    intro seen
    have hseen : (∃ w ∈ addFirst seperator seen word, tokens seperator w = ts) ↔
        (∃ w ∈ seen, tokens seperator w = ts) ∨ tokens seperator word = ts := by
      rw [addFirst]
      split
      · rename_i hknown
        constructor
        · exact Or.inl
        · rintro (h | h)
          · exact h
          · exact h ▸ hknown
      · simp only [List.mem_append, List.mem_singleton, or_and_right, exists_or, exists_eq_left]
    rw [List.foldl_cons, ih, hseen]
    simp only [List.mem_cons, or_and_right, exists_or, exists_eq_left, or_assoc]

/-! ### What is looked up -/

/-- The nodes that are listed are those below the tokens that are looked up. -/
theorem Holds.getWordsWithPrefix_perm {t : Trie} {seen : List (List Char)} (h : Holds t seen)
    (before : TrieWord → TrieWord → Bool) (word : List Char) :
    (t.getWordsWithPrefix before word).Perm ((t.root.find? (tokens t.seperator word)).elim [] TrieNode.words) := by
  rw [getWordsWithPrefix, getNodeWithPrefix_eq h.nonempty]
  cases t.root.find? (tokens t.seperator word) with
  | none => exact List.Perm.refl []
  | some node => exact getChildsWithWords_perm before node

theorem Holds.mem_getWordsWithPrefix {t : Trie} {seen : List (List Char)} (h : Holds t seen)
    (before : TrieWord → TrieWord → Bool) (word : List Char) (n : TrieWord) :
    n ∈ t.getWordsWithPrefix before word ↔ tokens t.seperator word <+: tokens t.seperator n.value ∧
      seen[n.index]? = some n.value ∧ n.identifier = escapeWord n.value := by
  rw [(h.getWordsWithPrefix_perm before word).mem_iff, TrieNode.mem_words_find h.distinct]
  constructor
  · rintro ⟨us, hn⟩
    obtain ⟨i, w, hi, htokens, rfl⟩ := (h.get_iff _ n).mp hn
    exact ⟨⟨us, htokens.symm⟩, hi, rfl⟩
  · rintro ⟨⟨us, htokens⟩, hi, hidentifier⟩
    refine ⟨us, (h.get_iff _ n).mpr ⟨n.index, n.value, hi, htokens.symm, ?_⟩⟩
    rw [← hidentifier]

theorem Holds.nodup_getWordsWithPrefix {t : Trie} {seen : List (List Char)} (h : Holds t seen)
    (before : TrieWord → TrieWord → Bool) (word : List Char) :
    ((t.getWordsWithPrefix before word).map fun n => tokens t.seperator n.value).Nodup := by
  refine ((h.getWordsWithPrefix_perm before word).map _).nodup_iff.mpr ?_
  cases hnode : t.root.find? (tokens t.seperator word) with
  | none => exact List.nodup_nil
  | some node =>
    apply TrieNode.nodup_map_words (h.distinct.find? hnode) (tokens t.seperator word)
    intro ts n hn
    have hget : t.root.get (tokens t.seperator word ++ ts) = some n := by
      rw [TrieNode.get_append, hnode, Option.bind_some]
      exact hn
    obtain ⟨i, w, -, htokens, rfl⟩ := (h.get_iff _ n).mp hget
    exact htokens

theorem Holds.indices_perm {t : Trie} {seen : List (List Char)} (h : Holds t seen) (before : TrieWord → TrieWord → Bool) :
    ((t.getWordsWithPrefix before []).map TrieWord.index).Perm (List.range t.lastIndex) := by
  have hmem : ∀ n, n ∈ t.getWordsWithPrefix before [] ↔ seen[n.index]? = some n.value ∧ n.identifier = escapeWord n.value := by
    intro n
    rw [h.mem_getWordsWithPrefix, tokens_nil, and_iff_right (List.nil_prefix)]
  have hinjective : ∀ n ∈ t.getWordsWithPrefix before [], ∀ m ∈ t.getWordsWithPrefix before [], n.index = m.index → n = m := by
    intro n hn m hm hindex
    obtain ⟨hvalue, hidentifier⟩ := (hmem n).mp hn
    obtain ⟨hvalue', hidentifier'⟩ := (hmem m).mp hm
    rw [hindex, hvalue', Option.some_inj] at hvalue
    have heq : n.identifier = m.identifier := by rw [hidentifier, hidentifier', hvalue]
    cases n
    cases m
    simp_all
  refine (List.perm_ext_iff_of_nodup ?_ List.nodup_range).mpr ?_
  · exact (List.Nodup.of_map _ (h.nodup_getWordsWithPrefix before [])).map_on hinjective
  · intro i
    rw [List.mem_range, h.lastIndex_eq, List.mem_map]
    constructor
    · rintro ⟨n, hn, rfl⟩
      exact (List.getElem?_eq_some_iff.mp ((hmem n).mp hn).1).1
    · intro hi
      exact ⟨{ index := i, value := seen[i], identifier := escapeWord seen[i] },
        (hmem _).mpr ⟨List.getElem?_eq_getElem hi, rfl⟩, rfl⟩

/-- A look-up lists each token sequence that was added and starts with the tokens looked up, and none twice. The words are
numbered in the order of their first addition, and to add one of them again changes nothing. -/
theorem getWordsWithPrefix_exact (seperator : List Char) (words : List (List Char)) (before : TrieWord → TrieWord → Bool) :
    (∀ word, (((ofWords seperator words).getWordsWithPrefix before word).map fun n => tokens seperator n.value).Nodup ∧
      ∀ ts, ts ∈ ((ofWords seperator words).getWordsWithPrefix before word).map (fun n => tokens seperator n.value) ↔
        tokens seperator word <+: ts ∧ ∃ w ∈ words, tokens seperator w = ts) ∧
    (∀ n, n ∈ (ofWords seperator words).getWordsWithPrefix before [] ↔
      (firstWords seperator words)[n.index]? = some n.value ∧ n.identifier = escapeWord n.value) ∧
    (((ofWords seperator words).getWordsWithPrefix before []).map TrieWord.index).Perm
      (List.range (ofWords seperator words).lastIndex) ∧
    ∀ w ∈ words, (ofWords seperator words).addWord w = ofWords seperator words := by
  have h := holds_ofWords seperator words
  have hsep := ofWords_seperator seperator words
  refine ⟨?_, ?_, h.indices_perm before, ?_⟩
  · intro word
    have hnodup := h.nodup_getWordsWithPrefix before word
    have hmem := h.mem_getWordsWithPrefix before word
    rw [hsep] at hnodup hmem
    refine ⟨hnodup, ?_⟩
    intro ts
    rw [← exists_mem_firstWords, List.mem_map]
    constructor
    · rintro ⟨n, hn, rfl⟩
      obtain ⟨hstarts, hi, -⟩ := (hmem n).mp hn
      exact ⟨hstarts, n.value, List.mem_of_getElem? hi, rfl⟩
    · rintro ⟨hstarts, w, hw, rfl⟩
      obtain ⟨i, hi⟩ := List.mem_iff_getElem?.mp hw
      exact ⟨{ index := i, value := w, identifier := escapeWord w }, (hmem _).mpr ⟨hstarts, hi, rfl⟩, rfl⟩
  · intro n
    rw [h.mem_getWordsWithPrefix, tokens_nil, and_iff_right List.nil_prefix]
  · intro w hw
    apply h.addWord_of_known
    rw [hsep]
    exact exists_mem_firstWords.mpr ⟨w, hw, rfl⟩

/-! ### Event names -/

theorem tokens_dot (word : List Char) : tokens ['.'] word = nameTokens word := by
  rw [tokens, if_neg (List.cons_ne_nil _ _), List.pieces_singleton, nameTokens]

/-- With a dot between the tokens the words of the trie are those of the trie of event names. -/
theorem map_root_ofWords (words : List (List Char)) : (ofWords ['.'] words).root.map TrieWord.value = eventTrie words := by
  suffices h : ∀ (t : Trie) (trie : EventTrie), t.seperator = ['.'] → t.root.map TrieWord.value = trie →
      (words.foldl Trie.addWord t).root.map TrieWord.value = words.foldl EventTrie.addWord trie by
    exact h _ _ rfl rfl
  induction words with
  | nil => exact fun t trie _ h => h
  | cons w words ih =>
    intro t trie hsep h
    apply ih
    · rw [addWord_seperator, hsep]
    · have hinsert : (t.root.insert (wordTokens w) { index := t.lastIndex, value := w, identifier := escapeWord w }).map
          TrieWord.value = trie.addWord w := by
        rw [TrieNode.map_insert, h]
        rfl
      rw [addWord_eq, hsep, tokens_dot, ← wordTokens_eq]
      split
      · rename_i n hn
        rw [← hinsert, TrieNode.insert_of_get hn]
      · exact hinsert

theorem getWordsWithPrefix_map_value (words : List (List Char)) (before : TrieWord → TrieWord → Bool) (word : List Char) :
    (((ofWords ['.'] words).getWordsWithPrefix before word).map TrieWord.value).Perm ((eventTrie words).getWordsWithPrefix word) := by
  have h := (holds_ofWords ['.'] words).getWordsWithPrefix_perm before word
  rw [ofWords_seperator, tokens_dot] at h
  have hfind := TrieNode.find?_map TrieWord.value (nameTokens word) (ofWords ['.'] words).root
  rw [map_root_ofWords] at hfind
  rw [EventTrie.getWordsWithPrefix, EventTrie.getNodeWithPrefix, wordTokens_eq, hfind]
  refine (h.map TrieWord.value).trans ?_
  cases (ofWords ['.'] words).root.find? (nameTokens word) with
  | none => exact List.Perm.refl []
  | some node => exact List.Perm.of_eq (TrieNode.words_map TrieWord.value node).symm

end Trie

end Uscxml
