import Uscxml.EventTrie
import Uscxml.Lib.Runs

/-!
# `util/String.cpp`

`tokenize` and `spaceNormalize`. Their loops skip separators without a look at the length of the text: they rely on the
terminating zero behind it, so that an index may run to that zero and no further. The numbers bound the rounds of the
loops.
-/

namespace Uscxml.Strings

/-- Why a loop over a text does not come to its end: its rounds are used up, or it reads behind the terminating zero. -/
inductive Fault where
  | rounds
  | read
  deriving DecidableEq, Repr

/-- `line[i]`. -/
def charAt (line : List Char) (i : Nat) : Except Fault Char :=
  match (line)[i]? with
  | some c => .ok c
  | none => if i = line.length then .ok '\x00' else .error .read

/-- The inner loop, which goes on while there are separators. -/
def skip (p : Char → Bool) (line : List Char) : Nat → Nat → Except Fault Nat
  | 0, _ => .error .rounds
  | n + 1, i => do
    let c ← charAt line i
    if p c then skip p line n (i + 1) else pure i

/-- What `tokenize` splits at. -/
def isSeperator (sep : Char) (trimWhiteSpace : Bool) (c : Char) : Bool := c = sep || (trimWhiteSpace && isspace c)

/-- The loop of `tokenize` from `i` on, when the current token begins at `start`. -/
def tokenizeLoop (line : List Char) (p : Char → Bool) : Nat → Nat → Nat → Except Fault (List (List Char))
  | 0, _, _ => .error .rounds
  | n + 1, i, start =>
    if i < line.length then do
      let c ← charAt line i
      let tokens := if p c ∧ 0 < i ∧ start < i then [substr start (i - start) line] else []
      let (i, start) ← if p c then (skip p line (line.length + 2) i).map fun i => (i, i) else pure (i, start)
      let last := if i + 1 = line.length then [substr start (i + 1 - start) line] else []
      let rest ← tokenizeLoop line p n (i + 1) start
      pure (tokens ++ last ++ rest)
    else pure []

def tokenize (line : List Char) (sep : Char) (trimWhiteSpace : Bool) : Except Fault (List (List Char)) :=
  tokenizeLoop line (isSeperator sep trimWhiteSpace) (line.length + 1) 0 0

/-- The loop of `spaceNormalize` from `i` on: what it writes when the current token begins at `start`. -/
def spaceNormalizeLoop (text : List Char) : Nat → Nat → Nat → List Char → Except Fault (List Char)
  | 0, _, _, _ => .error .rounds
  | n + 1, i, start, seperator =>
    if i < text.length then do
      let c ← charAt text i
      if isspace c then
        let (content, seperator) :=
          if 0 < i ∧ start < i then (seperator ++ substr start (i - start) text, [' ']) else ([], seperator)
        -- `while (ISWHITESPACE(text[++i]));`
        let i ← skip isspace text (text.length + 2) (i + 1)
        let rest ← spaceNormalizeLoop text n (i + 1) i seperator
        pure (content ++ rest)
      else if i + 1 = text.length then do
        let rest ← spaceNormalizeLoop text n (i + 1) start seperator
        pure (seperator ++ substr start (i + 1 - start) text ++ rest)
      else spaceNormalizeLoop text n (i + 1) start seperator
    else pure []

def spaceNormalize (text : List Char) : Except Fault (List Char) := spaceNormalizeLoop text (text.length + 1) 0 0 []

@[simp] theorem ok_bind {α β : Type} (a : α) (f : α → Except Fault β) : ((Except.ok a : Except Fault α) >>= f) = f a := rfl

/-! ### The inner loop -/

section Skip

variable {p : Char → Bool}

theorem charAt_append (pre : List Char) (c : Char) (rest : List Char) : charAt (pre ++ c :: rest) pre.length = .ok c := by
  have hget : (pre ++ c :: rest)[pre.length]? = some c := by simp
  rw [charAt, hget]

theorem charAt_length (line : List Char) : charAt line line.length = .ok '\x00' := by
  rw [charAt, List.getElem?_eq_none (Nat.le_refl _)]
  exact if_pos rfl

theorem skip_eq (pre rest : List Char) {n : Nat} (hn : rest.length < n)
    (hstop : p '\x00' = false ∨ rest.dropWhile p ≠ []) :
    skip p (pre ++ rest) n pre.length = .ok (pre.length + (rest.takeWhile p).length) := by
  induction n generalizing pre rest with
  | zero => omega
  | succ n ih =>
    cases rest with
    | nil =>
      have hzero : p '\x00' = false := hstop.resolve_right (by simp)
      rw [List.append_nil, skip, charAt_length]
      change (if p '\x00' = true then _ else _) = _
      rw [hzero]
      rfl
    | cons c rest =>
      rw [skip, charAt_append]
      change (if p c = true then _ else _) = _
      cases hc : p c with
      | true =>
        have hnext := ih (pre ++ [c]) rest (by simpa using hn) (by simpa [List.dropWhile_cons, hc] using hstop)
        have hlength : (pre ++ [c]).length = pre.length + 1 := List.length_append
        rw [if_pos rfl, List.append_cons, ← hlength, hnext, hlength, List.takeWhile_cons, if_pos hc, List.length_cons]
        exact congrArg Except.ok (by omega)
      | false =>
        rw [List.takeWhile_cons, hc]
        rfl

/-- When the terminating zero counts as a separator, the loop runs over it. -/
theorem skip_read (pre rest : List Char) {n : Nat} (hn : rest.length + 1 < n) (hzero : p '\x00' = true)
    (hall : rest.dropWhile p = []) : skip p (pre ++ rest) n pre.length = .error .read := by
  induction n generalizing pre rest with
  | zero => omega
  | succ n ih =>
    cases rest with
    | nil =>
      rw [List.append_nil, skip, charAt_length]
      change (if p '\x00' = true then _ else _) = _
      rw [if_pos hzero]
      obtain ⟨n, rfl⟩ : ∃ m, n = m + 1 := ⟨n - 1, by simp at hn; omega⟩
      rw [skip, charAt, List.getElem?_eq_none (by omega), if_neg (by omega)]
      rfl
    | cons c rest =>
      have hc : p c = true := List.dropWhile_eq_nil_iff.mp hall c List.mem_cons_self
      have hnext := ih (pre ++ [c]) rest (by simpa using hn) (by simpa [List.dropWhile_cons, hc] using hall)
      rw [skip, charAt_append]
      change (if p c = true then _ else _) = _
      have hlength : (pre ++ [c]).length = pre.length + 1 := List.length_append
      rw [if_pos hc, List.append_cons, ← hlength, hnext]

theorem skip_seperators (pre rest : List Char) {c : Char} {n : Nat} (hn : rest.length + 1 < n) (hc : p c = true)
    (hstop : p '\x00' = false ∨ rest.dropWhile p ≠ []) :
    skip p (pre ++ c :: rest) n pre.length = .ok (pre ++ c :: rest.takeWhile p).length := by
  have hdrop : (c :: rest).dropWhile p = rest.dropWhile p := by rw [List.dropWhile_cons, if_pos hc]
  rw [skip_eq pre (c :: rest) hn (hdrop ▸ hstop), List.takeWhile_cons, if_pos hc, List.length_append]

end Skip

/-! ### `tokenize` -/

section Tokenize

variable {p : Char → Bool}

theorem tokenizeLoop_of_length_le {line : List Char} {n i start : Nat} (hn : 0 < n) (h : line.length ≤ i) :
    tokenizeLoop line p n i start = .ok [] := by
  obtain ⟨n, rfl⟩ := Nat.exists_eq_succ_of_ne_zero (Nat.ne_of_gt hn)
  rw [tokenizeLoop, if_neg (Nat.not_lt.mpr h)]
  rfl

theorem tokenizeLoop_seperator (n : Nat) (pre w : List Char) {c : Char} (hc : p c = true) (rest : List Char) :
    tokenizeLoop (pre ++ (w ++ c :: rest)) p (n + 1) (pre.length + w.length) pre.length = (do
      let i ← skip p (pre ++ (w ++ c :: rest)) ((pre ++ (w ++ c :: rest)).length + 2) (pre ++ w).length
      let tokens ← tokenizeLoop (pre ++ (w ++ c :: rest)) p n (i + 1) i
      pure ((if w = [] then [] else [w]) ++
        (if i + 1 = (pre ++ (w ++ c :: rest)).length then [substr i 1 (pre ++ (w ++ c :: rest))] else []) ++ tokens)) := by
  have hlt : pre.length + w.length < (pre ++ (w ++ c :: rest)).length := by simp
  have hchar : charAt (pre ++ (w ++ c :: rest)) (pre.length + w.length) = .ok c := by
    rw [← List.append_assoc, ← List.length_append, charAt_append]
  have htoken : (if p c ∧ 0 < pre.length + w.length ∧ pre.length < pre.length + w.length then
      [substr pre.length (pre.length + w.length - pre.length) (pre ++ (w ++ c :: rest))] else []) = if w = [] then [] else [w] := by
    cases w with
    | nil => simp
    | cons x w => simp [hc, substr]
  rw [tokenizeLoop, if_pos hlt, hchar, ← List.length_append]
  change (do
    let (i, start) ← if p c then (skip p _ _ _).map fun i => (i, i) else pure (_, _)
    let rest ← tokenizeLoop _ p n (i + 1) start
    pure ((if p c ∧ 0 < (pre ++ w).length ∧ pre.length < (pre ++ w).length then _ else _) ++ _ ++ rest)) = _
  rw [← List.length_append] at htoken
  rw [htoken, if_pos hc]
  cases skip p (pre ++ (w ++ c :: rest)) ((pre ++ (w ++ c :: rest)).length + 2) (pre ++ w).length with
  | error fault => rfl
  | ok i =>
    have hone : i + 1 - i = 1 := by omega
    change (do
      let rest ← tokenizeLoop _ p n (i + 1) i
      pure (_ ++ (if i + 1 = _ then [substr i (i + 1 - i) _] else []) ++ rest)) = _
    rw [hone]
    rfl

theorem tokenizeLoop_other (n : Nat) (pre w : List Char) {c : Char} (hc : p c = false) (rest : List Char) :
    tokenizeLoop (pre ++ (w ++ c :: rest)) p (n + 1) (pre.length + w.length) pre.length = (do
      let tokens ← tokenizeLoop (pre ++ (w ++ [c] ++ rest)) p n (pre.length + (w ++ [c]).length) pre.length
      pure ((if rest = [] then [w ++ [c]] else []) ++ tokens)) := by
  have hlt : pre.length + w.length < (pre ++ (w ++ c :: rest)).length := by simp
  have hchar : charAt (pre ++ (w ++ c :: rest)) (pre.length + w.length) = .ok c := by
    rw [← List.append_assoc, ← List.length_append, charAt_append]
  have hlast : (if pre.length + w.length + 1 = (pre ++ (w ++ c :: rest)).length then
      [substr pre.length (pre.length + w.length + 1 - pre.length) (pre ++ (w ++ c :: rest))] else []) =
      if rest = [] then [w ++ [c]] else [] := by
    cases rest with
    | nil => simp [substr, Nat.add_assoc, List.take_of_length_le]
    | cons x rest =>
      rw [if_neg (by simp; omega), if_neg (List.cons_ne_nil x rest)]
  rw [tokenizeLoop, if_pos hlt, hchar]
  change (do
    let (i, start) ← if p c then (skip p _ _ _).map fun i => (i, i) else pure (_, _)
    let rest ← tokenizeLoop _ p n (i + 1) start
    pure ((if p c ∧ _ then _ else _) ++ (if i + 1 = _ then [substr start (i + 1 - start) _] else []) ++ rest)) = _
  rw [if_neg (by simp [hc]), if_neg (by simp [hc])]
  change (do
    let rest ← tokenizeLoop _ p n (pre.length + w.length + 1) pre.length
    pure ([] ++ (if pre.length + w.length + 1 = _ then [substr pre.length (pre.length + w.length + 1 - pre.length) _] else []) ++
      rest)) = _
  rw [hlast, List.nil_append, List.append_assoc w [c] rest, List.singleton_append, List.length_append, List.length_singleton,
    Nat.add_assoc]

/-- The loop at the end of the piece `w` of a token, with `rest` ahead. It reads no character behind the terminating zero
when this is no separator or stops no inner loop. -/
theorem tokenizeLoop_eq (n : Nat) (pre w rest : List Char) (hw : ∀ x ∈ w, p x = false) (hn : rest.length < n)
    (hstop : p '\x00' = false ∨ ∀ c, rest.getLast? = some c → p c = false) :
    tokenizeLoop (pre ++ (w ++ rest)) p n (pre.length + w.length) pre.length =
      .ok (if rest = [] then [] else (w ++ rest).runs p) := by
  induction n generalizing pre w rest with
  | zero => omega
  | succ n ih =>
    cases rest with
    | nil => exact tokenizeLoop_of_length_le (Nat.succ_pos n) (by simp)
    | cons c rest =>
      rw [List.length_cons] at hn
      rw [if_neg (List.cons_ne_nil c rest)]
      have hlast : p '\x00' = false ∨ ∀ x, rest.getLast? = some x → p x = false := by
        refine hstop.imp_right fun h x hx => h x ?_
        cases rest with
        | nil => cases hx
        | cons y rest => rwa [List.getLast?_cons_cons]
      cases hc : p c with
      | true =>
        -- Behind the separators a new token begins.
        have hends : p '\x00' = false ∨ rest.dropWhile p ≠ [] := by
          refine hstop.imp_right fun h hnil => ?_
          have hall : ∀ x ∈ c :: rest, p x = true :=
            List.forall_mem_cons.mpr ⟨hc, List.dropWhile_eq_nil_iff.mp hnil⟩
          have hlastc := h _ (List.getLast?_eq_some_getLast (List.cons_ne_nil c rest))
          rw [hall _ (List.getLast_mem _)] at hlastc
          cases hlastc
        have hsplit : pre ++ (w ++ c :: rest) = (pre ++ w ++ c :: rest.takeWhile p) ++ rest.dropWhile p := by
          rw [List.append_assoc, List.append_assoc, List.cons_append, List.takeWhile_append_dropWhile]
        have hskip := skip_seperators (pre ++ w) rest (n := (pre ++ (w ++ c :: rest)).length + 2)
          (by simp only [List.length_append, List.length_cons]; omega) hc hends
        rw [List.append_assoc] at hskip
        have hless : (rest.dropWhile p).length ≤ rest.length := List.length_dropWhile_le p rest
        have hnext : ∀ x next, rest.dropWhile p = x :: next → p x = false := fun x next => List.not_of_dropWhile_eq_cons
        have hlastnext : ∀ x next, rest.dropWhile p = x :: next → p '\x00' = false ∨ ∀ y, next.getLast? = some y → p y = false := by
          intro x next hnext
          refine hlast.imp_right fun h y hy => h y ?_
          rw [← List.getLast?_dropWhile (hnext ▸ List.cons_ne_nil x next), hnext, List.getLast?_cons, hy]
          rfl
        rw [tokenizeLoop_seperator n pre w hc rest, hskip, List.runs_append_cons hw hc, ← List.runs_dropWhile rest, hsplit]
        generalize pre ++ w ++ c :: rest.takeWhile p = pre'
        generalize rest.dropWhile p = next at *
        change (do
          let tokens ← tokenizeLoop (pre' ++ next) p n (pre'.length + 1) pre'.length
          pure ((if w = [] then [] else [w]) ++
            (if pre'.length + 1 = (pre' ++ next).length then [substr pre'.length 1 (pre' ++ next)] else []) ++ tokens)) = _
        cases next with
        | nil =>
          have hend : ¬ pre'.length + 1 = (pre' ++ []).length := by rw [List.append_nil]; omega
          rw [tokenizeLoop_of_length_le (by omega) (by simp), if_neg hend, ok_bind, List.append_nil, List.append_nil]
          exact congrArg Except.ok (List.append_nil _).symm
        | cons x next =>
          have hsingle : ∀ y ∈ [x], p y = false := List.forall_mem_singleton.mpr (hnext x next rfl)
          have hrest := ih pre' [x] next hsingle (by simp at hless; omega) (hlastnext x next rfl)
          rw [List.singleton_append, List.length_singleton] at hrest
          rw [hrest]
          cases next with
          | nil => simp [List.runs_of_forall hsingle, substr]
          | cons y next => simp
      | false =>
        have hw' : ∀ x ∈ w ++ [c], p x = false := List.forall_mem_append.mpr ⟨hw, List.forall_mem_singleton.mpr hc⟩
        rw [tokenizeLoop_other n pre w hc rest, ih pre (w ++ [c]) rest hw' (by omega) hlast]
        cases rest with
        | nil => simp [List.runs_of_forall hw']
        | cons x rest => simp

theorem getLast?_of_cons {c last : Char} {rest : List Char} (h : (c :: rest).getLast? = some last) (hne : rest ≠ []) :
    rest.getLast? = some last := by
  rwa [← List.singleton_append, List.getLast?_append_of_ne_nil [c] hne] at h

/-- A text that begins with no separator and ends with one has more than one character. -/
theorem ne_nil_of_getLast? {c last : Char} {rest : List Char} (h : (c :: rest).getLast? = some last) (hc : p c = false)
    (hlast : p last = true) : rest ≠ [] := by
  rintro rfl
  rw [← Option.some.inj h] at hlast
  exact absurd (hc.symm.trans hlast) Bool.false_ne_true

/-- When the terminating zero is a separator and the text ends with one, the last inner loop reads on behind the zero. -/
theorem tokenizeLoop_read (n : Nat) (pre w rest : List Char) (hn : rest.length < n) (hzero : p '\x00' = true) {last : Char}
    (hlast : rest.getLast? = some last) (hsep : p last = true) :
    tokenizeLoop (pre ++ (w ++ rest)) p n (pre.length + w.length) pre.length = .error .read := by
  induction n generalizing pre w rest with
  | zero => omega
  | succ n ih =>
    cases rest with
    | nil => cases hlast
    | cons c rest =>
      rw [List.length_cons] at hn
      cases hc : p c with
      | true =>
        rw [tokenizeLoop_seperator n pre w hc rest]
        rcases hnext : rest.dropWhile p with _ | ⟨x, next⟩
        · have hall : (c :: rest).dropWhile p = [] := by rw [List.dropWhile_cons, if_pos hc, hnext]
          have hskip := skip_read (pre ++ w) (c :: rest) (n := (pre ++ (w ++ c :: rest)).length + 2)
            (by simp only [List.length_append, List.length_cons]; omega) hzero hall
          rw [List.append_assoc] at hskip
          rw [hskip]
          rfl
        · have hskip := skip_seperators (pre ++ w) rest (n := (pre ++ (w ++ c :: rest)).length + 2)
            (by simp only [List.length_append, List.length_cons]; omega) hc (Or.inr (by rw [hnext]; exact List.cons_ne_nil x next))
          have hsplit : pre ++ (w ++ c :: rest) = (pre ++ w ++ c :: rest.takeWhile p) ++ ([x] ++ next) := by
            rw [List.singleton_append, ← hnext, List.append_assoc, List.append_assoc, List.cons_append,
              List.takeWhile_append_dropWhile]
          have hx : p x = false := List.not_of_dropWhile_eq_cons hnext
          have hlastnext : next.getLast? = some last := by
            have hend : (x :: next).getLast? = some last := by
              rw [← hnext, List.getLast?_dropWhile (hnext ▸ List.cons_ne_nil x next)]
              exact getLast?_of_cons hlast (by rintro rfl; cases hnext)
            exact getLast?_of_cons hend (ne_nil_of_getLast? hend hx hsep)
          have hless : (rest.dropWhile p).length ≤ rest.length := List.length_dropWhile_le p rest
          rw [hnext, List.length_cons] at hless
          rw [List.append_assoc] at hskip
          have hrest := ih (pre ++ w ++ c :: rest.takeWhile p) [x] next (by omega) hlastnext
          rw [List.length_singleton] at hrest
          rw [hskip, ok_bind, hsplit, hrest]
          rfl
      | false =>
        rw [tokenizeLoop_other n pre w hc rest]
        have hlast' : rest.getLast? = some last := getLast?_of_cons hlast (ne_nil_of_getLast? hlast hc hsep)
        rw [ih pre (w ++ [c]) rest (by omega) hlast']
        rfl

/-- The tokens are the runs between the separators, unless the terminating zero counts as a separator and the text ends
with one: then the inner loop runs over the zero. -/
theorem tokenize_eq_runs_iff (line : List Char) (sep : Char) (trimWhiteSpace : Bool) :
    tokenize line sep trimWhiteSpace = .ok (line.runs (isSeperator sep trimWhiteSpace)) ↔
      (sep = '\x00' → ∀ c, line.getLast? = some c → isSeperator sep trimWhiteSpace c = false) := by
  have hzero : isSeperator sep trimWhiteSpace '\x00' = decide (sep = '\x00') := by
    have hspace : isspace '\x00' = false := rfl
    rw [isSeperator, hspace, Bool.and_false, Bool.or_false]
    exact decide_eq_decide.mpr eq_comm
  constructor
  · intro h hsep c hc
    by_contra hne
    have hread := tokenizeLoop_read (line.length + 1) [] [] line (Nat.lt_succ_self _)
      (hzero.trans (decide_eq_true hsep)) hc (Bool.eq_true_of_not_eq_false hne)
    rw [List.nil_append, List.nil_append] at hread
    change tokenizeLoop line _ (line.length + 1) 0 0 = _ at hread
    rw [tokenize, hread] at h
    cases h
  · intro h
    have hstop : isSeperator sep trimWhiteSpace '\x00' = false ∨
        ∀ c, line.getLast? = some c → isSeperator sep trimWhiteSpace c = false := by
      by_cases hsep : sep = '\x00'
      · exact Or.inr (h hsep)
      · exact Or.inl (hzero.trans (decide_eq_false hsep))
    have hloop := tokenizeLoop_eq (line.length + 1) [] [] line (List.forall_mem_nil _) (Nat.lt_succ_self _) hstop
    rw [List.nil_append, List.nil_append] at hloop
    refine hloop.trans (congrArg Except.ok ?_)
    cases line with
    | nil => rfl
    | cons c line => exact if_neg (List.cons_ne_nil c line)

theorem tokenize_white_space (line : List Char) : tokenize line ' ' true = .ok (Uscxml.tokenize line) := by
  have hspace : isSeperator ' ' true = isspace := by
    funext c
    rw [isSeperator, Bool.true_and]
    by_cases hc : c = ' '
    · rw [hc]
      rfl
    · rw [decide_eq_false hc, Bool.false_or]
  rw [(tokenize_eq_runs_iff line ' ' true).mpr (fun h => absurd h (by decide)), hspace, tokenize_eq, descriptors_eq_runs]

/-- The inner loop runs over the terminating zero when that is the separator and the text ends with a blank. -/
theorem zero_seperator_reads_on : ¬ tokenize ['a', ' '] '\x00' true = .ok (['a', ' '].runs (isSeperator '\x00' true)) := by
  have hread : tokenize ['a', ' '] '\x00' true = .error .read := by decide
  rw [hread]
  intro h
  cases h

end Tokenize

/-! ### `spaceNormalize` -/

def joined (text : List Char) : List Char := [' '].intercalate (text.runs isspace)

/-- What the loop writes for the given runs, with `seperator` in front of the first one. -/
def glue : List Char → List (List Char) → List Char
  | _, [] => []
  | seperator, w :: ws => seperator ++ w ++ glue [' '] ws

theorem glue_space (w : List Char) (ws : List (List Char)) : glue [' '] (w :: ws) = [' '] ++ [' '].intercalate (w :: ws) := by
  induction ws generalizing w with
  | nil => simp [glue]
  | cons w' ws ih =>
    rw [glue, ih, List.intercalate_cons_of_ne_nil (List.cons_ne_nil w' ws)]
    simp

theorem glue_nil (ws : List (List Char)) : glue [] ws = [' '].intercalate ws := by
  cases ws with
  | nil => rfl
  | cons w ws =>
    cases ws with
    | nil => simp [glue]
    | cons w' ws =>
      rw [glue, glue_space, List.intercalate_cons_of_ne_nil (List.cons_ne_nil w' ws)]
      simp

/-- The text ends with a single character behind white space. -/
def endsAlone : List Char → Bool
  | [] => false
  | [_] => false
  | [b, c] => isspace b && !isspace c
  | _ :: b :: c :: rest => endsAlone (b :: c :: rest)

theorem endsAlone_cons_of_not {c : Char} (hc : isspace c = false) (rest : List Char) : endsAlone (c :: rest) = endsAlone rest := by
  cases rest with
  | nil => rfl
  | cons x rest =>
    cases rest with
    | nil =>
      change (isspace c && !isspace x) = false
      rw [hc, Bool.false_and]
    | cons y rest => rfl

theorem endsAlone_append (l : List Char) (b c : Char) (rest : List Char) :
    endsAlone (l ++ b :: c :: rest) = endsAlone (b :: c :: rest) := by
  induction l with
  | nil => rfl
  | cons a l ih =>
    cases l with
    | nil => rfl
    | cons a' l =>
      rw [← ih]
      cases l with
      | nil => rfl
      | cons a'' l => rfl

theorem endsAlone_of_forall {l : List Char} (h : ∀ c ∈ l, isspace c = true) : endsAlone l = false := by
  induction l with
  | nil => rfl
  | cons b l ih =>
    cases l with
    | nil => rfl
    | cons c l =>
      cases l with
      | nil =>
        change (isspace b && !isspace c) = false
        rw [h c (by simp), Bool.not_true, Bool.and_false]
      | cons d l => exact ih fun x hx => h x (List.mem_cons_of_mem b hx)

/-- The runs of the piece `w` and of what follows it that the loop still writes: the last one is lost when it is a single
character that ends the text, unless its token has begun already. -/
def written (w rest : List Char) : List (List Char) :=
  if rest = [] then [] else if endsAlone rest then ((w ++ rest).runs isspace).dropLast else (w ++ rest).runs isspace

theorem written_other {w : List Char} (hw : ∀ x ∈ w, isspace x = false) {c : Char} (hc : isspace c = false) (rest : List Char) :
    written w (c :: rest) = if rest = [] then [w ++ [c]] else written (w ++ [c]) rest := by
  rw [written, if_neg (List.cons_ne_nil c rest), endsAlone_cons_of_not hc]
  cases rest with
  | nil =>
    have hw' : ∀ x ∈ w ++ [c], isspace x = false := List.forall_mem_append.mpr ⟨hw, List.forall_mem_singleton.mpr hc⟩
    rw [List.runs_of_forall hw', if_neg (by simp : w ++ [c] ≠ [])]
    rfl
  | cons x rest =>
    rw [if_neg (List.cons_ne_nil x rest), written, if_neg (List.cons_ne_nil x rest), List.append_assoc, List.singleton_append]

theorem written_space {w : List Char} (hw : ∀ x ∈ w, isspace x = false) {c : Char} (hc : isspace c = true) (rest : List Char) :
    written w (c :: rest) = (if w = [] then [] else [w]) ++
      written ((rest.dropWhile isspace).take 1) ((rest.dropWhile isspace).drop 1) := by
  rw [written, if_neg (List.cons_ne_nil c rest), List.runs_append_cons hw hc, ← List.runs_dropWhile rest]
  have hsplit := List.takeWhile_append_dropWhile (p := isspace) (l := rest)
  have hspaces : ∀ x ∈ c :: rest.takeWhile isspace, isspace x = true :=
    List.forall_mem_cons.mpr ⟨hc, fun x hx => List.mem_takeWhile_imp hx⟩
  rcases hnext : rest.dropWhile isspace with _ | ⟨x, next⟩
  · rw [hnext, List.append_nil] at hsplit
    rw [← hsplit, endsAlone_of_forall hspaces]
    rfl
  · have hx : isspace x = false := List.not_of_dropWhile_eq_cons hnext
    rw [hnext] at hsplit
    cases next with
    | nil =>
      have hsingle : ∀ y ∈ [x], isspace y = false := List.forall_mem_singleton.mpr hx
      have halone : endsAlone (c :: rest) = true := by
        obtain ⟨l, b, hl⟩ : ∃ l b, c :: rest.takeWhile isspace = l ++ [b] :=
          ⟨_, _, (List.dropLast_append_getLast (List.cons_ne_nil c _)).symm⟩
        have hb : isspace b = true := hspaces b (by rw [hl]; simp)
        rw [← hsplit, ← List.cons_append, hl, List.append_assoc, List.singleton_append, endsAlone_append]
        change (isspace b && !isspace x) = true
        rw [hb, hx]
        rfl
      rw [halone, List.runs_of_forall hsingle]
      simp [written]
    | cons y next =>
      have halone : endsAlone (c :: rest) = endsAlone (y :: next) := by
        rw [← hsplit, ← List.cons_append, endsAlone_append, endsAlone_cons_of_not hx]
      have hne : (x :: y :: next).runs isspace ≠ [] := by
        intro hnil
        exact absurd (hx.symm.trans (List.forall_of_runs_eq_nil hnil x List.mem_cons_self)) Bool.false_ne_true
      rw [halone]
      change _ = (if w = [] then [] else [w]) ++ written [x] (y :: next)
      rw [written, if_neg (List.cons_ne_nil y next), List.singleton_append]
      cases endsAlone (y :: next) with
      | true => exact List.dropLast_append_of_ne_nil hne
      | false => rfl

theorem spaceNormalizeLoop_of_length_le {text : List Char} {n i start : Nat} {seperator : List Char} (hn : 0 < n)
    (h : text.length ≤ i) : spaceNormalizeLoop text n i start seperator = .ok [] := by
  obtain ⟨n, rfl⟩ := Nat.exists_eq_succ_of_ne_zero (Nat.ne_of_gt hn)
  rw [spaceNormalizeLoop, if_neg (Nat.not_lt.mpr h)]
  rfl

/-- The loop at the end of the piece `w` of a token, with `rest` ahead. -/
theorem spaceNormalizeLoop_eq (n : Nat) (pre w rest seperator : List Char) (hw : ∀ x ∈ w, isspace x = false)
    (hn : rest.length < n) :
    spaceNormalizeLoop (pre ++ (w ++ rest)) n (pre.length + w.length) pre.length seperator =
      .ok (glue seperator (written w rest)) := by
  induction n generalizing pre w rest seperator with
  | zero => omega
  | succ n ih =>
    cases rest with
    | nil =>
      rw [spaceNormalizeLoop_of_length_le (Nat.succ_pos n) (by simp)]
      rfl
    | cons c rest =>
      rw [List.length_cons] at hn
      have hlt : pre.length + w.length < (pre ++ (w ++ c :: rest)).length := by simp
      have hchar : charAt (pre ++ (w ++ c :: rest)) (pre.length + w.length) = .ok c := by
        rw [← List.append_assoc, ← List.length_append, charAt_append]
      rw [spaceNormalizeLoop, if_pos hlt, hchar, ok_bind]
      cases hc : isspace c with
      | true =>
        have hskip : skip isspace (pre ++ (w ++ c :: rest)) ((pre ++ (w ++ c :: rest)).length + 2) (pre.length + w.length + 1) =
            .ok (pre ++ w ++ c :: rest.takeWhile isspace).length := by
          have hline : pre ++ (w ++ c :: rest) = (pre ++ w ++ [c]) ++ rest := by simp
          have hpos : pre.length + w.length + 1 = (pre ++ w ++ [c]).length := by simp; omega
          rw [hpos, hline, skip_eq _ _ (by simp only [List.length_append]; omega) (Or.inl rfl)]
          exact congrArg Except.ok (by simp; omega)
        -- Behind the white space a new token begins, of which the loop skips the first character.
        have hnext : ∀ seperator, spaceNormalizeLoop (pre ++ (w ++ c :: rest)) n
            ((pre ++ w ++ c :: rest.takeWhile isspace).length + 1) (pre ++ w ++ c :: rest.takeWhile isspace).length seperator =
            .ok (glue seperator (written ((rest.dropWhile isspace).take 1) ((rest.dropWhile isspace).drop 1))) := by
          intro seperator
          have hsplit : pre ++ (w ++ c :: rest) = (pre ++ w ++ c :: rest.takeWhile isspace) ++ rest.dropWhile isspace := by
            rw [List.append_assoc, List.append_assoc, List.cons_append, List.takeWhile_append_dropWhile]
          have hless : (rest.dropWhile isspace).length ≤ rest.length := List.length_dropWhile_le isspace rest
          rw [hsplit]
          generalize pre ++ w ++ c :: rest.takeWhile isspace = pre'
          rcases hdrop : rest.dropWhile isspace with _ | ⟨x, next⟩
          · rw [spaceNormalizeLoop_of_length_le (by omega) (by simp)]
            rfl
          · have hsingle : ∀ y ∈ [x], isspace y = false := List.forall_mem_singleton.mpr (List.not_of_dropWhile_eq_cons hdrop)
            rw [hdrop, List.length_cons] at hless
            exact ih pre' [x] next seperator hsingle (by omega)
        rw [if_pos rfl, written_space hw hc]
        cases w with
        | nil =>
          rw [if_neg (by simp)]
          change (skip _ _ _ _ >>= fun i => _) = _
          rw [hskip, ok_bind, hnext]
          rfl
        | cons x w =>
          have hcond : 0 < pre.length + (x :: w).length ∧ pre.length < pre.length + (x :: w).length := by
            rw [List.length_cons]
            omega
          have hsub : substr pre.length (pre.length + (x :: w).length - pre.length) (pre ++ ((x :: w) ++ c :: rest)) = x :: w := by
            simp [substr]
          rw [if_pos hcond, hsub]
          change (skip _ _ _ _ >>= fun i => _) = _
          rw [hskip, ok_bind, hnext]
          rfl
      | false =>
        have hrest := ih pre (w ++ [c]) rest seperator
          (List.forall_mem_append.mpr ⟨hw, List.forall_mem_singleton.mpr hc⟩) (by omega)
        rw [List.append_assoc, List.singleton_append, List.length_append, List.length_singleton, ← Nat.add_assoc] at hrest
        rw [if_neg Bool.false_ne_true, written_other hw hc, hrest, ok_bind]
        cases rest with
        | nil =>
          have hsub : substr pre.length (pre.length + w.length + 1 - pre.length) (pre ++ (w ++ [c])) = w ++ [c] := by
            simp [substr, Nat.add_assoc, List.take_of_length_le]
          rw [if_pos (by simp; omega), hsub]
          exact congrArg Except.ok (by simp [glue, written])
        | cons x rest =>
          rw [if_neg (by simp; omega), if_neg (List.cons_ne_nil x rest)]

theorem spaceNormalize_eq (text : List Char) : spaceNormalize text = .ok (glue [] (written [] text)) := by
  have hloop := spaceNormalizeLoop_eq (text.length + 1) [] [] text [] (List.forall_mem_nil _) (Nat.lt_succ_self _)
  rwa [List.nil_append, List.nil_append] at hloop

/-- The text is written with its last run, or that is a single character that ends it behind white space. -/
theorem glue_written (text : List Char) :
    glue [] (written [] text) =
      if endsAlone text then [' '].intercalate (text.runs isspace).dropLast else joined text := by
  rw [glue_nil, written, List.nil_append, joined]
  cases text with
  | nil => rfl
  | cons c text =>
    rw [if_neg (List.cons_ne_nil c text)]
    split
    · rfl
    · rfl

/-- `spaceNormalize` gives the runs of a text joined by single spaces, and leaves its own result as it is. -/
def Normalizes (text : List Char) : Prop :=
  spaceNormalize text = .ok (joined text) ∧ ∀ out, spaceNormalize text = .ok out → spaceNormalize out = .ok out

/-- A last run of a single character is the only run, and it begins the text or has white space behind it. -/
def LastRunStays (text : List Char) : Prop :=
  ∀ before c, text.runs isspace = before ++ [[c]] → before = [] ∧ (text.head? = some c ∨ text.getLast? ≠ some c)

theorem exists_of_endsAlone {text : List Char} (h : endsAlone text = true) :
    ∃ t b c, text = t ++ [b, c] ∧ isspace b = true ∧ isspace c = false := by
  induction text with
  | nil => cases h
  | cons a text ih =>
    match text, h with
    | [x], h =>
      change (isspace a && !isspace x) = true at h
      rw [Bool.and_eq_true, Bool.not_eq_true'] at h
      exact ⟨[], a, x, rfl, h⟩
    | x :: y :: text, h =>
      obtain ⟨t, b, c, htext, hbc⟩ := ih h
      exact ⟨a :: t, b, c, by rw [htext]; rfl, hbc⟩

/-- When a text ends with a single character behind white space. -/
theorem endsAlone_iff {text : List Char} :
    endsAlone text = true ↔ ∃ before c, text.runs isspace = before ++ [[c]] ∧ text.getLast? = some c ∧
      ¬ (before = [] ∧ text.head? = some c) := by
  constructor
  · intro h
    obtain ⟨t, b, c, rfl, hb, hc⟩ := exists_of_endsAlone h
    refine ⟨t.runs isspace, c, ?_, by simp, ?_⟩
    · rw [List.runs_append t hb, List.runs_of_forall (List.forall_mem_singleton.mpr hc)]
      rfl
    · rintro ⟨hnone, hhead⟩
      have hspaces : ∀ x ∈ t ++ [b], isspace x = true :=
        List.forall_mem_append.mpr ⟨List.forall_of_runs_eq_nil hnone, List.forall_mem_singleton.mpr hb⟩
      have hmem : c ∈ t ++ [b] := by
        cases t with
        | nil => exact List.mem_singleton.mpr (Option.some.inj hhead).symm
        | cons x t => exact (Option.some.inj hhead) ▸ List.mem_cons_self
      exact absurd (hc.symm.trans (hspaces c hmem)) Bool.false_ne_true
  · rintro ⟨before, c, hruns, hlast, hbegins⟩
    have hc : isspace c = false := List.not_of_mem_runs (l := text) (by rw [hruns]; simp) c (List.mem_singleton_self c)
    obtain ⟨t, rfl⟩ := List.getLast?_eq_some_iff.mp hlast
    rcases List.eq_nil_or_concat t with rfl | ⟨t, b, rfl⟩
    · rw [List.nil_append, List.runs_of_forall (List.forall_mem_singleton.mpr hc)] at hruns
      cases before with
      | nil => exact absurd ⟨rfl, rfl⟩ hbegins
      | cons w before => simp at hruns
    · rw [List.concat_eq_append, List.append_assoc, List.singleton_append] at hruns ⊢
      rw [endsAlone_append]
      change (isspace b && !isspace c) = true
      cases hb : isspace b with
      | true => rw [hc]; rfl
      | false =>
        -- The character before the last one would belong to the last run.
        have hboth : ∀ x ∈ [b, c], isspace x = false := by simp [hb, hc]
        obtain ⟨before', w, hruns'⟩ := List.exists_runs_append hboth (List.cons_ne_nil b _) t
        rw [hruns] at hruns'
        have hsame := (List.append_inj' hruns' rfl).2
        have hlength := congrArg (fun l => l.head?.map List.length) hsame
        simp at hlength

theorem runs_joined (text : List Char) : (joined text).runs isspace = text.runs isspace :=
  List.runs_intercalate (fun _ => List.ne_nil_of_mem_runs) (fun _ => List.not_of_mem_runs) rfl

theorem joined_joined (text : List Char) : joined (joined text) = joined text := by
  rw [joined, runs_joined, joined]

theorem exists_intercalate_concat (ws : List (List Char)) (w : List Char) :
    ∃ u, [' '].intercalate (ws ++ [w]) = u ++ w ∧ (ws = [] → u = []) := by
  induction ws with
  | nil => exact ⟨[], by simp, fun _ => rfl⟩
  | cons v ws ih =>
    obtain ⟨u, hu, -⟩ := ih
    refine ⟨v ++ [' '] ++ u, ?_, fun h => by cases h⟩
    rw [List.cons_append, List.intercalate_cons_of_ne_nil (by simp), hu]
    simp only [List.append_assoc]

/-- The result ends with a single character behind a space when the last of several runs is one. -/
theorem endsAlone_joined_iff {text : List Char} :
    endsAlone (joined text) = true ↔ ∃ before c, text.runs isspace = before ++ [[c]] ∧ before ≠ [] := by
  rw [endsAlone_iff, runs_joined]
  refine exists_congr fun before => exists_congr fun c => and_congr_right fun hruns => ?_
  obtain ⟨u, hu, hnil⟩ := exists_intercalate_concat before [c]
  rw [joined, hruns, hu]
  constructor
  · rintro ⟨-, h⟩ rfl
    rw [hnil rfl] at h
    exact h ⟨rfl, rfl⟩
  · intro hne
    exact ⟨by simp, fun h => hne h.1⟩

theorem spaceNormalize_eq_joined_iff (text : List Char) : spaceNormalize text = .ok (joined text) ↔ endsAlone text = false := by
  rw [spaceNormalize_eq, glue_written]
  cases h : endsAlone text with
  | false => simp
  | true =>
    rw [if_pos rfl]
    refine iff_of_false ?_ (by simp)
    intro heq
    -- The result would have all the runs of the text.
    have hruns := congrArg (List.runs isspace) (Except.ok.inj heq)
    rw [runs_joined, List.runs_intercalate (fun w hw => List.ne_nil_of_mem_runs (List.mem_of_mem_dropLast hw))
      (fun w hw => List.not_of_mem_runs (List.mem_of_mem_dropLast hw)) rfl] at hruns
    obtain ⟨before, c, hlast, -⟩ := endsAlone_iff.mp h
    rw [hlast, List.dropLast_concat] at hruns
    exact absurd hruns.symm (by simp)

/-- White space is normalised, for good, unless the last run is a single character behind white space or other runs. -/
theorem normalizes_iff_lastRunStays (text : List Char) : Normalizes text ↔ LastRunStays text := by
  have hboth : Normalizes text ↔ endsAlone text = false ∧ endsAlone (joined text) = false := by
    rw [← spaceNormalize_eq_joined_iff, ← spaceNormalize_eq_joined_iff, joined_joined, Normalizes]
    refine and_congr_right fun h => ?_
    rw [h]
    exact ⟨fun hout => hout _ rfl, fun hout out heq => (Except.ok.inj heq) ▸ hout⟩
  rw [hboth, ← Bool.not_eq_true, ← Bool.not_eq_true, endsAlone_iff, endsAlone_joined_iff, LastRunStays]
  constructor
  · rintro ⟨hends, hjoined⟩ before c hruns
    have hnil : before = [] := by
      by_contra hne
      exact hjoined ⟨before, c, hruns, hne⟩
    refine ⟨hnil, ?_⟩
    by_contra hnone
    rw [not_or, not_not] at hnone
    exact hends ⟨before, c, hruns, hnone.2, fun h => hnone.1 h.2⟩
  · intro h
    refine ⟨?_, ?_⟩
    · rintro ⟨before, c, hruns, hlast, hbegins⟩
      obtain ⟨hnil, hhead | hother⟩ := h before c hruns
      · exact hbegins ⟨hnil, hhead⟩
      · exact hother hlast
    · rintro ⟨before, c, hruns, hne⟩
      exact hne (h before c hruns).1

/-- `a b` is written without its `b`. -/
theorem last_letter_lost : ¬ Normalizes ['a', ' ', 'b'] := by
  rintro ⟨h, -⟩
  have hlost : spaceNormalize ['a', ' ', 'b'] = .ok ['a'] := by decide
  have hjoined : joined ['a', ' ', 'b'] = ['a', ' ', 'b'] := by decide
  rw [hlost, hjoined] at h
  cases h

end Uscxml.Strings
