import Uscxml.Messages.Json

/-!
# What the tokenizer reads

The tokenizer is run with more and more tokens until these are enough, which they are when there is one for every
character. With enough tokens it goes through a text piece by piece: what it makes of one piece does not depend on the
tokens it has already.
-/

namespace Uscxml

namespace Jsmn

/-! ### Enough tokens -/

section

variable {n m pos : Nat} {c : Char}

theorem alloc_mono (hnm : n ≤ m) {token : JsmnToken} {tokens : List JsmnToken} (h : alloc n token tokens ≠ .error .nomem) :
    alloc m token tokens = alloc n token tokens := by
  rw [alloc, alloc] at *
  split at h
  · exact absurd rfl h
  · rename_i hlt
    rw [if_neg hlt, if_neg (by omega)]

theorem value_mono (hnm : n ≤ m) {tokens : List JsmnToken} (h : value n pos c tokens ≠ .error .nomem) :
    value m pos c tokens = value n pos c tokens := by
  rw [value] at h ⊢
  rw [value]
  split
  · rw [if_pos (by assumption)] at h
    exact alloc_mono hnm h
  rw [if_neg (by assumption)] at h
  split
  · rw [if_pos (by assumption)] at h
    exact alloc_mono hnm h
  · rfl

theorem step_mono (hnm : n ≤ m) {p : Parser} (h : step n pos c p ≠ .error .nomem) : step m pos c p = step n pos c p := by
  rw [step] at h ⊢
  rw [step]
  cases hmode : p.mode with
  | value =>
    rw [hmode] at h
    exact value_mono hnm h
  | string start =>
    rw [hmode] at h
    simp only at h ⊢
    split
    · rw [if_pos (by assumption)] at h
      exact alloc_mono hnm h
    · rfl
  | escaped start => rfl
  | primitive start =>
    rw [hmode] at h
    simp only at h ⊢
    split
    · rw [if_pos (by assumption)] at h
      cases ha : alloc n { type := .primitive, start := start, stop := pos } p.tokens with
      | error e =>
        rw [alloc_mono hnm, ha]
        · rfl
        · rw [ha] at h ⊢
          exact h
      | ok p₁ =>
        rw [ha] at h
        rw [alloc_mono hnm (by rw [ha]; simp), ha]
        exact value_mono hnm h
    · rfl

theorem finish_mono (hnm : n ≤ m) {p : Parser} (h : finish n pos p ≠ .error .nomem) : finish m pos p = finish n pos p := by
  rw [finish] at h ⊢
  rw [finish]
  cases hmode : p.mode with
  | value => rfl
  | string start => rfl
  | escaped start => rfl
  | primitive start =>
    rw [hmode] at h
    simp only at h ⊢
    rw [alloc_mono hnm]
    intro ha
    rw [ha] at h
    exact h rfl

theorem run_mono (hnm : n ≤ m) {js : List Char} {p : Parser} (h : run n js pos p ≠ .error .nomem) :
    run m js pos p = run n js pos p := by
  induction js generalizing pos p with
  | nil => exact finish_mono hnm h
  | cons c js ih =>
    rw [run] at h ⊢
    rw [run]
    cases hs : step n pos c p with
    | error e =>
      rw [step_mono hnm, hs]
      · rfl
      · rw [hs] at h ⊢
        intro heq
        exact h (by rw [Except.error.inj heq]; rfl)
    | ok p' =>
      rw [hs] at h
      rw [step_mono hnm (by rw [hs]; simp), hs]
      exact ih h

theorem parse_mono (hnm : n ≤ m) {js : List Char} (h : parse n js ≠ .error .nomem) : parse m js = parse n js := by
  rw [parse, parse, run_mono hnm]
  intro hr
  rw [parse, hr] at h
  exact h rfl

end

/-! ### Piece by piece -/

/-- In front of `rest`, a piece of text is read as `ts`, whatever tokens there are already. -/
def Reads (cs : List Char) (pos : Nat) (ts : List JsmnToken) (rest : List Char) : Prop :=
  ts.length ≤ cs.length ∧ ∀ (n : Nat) (tokens : List JsmnToken), tokens.length + cs.length ≤ n →
    run n (cs ++ rest) pos { tokens := tokens } = run n rest (pos + cs.length) { tokens := ts.reverse ++ tokens }

/-- In front of `rest`, a piece of text is not accepted. -/
def Fails (cs : List Char) (pos : Nat) (rest : List Char) : Prop :=
  ∀ (n : Nat) (tokens : List JsmnToken), tokens.length + cs.length ≤ n →
    run n (cs ++ rest) pos { tokens := tokens } = .error .inval

theorem reads_nil (pos : Nat) (rest : List Char) : Reads [] pos [] rest := ⟨Nat.le_refl 0, fun _ _ _ => rfl⟩

theorem Reads.append {cs cs' rest : List Char} {pos : Nat} {ts ts' : List JsmnToken} (h : Reads cs pos ts (cs' ++ rest))
    (h' : Reads cs' (pos + cs.length) ts' rest) : Reads (cs ++ cs') pos (ts ++ ts') rest := by
  refine ⟨?_, ?_⟩
  · have hlen := h.1
    have hlen' := h'.1
    simp only [List.length_append]
    omega
  · intro n tokens hn
    have hlen := h.1
    rw [List.length_append] at hn
    rw [List.append_assoc, h.2 n tokens (by omega), h'.2 n _ (by simp; omega), List.length_append, List.reverse_append,
      List.append_assoc, Nat.add_assoc]

theorem Reads.fails {cs cs' rest : List Char} {pos : Nat} {ts : List JsmnToken} (h : Reads cs pos ts (cs' ++ rest))
    (h' : Fails cs' (pos + cs.length) rest) : Fails (cs ++ cs') pos rest := by
  intro n tokens hn
  have hlen := h.1
  rw [List.length_append] at hn
  rw [List.append_assoc, h.2 n tokens (by omega)]
  exact h' n _ (by simp; omega)

theorem Fails.append {cs rest : List Char} {pos : Nat} (cs' : List Char) (h : Fails cs pos (cs' ++ rest)) :
    Fails (cs ++ cs') pos rest := by
  intro n tokens hn
  rw [List.length_append] at hn
  rw [List.append_assoc]
  exact h n tokens (by omega)

/-- Characters that are passed over. -/
def blank (c : Char) : Bool := c ∈ ['\t', '\r', '\n', ':', ',', ' ']

theorem reads_blanks {cs : List Char} (h : ∀ c ∈ cs, blank c = true) (pos : Nat) (rest : List Char) : Reads cs pos [] rest := by
  induction cs generalizing pos with
  | nil => exact reads_nil pos rest
  | cons c cs ih =>
    obtain ⟨hc, hcs⟩ := List.forall_mem_cons.mp h
    have hone : Reads [c] pos [] (cs ++ rest) := by
      refine ⟨Nat.zero_le 1, ?_⟩
      intro n tokens _
      have hstep : step n pos c { tokens := tokens } = .ok { tokens := tokens } := by
        simp only [blank, List.mem_cons, List.not_mem_nil, or_false, decide_eq_true_eq] at hc
        rcases hc with rfl | rfl | rfl | rfl | rfl | rfl <;> rfl
      show (step n pos c { tokens := tokens }).bind (run n (cs ++ rest) (pos + 1)) = _
      rw [hstep]
      rfl
    exact hone.append (ih hcs (pos + 1))

/-! ### Strings -/

open Data (escapeChar jsonEscape)

theorem escapeChar_cases {c : Char} (h : c ≠ '\x0b') :
    (∃ x, escapeChar c = ['\\', x] ∧ escapable x = true) ∨ escapeChar c = [c] ∧ c ≠ '"' ∧ c ≠ '\\' := by
  rw [escapeChar]
  split
  · exact .inl ⟨'t', rfl, rfl⟩
  split
  · exact .inl ⟨'b', rfl, rfl⟩
  split
  · exact .inl ⟨'f', rfl, rfl⟩
  split
  · exact .inl ⟨'n', rfl, rfl⟩
  split
  · exact .inl ⟨'r', rfl, rfl⟩
  split
  · exact .inl ⟨'"', rfl, rfl⟩
  split
  · exact .inl ⟨'\\', rfl, rfl⟩
  · exact .inr ⟨rfl, by assumption, by assumption⟩

theorem run_escapeChar {c : Char} (h : c ≠ '\x0b') (n start pos : Nat) (tokens : List JsmnToken) (rest : List Char) :
    run n (escapeChar c ++ rest) pos { mode := .string start, tokens := tokens } =
      run n rest (pos + (escapeChar c).length) { mode := .string start, tokens := tokens } := by
  rcases escapeChar_cases h with ⟨x, hx, hescapable⟩ | ⟨hc, hquote, hback⟩
  · rw [hx]
    have hstep : step n (pos + 1) x { mode := .escaped start, tokens := tokens } =
        .ok { mode := .string start, tokens := tokens } := by
      simp [step, hescapable]
    show (step n (pos + 1) x { mode := .escaped start, tokens := tokens }).bind (run n rest (pos + 1 + 1)) = _
    rw [hstep]
    rfl
  · rw [hc]
    have hstep : step n pos c { mode := .string start, tokens := tokens } =
        .ok { mode := .string start, tokens := tokens } := by
      simp [step, hquote, hback]
    show (step n pos c { mode := .string start, tokens := tokens }).bind (run n rest (pos + 1)) = _
    rw [hstep]
    rfl

theorem run_jsonEscape {s : List Char} (h : '\x0b' ∉ s) (n start pos : Nat) (tokens : List JsmnToken) (rest : List Char) :
    run n (jsonEscape s ++ rest) pos { mode := .string start, tokens := tokens } =
      run n rest (pos + (jsonEscape s).length) { mode := .string start, tokens := tokens } := by
  induction s generalizing pos with
  | nil => rfl
  | cons c s ih =>
    rw [List.mem_cons, not_or] at h
    rw [jsonEscape, List.flatMap_cons, List.append_assoc, run_escapeChar (Ne.symm h.1), List.length_append, ← Nat.add_assoc]
    exact ih h.2 _

theorem reads_string {s : List Char} (h : '\x0b' ∉ s) (pos : Nat) (rest : List Char) :
    Reads ('"' :: (jsonEscape s ++ ['"'])) pos
      [{ type := .string, start := pos + 1, stop := (pos + 1 + (jsonEscape s).length : Nat) }] rest := by
  refine ⟨by simp, ?_⟩
  intro n tokens hn
  have hopen : run n ('"' :: (jsonEscape s ++ ['"']) ++ rest) pos { tokens := tokens } =
      run n (jsonEscape s ++ '"' :: rest) (pos + 1) { mode := .string pos, tokens := tokens } := by
    show run n ((jsonEscape s ++ ['"']) ++ rest) (pos + 1) { mode := .string pos, tokens := tokens } = _
    rw [List.append_assoc]
    rfl
  have hclose : step n (pos + 1 + (jsonEscape s).length) '"' { mode := .string pos, tokens := tokens } =
      .ok { tokens := { type := .string, start := pos + 1, stop := (pos + 1 + (jsonEscape s).length : Nat) } :: tokens } := by
    simp only [List.length_cons] at hn
    simp only [step, if_true, alloc]
    rw [if_neg (by omega)]
  rw [hopen, run_jsonEscape h, run, hclose]
  simp [Except.bind, Nat.add_assoc, Nat.add_comm 1]

theorem fails_string {s : List Char} (h : '\x0b' ∈ s) (pos : Nat) (rest : List Char) :
    Fails ('"' :: (jsonEscape s ++ ['"'])) pos rest := by
  obtain ⟨s₁, s₂, hs, hs₁⟩ := List.eq_append_cons_of_mem h
  intro n tokens _
  have hopen : run n ('"' :: (jsonEscape s ++ ['"']) ++ rest) pos { tokens := tokens } =
      run n (jsonEscape s₁ ++ '\\' :: 'v' :: (jsonEscape s₂ ++ '"' :: rest)) (pos + 1)
        { mode := .string pos, tokens := tokens } := by
    show run n ((jsonEscape s ++ ['"']) ++ rest) (pos + 1) { mode := .string pos, tokens := tokens } = _
    rw [hs, jsonEscape, List.flatMap_append, List.flatMap_cons]
    simp [jsonEscape, escapeChar]
  rw [hopen, run_jsonEscape hs₁]
  rfl

/-! ### Primitives -/

/-- A character that begins a primitive and goes on with one. -/
def Bare (c : Char) : Prop :=
  ∀ (n pos : Nat) (tokens : List JsmnToken),
    (∀ start, step n pos c { mode := .primitive start, tokens := tokens } =
      .ok { mode := .primitive start, tokens := tokens }) ∧
    step n pos c { tokens := tokens } = .ok { mode := .primitive pos, tokens := tokens }

/-- A digit or a sign. -/
def digital (c : Char) : Bool := c ∈ "-0123456789".toList

theorem bare_of_digital {c : Char} (h : digital c = true) : Bare c := by
  intro n pos tokens
  have hc : c ∈ ['-', '0', '1', '2', '3', '4', '5', '6', '7', '8', '9'] := by simpa [digital] using h
  simp only [List.mem_cons, List.not_mem_nil, or_false] at hc
  rcases hc with rfl | rfl | rfl | rfl | rfl | rfl | rfl | rfl | rfl | rfl | rfl <;> exact ⟨fun _ => rfl, rfl⟩

theorem run_bare {cs : List Char} (h : ∀ c ∈ cs, Bare c) (n start pos : Nat) (tokens : List JsmnToken)
    (rest : List Char) :
    run n (cs ++ rest) pos { mode := .primitive start, tokens := tokens } =
      run n rest (pos + cs.length) { mode := .primitive start, tokens := tokens } := by
  induction cs generalizing pos with
  | nil => rfl
  | cons c cs ih =>
    obtain ⟨hc, hcs⟩ := List.forall_mem_cons.mp h
    show (step n pos c { mode := .primitive start, tokens := tokens }).bind (run n (cs ++ rest) (pos + 1)) = _
    rw [(hc n pos tokens).1 start, List.length_cons, Nat.add_comm cs.length, ← Nat.add_assoc]
    exact ih hcs (pos + 1)

theorem reads_bare {cs : List Char} (h : ∀ c ∈ cs, Bare c) (hne : cs ≠ []) (pos : Nat) {c : Char}
    (hc : delimits c = true) (rest : List Char) :
    Reads cs pos [{ type := .primitive, start := pos, stop := (pos + cs.length : Nat) }] (c :: rest) := by
  cases cs with
  | nil => exact absurd rfl hne
  | cons c₀ cs =>
    obtain ⟨hc₀, hcs⟩ := List.forall_mem_cons.mp h
    refine ⟨by simp, ?_⟩
    intro n tokens hn
    simp only [List.length_cons] at hn
    have hbegin : run n (c₀ :: cs ++ c :: rest) pos { tokens := tokens } =
        run n (c :: rest) (pos + (c₀ :: cs).length) { mode := .primitive pos, tokens := tokens } := by
      show (step n pos c₀ { tokens := tokens }).bind (run n (cs ++ c :: rest) (pos + 1)) = _
      rw [(hc₀ n pos tokens).2, List.length_cons, Nat.add_comm cs.length, ← Nat.add_assoc]
      exact run_bare hcs n pos (pos + 1) tokens (c :: rest)
    have hend : ∀ pos', step n pos' c { mode := .primitive pos, tokens := tokens } =
        step n pos' c { tokens := { type := .primitive, start := pos, stop := pos' } :: tokens } := by
      intro pos'
      simp only [step, hc, if_true]
      rw [alloc, if_neg (by omega)]
      rfl
    rw [hbegin, run, hend]
    rfl

/-! ### Containers -/

def Closed (ts : List JsmnToken) : Prop := ∀ t ∈ ts, t.stop ≠ -1

theorem close_closed {type : JsmnType} {start : Nat} {stop : Int} {ts tokens : List JsmnToken} (h : Closed ts) :
    close type stop (ts ++ { type := type, start := start, stop := -1 } :: tokens) =
      .ok (ts ++ { type := type, start := start, stop := stop } :: tokens) := by
  induction ts with
  | nil => simp [close]
  | cons t ts ih =>
    obtain ⟨ht, hts⟩ := List.forall_mem_cons.mp h
    rw [List.cons_append, close, if_neg ht, ih hts]
    rfl

theorem reads_container {type : JsmnType} {first last : Char}
    (hfirst : ∀ n pos tokens, step n pos first { tokens := tokens } = alloc n { type := type, start := pos, stop := -1 } tokens)
    (hlast : ∀ n pos tokens, step n pos last { tokens := tokens } =
      (close type (pos + 1) tokens).map fun tokens => ({ tokens } : Parser)) {cs rest : List Char} {pos : Nat}
    {ts : List JsmnToken} (h : Reads cs (pos + 1) ts (last :: rest)) (hts : Closed ts) :
    Reads (first :: (cs ++ [last])) pos
      ({ type := type, start := pos, stop := (pos + cs.length + 2 : Nat) } :: ts) rest := by
  refine ⟨?_, ?_⟩
  · have hlen := h.1
    simp only [List.length_cons, List.length_append, List.length_nil]
    omega
  · intro n tokens hn
    simp only [List.length_cons, List.length_append, List.length_nil] at hn
    have hopen : run n (first :: (cs ++ [last]) ++ rest) pos { tokens := tokens } =
        run n (cs ++ last :: rest) (pos + 1) { tokens := { type := type, start := pos, stop := -1 } :: tokens } := by
      show (step n pos first { tokens := tokens }).bind (run n ((cs ++ [last]) ++ rest) (pos + 1)) = _
      rw [hfirst, alloc, if_neg (by omega), List.append_assoc]
      rfl
    have hclosed : Closed ts.reverse := fun t ht => hts t (List.mem_reverse.mp ht)
    have hstop : ((pos + 1 + cs.length : Nat) : Int) + 1 = (pos + cs.length + 2 : Nat) := by omega
    have hpos : pos + 1 + cs.length + 1 = pos + (first :: (cs ++ [last])).length := by simp; omega
    rw [hopen, h.2 n _ (by simp; omega), run, hlast, close_closed hclosed, hstop]
    simp only [Except.map, Except.bind, hpos, List.reverse_cons, List.append_assoc]
    rfl

theorem fails_container {type : JsmnType} {first : Char} (last : List Char)
    (hfirst : ∀ n pos tokens, step n pos first { tokens := tokens } = alloc n { type := type, start := pos, stop := -1 } tokens)
    {cs rest : List Char} {pos : Nat} (h : Fails cs (pos + 1) (last ++ rest)) : Fails (first :: (cs ++ last)) pos rest := by
  intro n tokens hn
  simp only [List.length_cons, List.length_append] at hn
  have hopen : run n (first :: (cs ++ last) ++ rest) pos { tokens := tokens } =
      run n (cs ++ (last ++ rest)) (pos + 1) { tokens := { type := type, start := pos, stop := -1 } :: tokens } := by
    show (step n pos first { tokens := tokens }).bind (run n ((cs ++ last) ++ rest) (pos + 1)) = _
    rw [hfirst, alloc, if_neg (by omega), List.append_assoc]
    rfl
  rw [hopen]
  exact h n _ (by simp; omega)

end Jsmn

namespace Data

/-- The attempts come to the result that enough tokens give. -/
theorem parseTokens_eq {text : List Char} {r : Except JsmnError (List JsmnToken)}
    (h : Jsmn.parse text.length (cString text) = r) (hr : r ≠ .error .nomem) : parseTokens text [8, 4, 2, 1] = r := by
  have hless : ∀ frac, Jsmn.parse (text.length / frac) (cString text) = .error .nomem ∨
      Jsmn.parse (text.length / frac) (cString text) = r := by
    intro frac
    by_cases hmem : Jsmn.parse (text.length / frac) (cString text) = .error .nomem
    · exact .inl hmem
    · exact .inr ((Jsmn.parse_mono (Nat.div_le_self _ _) hmem).symm.trans h)
  have hagain : ∀ frac frac' fracs, parseTokens text (frac' :: fracs) = r → parseTokens text (frac :: frac' :: fracs) = r := by
    intro frac frac' fracs hrest
    rw [parseTokens]
    · rcases hless frac with hnomem | heq
      · rw [hnomem]
        exact hrest
      · rw [heq]
        match r, hr with
        | .ok tokens, _ => rfl
        | .error .inval, _ => rfl
        | .error .part, _ => rfl
        | .error .nomem, hr => exact absurd rfl hr
    · simp
  refine hagain 8 4 _ (hagain 4 2 _ (hagain 2 1 _ ?_))
  rw [parseTokens, Nat.div_one]
  exact h

end Data

end Uscxml
