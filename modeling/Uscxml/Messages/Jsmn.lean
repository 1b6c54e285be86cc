import Mathlib.Data.List.Basic
import Mathlib.Data.List.Induction

/-!
# The vendored tokenizer

`contrib/src/jsmn/jsmn.c` as it is compiled here: not strict and without links to parents. The text is read character
by character; what the parser is in the middle of is kept with the position where that began. The tokens are kept with
the last one first. `toksuper` and the sizes of tokens are left out, for nothing reads them.
-/

namespace Uscxml

inductive JsmnType where
  | primitive | object | array | string
  deriving DecidableEq, Repr

inductive JsmnError where
  | nomem | inval | part
  deriving DecidableEq, Repr

/-- `jsmntok_t`; the end of a container is -1 as long as it is open. -/
structure JsmnToken where
  type : JsmnType
  start : Nat
  stop : Int
  deriving DecidableEq, Repr

namespace Jsmn

/-- In `jsmn_parse`, in `jsmn_parse_string` since `start`, there behind a backslash, or in `jsmn_parse_primitive` since
`start`. -/
inductive Mode where
  | value
  | string (start : Nat)
  | escaped (start : Nat)
  | primitive (start : Nat)
  deriving DecidableEq, Repr

structure Parser where
  mode : Mode := .value
  tokens : List JsmnToken := []
  deriving DecidableEq, Repr

def alloc (numTokens : Nat) (token : JsmnToken) (tokens : List JsmnToken) : Except JsmnError Parser :=
  if numTokens ≤ tokens.length then .error .nomem else .ok { tokens := token :: tokens }

/-- The last open token is closed, if it is of the right type. -/
def close (type : JsmnType) (stop : Int) : List JsmnToken → Except JsmnError (List JsmnToken)
  | [] => .error .inval
  | token :: tokens =>
    if token.stop = -1 then
      if token.type ≠ type then .error .inval else .ok ({ token with stop := stop } :: tokens)
    else (close type stop tokens).map (token :: ·)

/-- What ends a primitive. -/
def delimits (c : Char) : Bool := c ∈ [':', '\t', '\r', '\n', ' ', ',', ']', '}']

/-- What may follow a backslash. -/
def escapable (c : Char) : Bool := c ∈ ['"', '/', '\\', 'b', 'f', 'r', 'n', 't', 'u']

def primitive (start : Nat) (c : Char) (tokens : List JsmnToken) : Except JsmnError Parser :=
  if c.toNat < 32 ∨ 127 ≤ c.toNat then .error .inval else .ok { mode := .primitive start, tokens }

/-- A character outside of strings and primitives. -/
def value (numTokens pos : Nat) (c : Char) (tokens : List JsmnToken) : Except JsmnError Parser :=
  if c = '\x7b' then alloc numTokens { type := .object, start := pos, stop := -1 } tokens
  else if c = '[' then alloc numTokens { type := .array, start := pos, stop := -1 } tokens
  else if c = '\x7d' then (close .object (pos + 1) tokens).map fun tokens => { tokens }
  else if c = ']' then (close .array (pos + 1) tokens).map fun tokens => { tokens }
  else if c = '"' then .ok { mode := .string pos, tokens }
  else if c ∈ ['\t', '\r', '\n', ':', ',', ' '] then .ok { tokens }
  else primitive pos c tokens

def step (numTokens pos : Nat) (c : Char) (p : Parser) : Except JsmnError Parser :=
  match p.mode with
  | .value => value numTokens pos c p.tokens
  | .string start =>
    if c = '"' then alloc numTokens { type := .string, start := start + 1, stop := pos } p.tokens
    else if c = '\\' then .ok { p with mode := .escaped start }
    else .ok p
  | .escaped start => if escapable c then .ok { p with mode := .string start } else .error .inval
  | .primitive start =>
    if delimits c then
      (alloc numTokens { type := .primitive, start := start, stop := pos } p.tokens).bind fun p =>
        value numTokens pos c p.tokens
    else primitive start c p.tokens

def finish (numTokens pos : Nat) (p : Parser) : Except JsmnError (List JsmnToken) :=
  let complete (tokens : List JsmnToken) : Except JsmnError (List JsmnToken) :=
    if tokens.any (·.stop = -1) then .error .part else .ok tokens
  match p.mode with
  | .value => complete p.tokens
  | .string _ => .error .part
  | .escaped _ => .error .inval
  | .primitive start =>
    (alloc numTokens { type := .primitive, start := start, stop := pos } p.tokens).bind fun p => complete p.tokens

def run (numTokens : Nat) : List Char → Nat → Parser → Except JsmnError (List JsmnToken)
  | [], pos, p => finish numTokens pos p
  | c :: rest, pos, p => (step numTokens pos c p).bind (run numTokens rest (pos + 1))

/-- `jsmn_parse`, with the tokens in the order of the text. -/
def parse (numTokens : Nat) (js : List Char) : Except JsmnError (List JsmnToken) :=
  (run numTokens js 0 {}).map List.reverse

/-! ### Where tokens end -/

theorem of_bind_eq_ok {ε α β : Type} {x : Except ε α} {f : α → Except ε β} {b : β} (h : x.bind f = .ok b) :
    ∃ a, x = .ok a ∧ f a = .ok b := by
  cases x with
  | error e => cases h
  | ok a => exact ⟨a, rfl, h⟩

theorem of_map_eq_ok {ε α β : Type} {x : Except ε α} {f : α → β} {b : β} (h : x.map f = .ok b) :
    ∃ a, x = .ok a ∧ f a = b := by
  cases x with
  | error e => cases h
  | ok a => exact ⟨a, rfl, Except.ok.inj h⟩

/-- All tokens end before a position. -/
def EndBy (pos : Nat) (tokens : List JsmnToken) : Prop := ∀ t ∈ tokens, t.stop ≤ pos

theorem EndBy.mono {pos pos' : Nat} {tokens : List JsmnToken} (h : EndBy pos tokens) (hpos : pos ≤ pos') :
    EndBy pos' tokens := by
  intro t ht
  have hstop : t.stop ≤ pos := h t ht
  omega

theorem alloc_ok {numTokens : Nat} {token : JsmnToken} {tokens : List JsmnToken} {p : Parser}
    (h : alloc numTokens token tokens = .ok p) : p = { tokens := token :: tokens } := by
  rw [alloc] at h
  split at h
  · cases h
  · exact (Except.ok.inj h).symm

theorem EndBy.alloc {numTokens pos : Nat} {token : JsmnToken} {tokens : List JsmnToken} {p : Parser}
    (h : EndBy pos tokens) (ht : token.stop ≤ pos) (hp : alloc numTokens token tokens = .ok p) : EndBy pos p.tokens := by
  rw [alloc_ok hp]
  exact List.forall_mem_cons.mpr ⟨ht, h⟩

theorem EndBy.close {type : JsmnType} {pos : Nat} {tokens tokens' : List JsmnToken} (h : EndBy pos tokens)
    (hc : close type (pos + 1) tokens = .ok tokens') : EndBy (pos + 1) tokens' := by
  induction tokens generalizing tokens' with
  | nil => cases hc
  | cons token tokens ih =>
    obtain ⟨htoken, htokens⟩ := List.forall_mem_cons.mp h
    rw [Jsmn.close] at hc
    split at hc
    · split at hc
      · cases hc
      · obtain rfl := Except.ok.inj hc
        exact List.forall_mem_cons.mpr ⟨by simp, EndBy.mono htokens (Nat.le_succ pos)⟩
    · obtain ⟨rest, hrest, rfl⟩ := of_map_eq_ok hc
      have htoken : token.stop ≤ pos := htoken
      refine List.forall_mem_cons.mpr ⟨?_, ih htokens hrest⟩
      push_cast
      omega

theorem EndBy.primitive {start pos : Nat} {c : Char} {tokens : List JsmnToken} {p : Parser} (h : EndBy pos tokens)
    (hp : primitive start c tokens = .ok p) : EndBy pos p.tokens := by
  rw [Jsmn.primitive] at hp
  split at hp
  · cases hp
  · obtain rfl := Except.ok.inj hp
    exact h

theorem EndBy.value {numTokens pos : Nat} {c : Char} {tokens : List JsmnToken} {p : Parser} (h : EndBy pos tokens)
    (hp : value numTokens pos c tokens = .ok p) : EndBy (pos + 1) p.tokens := by
  have hlater := h.mono (Nat.le_succ pos)
  rw [Jsmn.value] at hp
  split at hp
  · exact hlater.alloc (by simp; omega) hp
  split at hp
  · exact hlater.alloc (by simp; omega) hp
  split at hp
  · obtain ⟨tokens', hc, rfl⟩ := of_map_eq_ok hp
    exact h.close hc
  split at hp
  · obtain ⟨tokens', hc, rfl⟩ := of_map_eq_ok hp
    exact h.close hc
  split at hp
  · obtain rfl := Except.ok.inj hp
    exact hlater
  split at hp
  · obtain rfl := Except.ok.inj hp
    exact hlater
  · exact hlater.primitive hp

theorem EndBy.step {numTokens pos : Nat} {c : Char} {p p' : Parser} (h : EndBy pos p.tokens)
    (hp : step numTokens pos c p = .ok p') : EndBy (pos + 1) p'.tokens := by
  have hlater := h.mono (Nat.le_succ pos)
  rw [Jsmn.step] at hp
  cases hm : p.mode with
  | value =>
    rw [hm] at hp
    exact h.value hp
  | string start =>
    rw [hm] at hp
    simp only at hp
    split at hp
    · exact hlater.alloc (by push_cast; omega) hp
    · split at hp
      · obtain rfl := Except.ok.inj hp
        exact hlater
      · obtain rfl := Except.ok.inj hp
        exact hlater
  | escaped start =>
    rw [hm] at hp
    simp only at hp
    split at hp
    · obtain rfl := Except.ok.inj hp
      exact hlater
    · cases hp
  | primitive start =>
    rw [hm] at hp
    simp only at hp
    split at hp
    · obtain ⟨p₁, ha, hp⟩ := of_bind_eq_ok hp
      exact (h.alloc (by simp) ha).value hp
    · exact hlater.primitive hp

theorem EndBy.finish {numTokens pos : Nat} {p : Parser} {tokens : List JsmnToken} (h : EndBy pos p.tokens)
    (hp : finish numTokens pos p = .ok tokens) : EndBy pos tokens := by
  have hcomplete : ∀ {l tokens : List JsmnToken}, EndBy pos l →
      (if l.any (·.stop = -1) then Except.error JsmnError.part else .ok l) = .ok tokens → EndBy pos tokens := by
    intro l tokens hl hp
    split at hp
    · cases hp
    · obtain rfl := Except.ok.inj hp
      exact hl
  rw [Jsmn.finish] at hp
  cases hm : p.mode with
  | value =>
    rw [hm] at hp
    exact hcomplete h hp
  | string start =>
    rw [hm] at hp
    cases hp
  | escaped start =>
    rw [hm] at hp
    cases hp
  | primitive start =>
    rw [hm] at hp
    obtain ⟨p₁, ha, hp⟩ := of_bind_eq_ok hp
    exact hcomplete (h.alloc (by simp) ha) hp

theorem EndBy.run {numTokens pos : Nat} {js : List Char} {p : Parser} {tokens : List JsmnToken} (h : EndBy pos p.tokens)
    (hp : run numTokens js pos p = .ok tokens) : EndBy (pos + js.length) tokens := by
  induction js generalizing pos p with
  | nil => exact h.finish hp
  | cons c js ih =>
    rw [Jsmn.run] at hp
    obtain ⟨p', hs, hp⟩ := of_bind_eq_ok hp
    have hend := ih (h.step hs) hp
    rw [List.length_cons]
    exact hend.mono (by omega)

theorem parse_endBy {numTokens : Nat} {js : List Char} {tokens : List JsmnToken} (h : parse numTokens js = .ok tokens) :
    EndBy js.length tokens := by
  rw [parse] at h
  obtain ⟨l, hr, rfl⟩ := of_map_eq_ok h
  have hend : EndBy (0 + js.length) l := EndBy.run (p := {}) (fun _ ht => nomatch ht) hr
  intro t ht
  simpa using hend t (List.mem_reverse.mp ht)

end Jsmn

end Uscxml
