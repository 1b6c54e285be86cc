import Uscxml.Messages

/-!
# `escape` and `unescape`

The texts that the generators put between quotes in the code they write, and what is read back from them.
-/

namespace Uscxml.Convenience

/-- The `switch` of `escape`: what stands behind the backslash. -/
def escapeCode : Char → Option Char
  | '\\' => some '\\'
  | '\x00' => some '0'
  | '"' => some '"'
  | '\x07' => some 'a'
  | '\x08' => some 'b'
  | '\x0c' => some 'f'
  | '\n' => some 'n'
  | '\r' => some 'r'
  | '\t' => some 't'
  | '\x0b' => some 'v'
  | _ => none

def escapeChar (c : Char) : List Char :=
  match escapeCode c with
  | some code => ['\\', code]
  | none => [c]

def escape (a : List Char) : List Char := a.flatMap escapeChar

/-- The `switch` of `unescape`. -/
def unescapeCode : Char → Option Char
  | '\\' => some '\\'
  | '0' => some '\x00'
  | '"' => some '"'
  | 'a' => some '\x07'
  | 'b' => some '\x08'
  | 'f' => some '\x0c'
  | 'n' => some '\n'
  | 'r' => some '\r'
  | 't' => some '\t'
  | 'v' => some '\x0b'
  | _ => none

/-- A backslash takes the next character with it, also one that stands for nothing, and stays itself then. -/
def unescape : List Char → List Char
  | [] => []
  | [c] => [c]
  | c :: code :: rest =>
    if c = '\\' then (unescapeCode code).getD c :: unescape rest else c :: unescape (code :: rest)

/-- The characters of a text in quotes that are not part of an escape sequence. -/
def rawChars : List Char → List Char
  | [] => []
  | [c] => [c]
  | c :: code :: rest => if c = '\\' then rawChars rest else c :: rawChars (code :: rest)

theorem unescapeCode_of_escapeCode {c code : Char} (h : escapeCode c = some code) : unescapeCode code = some c := by
  unfold escapeCode at h
  split at h <;> cases h <;> rfl

theorem ne_backslash_of_escapeCode {c : Char} (h : escapeCode c = none) : c ≠ '\\' := by
  rintro rfl
  cases h

theorem unescape_cons {c : Char} (hc : c ≠ '\\') (rest : List Char) : unescape (c :: rest) = c :: unescape rest := by
  cases rest with
  | nil => rfl
  | cons code rest => rw [unescape, if_neg hc]

theorem rawChars_cons {c : Char} (hc : c ≠ '\\') (rest : List Char) : rawChars (c :: rest) = c :: rawChars rest := by
  cases rest with
  | nil => rfl
  | cons code rest => rw [rawChars, if_neg hc]

theorem unescape_escapeChar (c : Char) (rest : List Char) : unescape (escapeChar c ++ rest) = c :: unescape rest := by
  rw [escapeChar]
  cases hcode : escapeCode c with
  | some code =>
    change unescape ('\\' :: code :: rest) = _
    rw [unescape, if_pos rfl, unescapeCode_of_escapeCode hcode]
    rfl
  | none => exact unescape_cons (ne_backslash_of_escapeCode hcode) rest

theorem rawChars_escapeChar (c : Char) (rest : List Char) :
    rawChars (escapeChar c ++ rest) = (if escapeCode c = none then [c] else []) ++ rawChars rest := by
  rw [escapeChar]
  cases hcode : escapeCode c with
  | some code =>
    change rawChars ('\\' :: code :: rest) = _
    rw [rawChars, if_pos rfl, if_neg (Option.some_ne_none code)]
    rfl
  | none => exact rawChars_cons (ne_backslash_of_escapeCode hcode) rest

/-- No character that stands for another one has to be escaped, but for the two that stand for themselves. -/
theorem eq_of_mem_escapeChar {c x : Char} (hx : x ∈ escapeChar c) (h : escapeCode x ≠ none) : x = '\\' ∨ x = '"' := by
  rw [escapeChar] at hx
  cases hcode : escapeCode c with
  | some code =>
    rw [hcode] at hx
    rcases List.mem_cons.mp hx with rfl | hx
    · exact Or.inl rfl
    · obtain rfl := List.mem_singleton.mp hx
      unfold escapeCode at hcode
      split at hcode <;> cases hcode <;> first | exact Or.inl rfl | exact Or.inr rfl | exact absurd rfl h
  | none =>
    rw [hcode] at hx
    obtain rfl := List.mem_singleton.mp hx
    exact absurd hcode h

/-- A text is read back as it was. Outside of escape sequences no character is left that is escaped, and of these none but
the backslash and the quote stands anywhere in the result. -/
theorem unescape_escape (s : List Char) :
    unescape (escape s) = s ∧ (∀ c ∈ rawChars (escape s), escapeCode c = none) ∧
      ∀ c ∈ escape s, escapeCode c ≠ none → c = '\\' ∨ c = '"' := by
  induction s with
  | nil => exact ⟨rfl, List.forall_mem_nil _, List.forall_mem_nil _⟩
  | cons c s ih =>
    obtain ⟨hback, hraw, hcodes⟩ := ih
    have hcons : escape (c :: s) = escapeChar c ++ escape s := List.flatMap_cons
    refine ⟨?_, ?_, ?_⟩
    · rw [hcons, unescape_escapeChar, hback]
    · rw [hcons, rawChars_escapeChar]
      refine List.forall_mem_append.mpr ⟨?_, hraw⟩
      intro x hx
      split at hx
      · rename_i hnone
        exact List.mem_singleton.mp hx ▸ hnone
      · cases hx
    · rw [hcons]
      exact List.forall_mem_append.mpr ⟨fun x => eq_of_mem_escapeChar, hcodes⟩

end Uscxml.Convenience
