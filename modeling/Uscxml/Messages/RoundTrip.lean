import Mathlib.Data.List.TakeWhile
import Uscxml.Messages.TokenLoop
import Uscxml.Messages.Tokens

/-!
# Writing and reading a `Data`

A `Data` of compounds, arrays, texts and integers is written and read again. What comes back is exact but for the
indices of arrays, which are counted through the whole text, for vertical tabs, which the tokenizer does not accept, and
for a text that stands alone, which keeps its quotes.
-/

namespace Uscxml

namespace Data

/-! ### The values in question -/

def isInteger : List Char → Bool
  | '-' :: digits => digits ≠ [] && digits.all fun c => c ∈ "0123456789".toList
  | digits => digits ≠ [] && digits.all fun c => c ∈ "0123456789".toList

/-- Built from compounds and arrays that are not empty, verbatim texts and integers to be interpreted. -/
inductive Plain : Data → Prop where
  | text (s : String) (h : '\x00' ∉ s.toList) : Plain (mk s true [] [])
  | integer (s : String) (h : isInteger s.toList = true) : Plain (mk s false [] [])
  | compound (verbatim : Bool) (members : List (String × Data)) (hne : members ≠ [])
      (hkeys : ∀ m ∈ members, m.1 ≠ "" ∧ '\x00' ∉ m.1.toList) (hsorted : members.Pairwise (·.1 < ·.1))
      (h : ∀ m ∈ members, Plain m.2) : Plain (mk "" verbatim members [])
  | array (verbatim : Bool) (items : List (Nat × Data)) (hne : items ≠ [])
      (hkeys : items.map (·.1) = List.range items.length) (h : ∀ i ∈ items, Plain i.2) : Plain (mk "" verbatim [] items)

mutual

def parts : Data → List Data
  | mk atom verbatim compound array => mk atom verbatim compound array :: (memberParts compound ++ itemParts array)

def memberParts : List (String × Data) → List Data
  | [] => []
  | (_, d) :: rest => parts d ++ memberParts rest

def itemParts : List (Nat × Data) → List Data
  | [] => []
  | (_, d) :: rest => parts d ++ itemParts rest

end

mutual

/-- A `Data` without the type tags of its compounds and arrays. -/
def untag : Data → Data
  | mk atom verbatim compound array =>
    mk atom (verbatim && compound.isEmpty && array.isEmpty) (untagMembers compound) (untagItems array)

def untagMembers : List (String × Data) → List (String × Data)
  | [] => []
  | (key, d) :: rest => (key, untag d) :: untagMembers rest

def untagItems : List (Nat × Data) → List (Nat × Data)
  | [] => []
  | (index, d) :: rest => (index, untag d) :: untagItems rest

end

def untabbed (d : Data) : Bool :=
  d.parts.all fun x => decide ('\x0b' ∉ x.atom.toList) && x.compound.all fun m => decide ('\x0b' ∉ m.1.toList)

def arrays (d : Data) : Nat := d.parts.countP fun x => 0 < x.array.length

/-- What comes back is what was written, up to the type tags of compounds and arrays. -/
def RoundTrips (d : Data) : Prop := ∃ d', fromJSON (toJSON d) = .ok d' ∧ untag d' = untag d

mutual

/-- What is read again: indices are counted from `index` on, and the next one is given with the value. -/
def renumber (index : Nat) : Data → Data × Nat
  | mk atom verbatim compound array =>
    if 0 < compound.length then
      (mk atom false (renumberMembers index compound).1 [], (renumberMembers index compound).2)
    else if 0 < array.length then (mk atom false [] (renumberItems index array).1, (renumberItems index array).2)
    else (mk atom verbatim [] [], index)

def renumberMembers (index : Nat) : List (String × Data) → List (String × Data) × Nat
  | [] => ([], index)
  | (key, d) :: rest =>
    ((key, (renumber index d).1) :: (renumberMembers (renumber index d).2 rest).1,
      (renumberMembers (renumber index d).2 rest).2)

def renumberItems (index : Nat) : List (Nat × Data) → List (Nat × Data) × Nat
  | [] => ([], index)
  | (_, d) :: rest =>
    ((index, (renumber (index + 1) d).1) :: (renumberItems (renumber (index + 1) d).2 rest).1,
      (renumberItems (renumber (index + 1) d).2 rest).2)

end

open Jsmn (Reads Fails Closed blank delimits)

/-! ### The written text -/

/-- An array is written on a line of its own. -/
def leadText (n : Nat) (d : Data) : List Char := if d.compound.length = 0 ∧ 0 < d.array.length then '\n' :: indent n else []

/-- What is written of a value from its first character on. -/
def coreText (n : Nat) (d : Data) : List Char :=
  if d.compound.length = 0 ∧ 0 < d.array.length then '[' :: (itemsToText n [] d.array ++ [']']) else toText n d

theorem toText_eq (n : Nat) (d : Data) : toText n d = leadText n d ++ coreText n d := by
  obtain ⟨atom, verbatim, members, items⟩ := d
  rw [leadText, coreText]
  by_cases h : (mk atom verbatim members items).compound.length = 0 ∧ 0 < (mk atom verbatim members items).array.length
  · have hmembers : ¬ 0 < members.length := by
      have : members.length = 0 := h.1
      omega
    have hitems : 0 < items.length := h.2
    rw [if_pos h, if_pos h, toText, if_neg hmembers, if_pos hitems]
    rfl
  · rw [if_neg h, if_neg h]
    rfl

theorem coreText_text (n : Nat) (s : String) : coreText n (mk s true [] []) = '"' :: (jsonEscape s.toList ++ ['"']) := by
  have hcore : coreText n (mk s true [] []) = toText n (mk s true [] []) := rfl
  rw [hcore, toText]
  by_cases hs : s = ""
  · subst hs
    rfl
  · simp [hs]

theorem coreText_integer (n : Nat) {s : String} (h : s ≠ "") : coreText n (mk s false [] []) = s.toList := by
  have hcore : coreText n (mk s false [] []) = toText n (mk s false [] []) := rfl
  rw [hcore, toText]
  simp [h]

theorem coreText_compound (n : Nat) (verbatim : Bool) {members : List (String × Data)} (h : members ≠ []) :
    coreText n (mk "" verbatim members []) =
      '\x7b' :: (membersToText n (longestKey members) [] members ++ '\n' :: (indent n ++ ['\x7d'])) := by
  have hcore : coreText n (mk "" verbatim members []) = toText n (mk "" verbatim members []) := by
    rw [coreText, if_neg (by simp [Data.array])]
  rw [hcore, toText, if_pos (List.length_pos_iff.mpr h)]

theorem coreText_array (n : Nat) (verbatim : Bool) {items : List (Nat × Data)} (h : items ≠ []) :
    coreText n (mk "" verbatim [] items) = '[' :: (itemsToText n [] items ++ [']']) := by
  rw [coreText, if_pos ⟨rfl, List.length_pos_iff.mpr h⟩]
  rfl

def keyLead (n : Nat) (separator : List Char) : List Char := separator ++ '\n' :: (indent n ++ [' ', ' '])

/-- The colon and the blanks before a member. -/
def valueLead (n longest : Nat) (key : String) (d : Data) : List Char :=
  ':' :: ' ' :: (List.replicate (longest - key.length) ' ' ++ leadText (n + 1) d)

theorem membersToText_cons (n longest : Nat) (separator : List Char) (key : String) (d : Data)
    (rest : List (String × Data)) :
    membersToText n longest separator ((key, d) :: rest) =
      keyLead n separator ++ ('"' :: (jsonEscape key.toList ++ ['"']) ++ (valueLead n longest key d ++
        (coreText (n + 1) d ++ membersToText n longest [',', ' '] rest))) := by
  rw [membersToText, toText_eq, keyLead, valueLead]
  simp only [List.append_assoc, List.cons_append, List.nil_append]

theorem itemsToText_cons (n : Nat) (separator : List Char) (index : Nat) (d : Data) (rest : List (Nat × Data)) :
    itemsToText n separator ((index, d) :: rest) =
      (separator ++ leadText (n + 1) d) ++ (coreText (n + 1) d ++ itemsToText n [',', ' '] rest) := by
  rw [itemsToText, toText_eq]
  simp only [List.append_assoc]

theorem blank_indent (n : Nat) : ∀ c ∈ indent n, blank c = true := by
  intro c hc
  rw [List.eq_of_mem_replicate hc]
  rfl

theorem blank_leadText (n : Nat) (d : Data) : ∀ c ∈ leadText n d, blank c = true := by
  rw [leadText]
  split
  · exact List.forall_mem_cons.mpr ⟨rfl, blank_indent n⟩
  · simp

theorem blank_keyLead (n : Nat) {separator : List Char} (h : ∀ c ∈ separator, blank c = true) :
    ∀ c ∈ keyLead n separator, blank c = true := by
  refine List.forall_mem_append.mpr ⟨h, List.forall_mem_cons.mpr ⟨rfl, List.forall_mem_append.mpr ⟨blank_indent n, ?_⟩⟩⟩
  simp [blank]

theorem blank_valueLead (n longest : Nat) (key : String) (d : Data) : ∀ c ∈ valueLead n longest key d, blank c = true := by
  refine List.forall_mem_cons.mpr ⟨rfl, List.forall_mem_cons.mpr ⟨rfl, List.forall_mem_append.mpr ⟨?_, blank_leadText _ d⟩⟩⟩
  intro c hc
  rw [List.eq_of_mem_replicate hc]
  rfl

theorem blank_separator : ∀ c ∈ [',', ' '], blank c = true := by simp [blank]

/-- The text behind a value begins with a character that ends a primitive. -/
def Delimited (post : List Char) : Prop := ∃ c post', post = c :: post' ∧ delimits c = true

theorem delimited_members (n longest : Nat) {post : List Char} (h : Delimited post) (rest : List (String × Data)) :
    Delimited (membersToText n longest [',', ' '] rest ++ post) := by
  cases rest with
  | nil => exact h
  | cons m rest =>
    obtain ⟨key, d⟩ := m
    rw [membersToText]
    exact ⟨',', _, rfl, rfl⟩

theorem delimited_items (n : Nat) {post : List Char} (h : Delimited post) (rest : List (Nat × Data)) :
    Delimited (itemsToText n [',', ' '] rest ++ post) := by
  cases rest with
  | nil => exact h
  | cons i rest =>
    obtain ⟨index, d⟩ := i
    rw [itemsToText]
    exact ⟨',', _, rfl, rfl⟩

/-! ### Escaping -/

theorem jsonUnescape_escapeChar {c : Char} (h : c ≠ '\x0b') (rest : List Char) :
    jsonUnescape (escapeChar c ++ rest) = c :: jsonUnescape rest := by
  rw [escapeChar]
  split
  · subst_vars
    rfl
  split
  · subst_vars
    rfl
  split
  · subst_vars
    rfl
  split
  · subst_vars
    rfl
  split
  · subst_vars
    rfl
  split
  · subst_vars
    rfl
  split
  · subst_vars
    rfl
  · rename_i hback
    rw [List.singleton_append, jsonUnescape]
    · intro h
      exact absurd h hback
    · intro d l h
      exact absurd h hback

theorem jsonUnescape_jsonEscape {s : List Char} (h : '\x0b' ∉ s) : jsonUnescape (jsonEscape s) = s := by
  induction s with
  | nil => rfl
  | cons c s ih =>
    rw [List.mem_cons, not_or] at h
    rw [jsonEscape, List.flatMap_cons, jsonUnescape_escapeChar (Ne.symm h.1)]
    exact congrArg (c :: ·) (ih h.2)

theorem substr_middle (pre cs post : List Char) (type : JsmnType) :
    substr (pre ++ (cs ++ post)) { type := type, start := pre.length, stop := (pre.length + cs.length : Nat) } = cs := by
  have hlength : (((pre.length + cs.length : Nat) : Int) - (pre.length : Nat)).toNat = cs.length := by omega
  rw [substr]
  simp only [hlength, List.drop_left, List.take_left]

/-! ### Reading what was written -/

/-- Wherever the value is written, the tokenizer finds tokens that build it again. -/
def Readable (d : Data) : Prop :=
  ∀ (n : Nat) (pre post : List Char), (d.compound = [] → d.array = [] → Delimited post) →
    ∃ token ts, Reads (coreText n d) pre.length (token :: ts) post ∧ Closed (token :: ts) ∧
      (pre.length : Int) < token.stop ∧ token.stop ≤ (pre.length + (coreText n d).length : Nat) ∧
      (d.compound ≠ [] ∨ d.array ≠ [] → token.stop = (pre.length + (coreText n d).length : Nat)) ∧
      ∀ index, Builds (pre ++ (coreText n d ++ post)) index (renumber index d) token.stop (token :: ts)

theorem readable_text {s : String} (h : '\x0b' ∉ s.toList) : Readable (mk s true [] []) := by
  intro n pre post _
  have htext : pre ++ ('"' :: (jsonEscape s.toList ++ ['"']) ++ post) =
      (pre ++ ['"']) ++ (jsonEscape s.toList ++ '"' :: post) := by simp
  have hstart : pre.length + 1 = (pre ++ ['"']).length := by simp
  rw [coreText_text]
  refine ⟨_, [], Jsmn.reads_string h pre.length post, ?_, ?_, ?_, fun h => absurd h (by simp [compound, array]), ?_⟩
  · simp [Closed]
    omega
  · simp only
    omega
  · simp
    omega
  · intro index
    have hsub : jsonUnescape (substr (pre ++ ('"' :: (jsonEscape s.toList ++ ['"']) ++ post))
        { type := .string, start := pre.length + 1, stop := (pre.length + 1 + (jsonEscape s.toList).length : Nat) }) =
          s.toList := by
      rw [htext, hstart, substr_middle, jsonUnescape_jsonEscape h]
    exact builds_atom (.inl rfl) hsub index

theorem isInteger_digital {cs : List Char} (h : isInteger cs = true) : cs ≠ [] ∧ ∀ c ∈ cs, Jsmn.digital c = true := by
  have hdigits : ∀ cs : List Char, (cs.all fun c => c ∈ "0123456789".toList) = true → ∀ c ∈ cs, Jsmn.digital c = true := by
    intro cs hcs c hc
    have hmem := List.all_eq_true.mp hcs c hc
    rw [Jsmn.digital, decide_eq_true_eq]
    exact List.mem_cons_of_mem '-' (of_decide_eq_true hmem)
  cases cs with
  | nil => exact absurd h (by decide)
  | cons c cs =>
    refine ⟨by simp, ?_⟩
    by_cases hc : c = '-'
    · subst hc
      rw [isInteger, Bool.and_eq_true] at h
      exact List.forall_mem_cons.mpr ⟨by decide, hdigits cs h.2⟩
    · rw [isInteger, Bool.and_eq_true] at h
      · exact hdigits (c :: cs) h.2
      · intro digits heq
        exact hc (List.cons.inj heq).1

theorem jsonUnescape_digits {cs : List Char} (h : ∀ c ∈ cs, Jsmn.digital c = true) : jsonUnescape cs = cs := by
  induction cs with
  | nil => rfl
  | cons c cs ih =>
    obtain ⟨hc, hcs⟩ := List.forall_mem_cons.mp h
    have hback : c ≠ '\\' := by
      rintro rfl
      exact absurd hc (by decide)
    rw [jsonUnescape, ih hcs]
    · intro h
      exact absurd h hback
    · intro d l h
      exact absurd h hback

theorem readable_bare {s : String} (hne : s.toList ≠ []) (hbare : ∀ c ∈ s.toList, Jsmn.Bare c)
    (hunescape : jsonUnescape s.toList = s.toList) : Readable (mk s false [] []) := by
  intro n pre post hpost
  obtain ⟨c, post', rfl, hc⟩ := hpost rfl rfl
  have hs : s ≠ "" := by
    rintro rfl
    exact hne rfl
  have hlength := List.length_pos_iff.mpr hne
  rw [coreText_integer n hs]
  refine ⟨_, [], Jsmn.reads_bare hbare hne pre.length hc post', ?_, ?_, ?_, fun h => absurd h (by simp [compound, array]), ?_⟩
  · simp [Closed]
    omega
  · simp only
    omega
  · exact Int.le_refl _
  · intro index
    have hsub : jsonUnescape (substr (pre ++ (s.toList ++ c :: post'))
        { type := .primitive, start := pre.length, stop := (pre.length + s.toList.length : Nat) }) = s.toList := by
      rw [substr_middle, hunescape]
    exact builds_atom (.inr rfl) hsub index

theorem readable_integer {s : String} (h : isInteger s.toList = true) : Readable (mk s false [] []) := by
  obtain ⟨hne, hdigits⟩ := isInteger_digital h
  exact readable_bare hne (fun c hc => Jsmn.bare_of_digital (hdigits c hc)) (jsonUnescape_digits hdigits)

theorem readable_null : Readable (mk "null" false [] []) := by
  refine readable_bare (by decide) ?_ (by decide)
  have hc : ∀ c ∈ ['n', 'u', 'l', 'l'], Jsmn.Bare c := by
    intro c hc
    simp only [List.mem_cons, List.not_mem_nil, or_false] at hc
    intro n pos tokens
    rcases hc with rfl | rfl | rfl | rfl <;> exact ⟨fun _ => rfl, rfl⟩
  exact hc

theorem renumberMembers_keys (index : Nat) (members : List (String × Data)) :
    ∀ y ∈ (renumberMembers index members).1, ∃ m ∈ members, y.1 = m.1 := by
  induction members generalizing index with
  | nil => simp [renumberMembers]
  | cons m members ih =>
    obtain ⟨key, d⟩ := m
    rw [renumberMembers]
    refine List.forall_mem_cons.mpr ⟨⟨_, List.mem_cons_self, rfl⟩, ?_⟩
    intro y hy
    obtain ⟨m, hm, heq⟩ := ih _ y hy
    exact ⟨m, List.mem_cons_of_mem _ hm, heq⟩

def keyToken (pos : Nat) (key : String) : JsmnToken :=
  { type := .string, start := pos + 1, stop := (pos + 1 + (jsonEscape key.toList).length : Nat) }

theorem reads_members {members : List (String × Data)} (h : ∀ m ∈ members, Readable m.2)
    (hkeys : ∀ m ∈ members, '\x0b' ∉ m.1.toList) (hsorted : members.Pairwise (·.1 < ·.1)) (n longest : Nat)
    {separator : List Char} (hseparator : ∀ c ∈ separator, blank c = true) (pre : List Char) {post : List Char}
    (hpost : Delimited post) :
    ∃ ts, Reads (membersToText n longest separator members) pre.length ts post ∧ Closed ts ∧
      ∀ (start stop : Int) (index : Nat), 0 ≤ start → start ≤ pre.length →
        (pre.length + (membersToText n longest separator members).length : Nat) ≤ stop →
        BuildsEntries object (pre ++ (membersToText n longest separator members ++ post)) start stop index
          (renumberMembers index members) ts := by
  induction members generalizing separator pre with
  | nil =>
    rw [membersToText]
    refine ⟨[], Jsmn.reads_nil _ _, by simp [Closed], ?_⟩
    intro start stop index _ hstart hstop
    exact buildsEntries_nil _ _ (by simp at hstop; omega) index
  | cons m members ih =>
    obtain ⟨key, d⟩ := m
    obtain ⟨hd, hmembers⟩ := List.forall_mem_cons.mp h
    obtain ⟨hkey, hkeys⟩ := List.forall_mem_cons.mp hkeys
    obtain ⟨hless, hsorted⟩ := List.pairwise_cons.mp hsorted
    simp only at hd hkey hless
    rw [membersToText_cons]
    generalize hlead : keyLead n separator = lead
    generalize hvlead : valueLead n longest key d = vlead
    generalize hrest : membersToText n longest [',', ' '] members = rest at *
    generalize hquoted : '"' :: (jsonEscape key.toList ++ ['"']) = quoted
    -- The four pieces stand one behind the other.
    have hlength : quoted.length = (jsonEscape key.toList).length + 2 := by simp [← hquoted]
    obtain ⟨token, ts, hreads, hclosed, hstart, hstop, -, hbuilds⟩ := hd (n + 1) (pre ++ (lead ++ (quoted ++ vlead)))
      (rest ++ post) fun _ _ => hrest ▸ delimited_members n longest hpost members
    obtain ⟨ts', hreads', hclosed', hbuilds'⟩ := ih hmembers hkeys hsorted blank_separator
      (pre ++ (lead ++ (quoted ++ (vlead ++ coreText (n + 1) d))))
    rw [hrest] at hreads' hbuilds'
    simp only [List.length_append] at hreads hreads' hstart hstop
    have hkeyReads : Reads quoted (pre.length + lead.length) [keyToken (pre.length + lead.length) key]
        (vlead ++ (coreText (n + 1) d ++ rest) ++ post) := hquoted ▸ Jsmn.reads_string hkey _ _
    refine ⟨keyToken (pre.length + lead.length) key :: (token :: ts ++ ts'), ?_, ?_, ?_⟩
    · have hvalue : Reads (coreText (n + 1) d ++ rest) (pre.length + lead.length + quoted.length + vlead.length)
          (token :: ts ++ ts') post :=
        Reads.append (by simpa only [Nat.add_assoc] using hreads) (by simpa only [Nat.add_assoc] using hreads')
      have hvlead' := (Jsmn.reads_blanks (hvlead ▸ blank_valueLead n longest key d) _ _).append hvalue
      exact (Jsmn.reads_blanks (hlead ▸ blank_keyLead n hseparator) pre.length _).append (hkeyReads.append hvlead')
    · refine List.forall_mem_cons.mpr ⟨?_, List.forall_mem_append.mpr ⟨hclosed, hclosed'⟩⟩
      simp only [keyToken]
      omega
    · intro start stop index hzero hle hge
      simp only [List.length_append] at hge
      have htext : pre ++ (lead ++ (quoted ++ (vlead ++ (coreText (n + 1) d ++ rest))) ++ post) =
          pre ++ (lead ++ (quoted ++ vlead)) ++ (coreText (n + 1) d ++ (rest ++ post)) := by
        simp only [List.append_assoc]
      have htext' : pre ++ (lead ++ (quoted ++ (vlead ++ (coreText (n + 1) d ++ rest))) ++ post) =
          pre ++ (lead ++ (quoted ++ (vlead ++ coreText (n + 1) d))) ++ (rest ++ post) := by
        simp only [List.append_assoc]
      have hkeytext : pre ++ (lead ++ (quoted ++ (vlead ++ (coreText (n + 1) d ++ rest))) ++ post) =
          (pre ++ lead ++ ['"']) ++ (jsonEscape key.toList ++ ('"' :: (vlead ++ (coreText (n + 1) d ++ (rest ++ post))))) := by
        simp [← hquoted]
      have hkeystart : pre.length + lead.length + 1 = (pre ++ lead ++ ['"']).length := by simp; omega
      rw [renumberMembers]
      have hrestBuilds := hbuilds' token.stop stop (renumber index d).2 (by omega)
        (by simp only [List.length_append]; omega) (by simp only [List.length_append]; omega)
      have hopens : OpensSlot object (pre ++ (lead ++ (quoted ++ (vlead ++ (coreText (n + 1) d ++ rest))) ++ post)) start stop
          index index key [keyToken (pre.length + lead.length) key] (token :: ts) := by
        refine opensSlot_object hzero rfl ?_ ?_ ?_ index _
        · simp only [keyToken]
          omega
        · simp only [keyToken]
          omega
        · rw [keyToken, hkeytext, hkeystart, substr_middle, jsonUnescape_jsonEscape hkey]
      refine hopens.cons (htext ▸ hbuilds index) (htext' ▸ hrestBuilds) ?_
      intro y hy
      obtain ⟨m, hm, heq⟩ := renumberMembers_keys _ _ y hy
      rw [heq]
      exact hless m hm

/-! ### Counting arrays -/

def memberArrays (members : List (String × Data)) : Nat := (memberParts members).countP fun x => 0 < x.array.length

def itemArrays (items : List (Nat × Data)) : Nat := (itemParts items).countP fun x => 0 < x.array.length

theorem arrays_atom (atom : String) (verbatim : Bool) : arrays (mk atom verbatim [] []) = 0 := by
  simp [arrays, parts, memberParts, itemParts, Data.array]

theorem arrays_compound (atom : String) (verbatim : Bool) (members : List (String × Data)) :
    arrays (mk atom verbatim members []) = memberArrays members := by
  simp [arrays, parts, itemParts, Data.array, memberArrays]

theorem arrays_array (atom : String) (verbatim : Bool) {items : List (Nat × Data)} (h : items ≠ []) :
    arrays (mk atom verbatim [] items) = itemArrays items + 1 := by
  simp [arrays, parts, memberParts, Data.array, itemArrays, List.length_pos_iff.mpr h]

theorem memberArrays_cons (key : String) (d : Data) (rest : List (String × Data)) :
    memberArrays ((key, d) :: rest) = arrays d + memberArrays rest := by
  rw [memberArrays, memberParts, List.countP_append]
  rfl

theorem itemArrays_cons (index : Nat) (d : Data) (rest : List (Nat × Data)) :
    itemArrays ((index, d) :: rest) = arrays d + itemArrays rest := by
  rw [itemArrays, itemParts, List.countP_append]
  rfl

theorem renumber_atom (index : Nat) (atom : String) (verbatim : Bool) :
    renumber index (mk atom verbatim [] []) = (mk atom verbatim [] [], index) := by
  simp [renumber]

theorem renumber_compound (index : Nat) (verbatim : Bool) {members : List (String × Data)} (h : members ≠ []) :
    renumber index (mk "" verbatim members []) =
      (mk "" false (renumberMembers index members).1 [], (renumberMembers index members).2) := by
  rw [renumber, if_pos (List.length_pos_iff.mpr h)]

theorem renumber_array (index : Nat) (verbatim : Bool) {items : List (Nat × Data)} (h : items ≠ []) :
    renumber index (mk "" verbatim [] items) =
      (mk "" false [] (renumberItems index items).1, (renumberItems index items).2) := by
  rw [renumber, if_neg (by simp), if_pos (List.length_pos_iff.mpr h)]

/-- The next index is another one exactly when there are arrays. -/
def Counts (d : Data) : Prop := ∀ index, index ≤ (renumber index d).2 ∧ ((renumber index d).2 = index ↔ arrays d = 0)

theorem renumberMembers_counts {members : List (String × Data)} (h : ∀ m ∈ members, Counts m.2) (index : Nat) :
    index ≤ (renumberMembers index members).2 ∧ ((renumberMembers index members).2 = index ↔ memberArrays members = 0) := by
  induction members generalizing index with
  | nil => simp [renumberMembers, memberArrays, memberParts]
  | cons m members ih =>
    obtain ⟨key, d⟩ := m
    obtain ⟨hd, hmembers⟩ := List.forall_mem_cons.mp h
    have hfirst := hd index
    have hrest := ih hmembers (renumber index d).2
    rw [renumberMembers, memberArrays_cons]
    simp only at hfirst ⊢
    omega

theorem renumberItems_counts {items : List (Nat × Data)} (h : ∀ i ∈ items, Counts i.2) (index : Nat) :
    index ≤ (renumberItems index items).2 ∧ (items ≠ [] → index < (renumberItems index items).2) ∧
      ∀ y ∈ (renumberItems index items).1, index ≤ y.1 := by
  induction items generalizing index with
  | nil => simp [renumberItems]
  | cons i items ih =>
    obtain ⟨_, d⟩ := i
    obtain ⟨hd, hitems⟩ := List.forall_mem_cons.mp h
    have hfirst := (hd (index + 1)).1
    obtain ⟨hle, -, hkeys⟩ := ih hitems (renumber (index + 1) d).2
    rw [renumberItems]
    simp only at hfirst ⊢
    refine ⟨by omega, fun _ => by omega, List.forall_mem_cons.mpr ⟨Nat.le_refl index, ?_⟩⟩
    intro y hy
    have := hkeys y hy
    omega

theorem counts_atom (atom : String) (verbatim : Bool) : Counts (mk atom verbatim [] []) := by
  intro index
  simp [renumber_atom, arrays_atom]

theorem counts_compound (verbatim : Bool) {members : List (String × Data)} (hne : members ≠ [])
    (h : ∀ m ∈ members, Counts m.2) : Counts (mk "" verbatim members []) := by
  intro index
  rw [renumber_compound index verbatim hne, arrays_compound]
  exact renumberMembers_counts h index

theorem counts_array (verbatim : Bool) {items : List (Nat × Data)} (hne : items ≠ []) (h : ∀ i ∈ items, Counts i.2) :
    Counts (mk "" verbatim [] items) := by
  intro index
  obtain ⟨hle, hlt, -⟩ := renumberItems_counts h index
  have hlt := hlt hne
  rw [renumber_array index verbatim hne, arrays_array "" verbatim hne]
  simp only
  omega

theorem Plain.counts {d : Data} (h : Plain d) : Counts d := by
  induction h with
  | text s h => exact counts_atom s true
  | integer s h => exact counts_atom s false
  | compound verbatim members hne hkeys hsorted h ih => exact counts_compound verbatim hne ih
  | array verbatim items hne hkeys h ih => exact counts_array verbatim hne ih

theorem reads_items {items : List (Nat × Data)} (h : ∀ i ∈ items, Readable i.2) (hcounts : ∀ i ∈ items, Counts i.2)
    (n : Nat) {separator : List Char} (hseparator : ∀ c ∈ separator, blank c = true) (pre : List Char) {post : List Char}
    (hpost : Delimited post) :
    ∃ ts, Reads (itemsToText n separator items) pre.length ts post ∧ Closed ts ∧
      ∀ (start stop : Int) (index : Nat), 0 ≤ start → start ≤ pre.length →
        (pre.length + (itemsToText n separator items).length : Nat) ≤ stop →
        BuildsEntries list (pre ++ (itemsToText n separator items ++ post)) start stop index (renumberItems index items) ts := by
  induction items generalizing separator pre with
  | nil =>
    rw [itemsToText]
    refine ⟨[], Jsmn.reads_nil _ _, by simp [Closed], ?_⟩
    intro start stop index _ hstart hstop
    exact buildsEntries_nil _ _ (by simp at hstop; omega) index
  | cons i items ih =>
    obtain ⟨_, d⟩ := i
    obtain ⟨hd, hitems⟩ := List.forall_mem_cons.mp h
    obtain ⟨hdcounts, hcounts⟩ := List.forall_mem_cons.mp hcounts
    simp only at hd hdcounts
    rw [itemsToText_cons]
    have hblanks : ∀ c ∈ separator ++ leadText (n + 1) d, blank c = true :=
      List.forall_mem_append.mpr ⟨hseparator, blank_leadText (n + 1) d⟩
    generalize separator ++ leadText (n + 1) d = lead at *
    generalize hrest : itemsToText n [',', ' '] items = rest at *
    obtain ⟨token, ts, hreads, hclosed, hstart, hstop, -, hbuilds⟩ := hd (n + 1) (pre ++ lead) (rest ++ post)
      fun _ _ => hrest ▸ delimited_items n hpost items
    obtain ⟨ts', hreads', hclosed', hbuilds'⟩ := ih hitems hcounts blank_separator (pre ++ (lead ++ coreText (n + 1) d))
    rw [hrest] at hreads' hbuilds'
    simp only [List.length_append] at hreads hreads' hstart hstop
    refine ⟨token :: (ts ++ ts'), ?_, ?_, ?_⟩
    · have hvalue : Reads (coreText (n + 1) d ++ rest) (pre.length + lead.length) (token :: ts ++ ts') post :=
        Reads.append hreads (by simpa only [Nat.add_assoc] using hreads')
      exact (Jsmn.reads_blanks hblanks pre.length _).append hvalue
    · rw [← List.cons_append]
      exact List.forall_mem_append.mpr ⟨hclosed, hclosed'⟩
    · intro start stop index hzero hle hge
      simp only [List.length_append] at hge
      have htext : pre ++ (lead ++ (coreText (n + 1) d ++ rest) ++ post) =
          pre ++ lead ++ (coreText (n + 1) d ++ (rest ++ post)) := by
        simp only [List.append_assoc]
      have htext' : pre ++ (lead ++ (coreText (n + 1) d ++ rest) ++ post) =
          pre ++ (lead ++ coreText (n + 1) d) ++ (rest ++ post) := by
        simp only [List.append_assoc]
      have hrestBuilds := hbuilds' token.stop stop (renumber (index + 1) d).2 (by omega)
        (by simp only [List.length_append]; omega) (by simp only [List.length_append]; omega)
      rw [renumberItems]
      refine (opensSlot_list hzero (by omega) (by omega) index ts).cons (htext ▸ hbuilds (index + 1)) (htext' ▸ hrestBuilds) ?_
      intro y hy
      have hnext := (hdcounts (index + 1)).1
      have hy := (renumberItems_counts hcounts _).2.2 y hy
      omega

/-! ### Whole values -/

theorem parts_subset_memberParts {members : List (String × Data)} {m : String × Data} (h : m ∈ members) :
    parts m.2 ⊆ memberParts members := by
  induction members with
  | nil => cases h
  | cons m' members ih =>
    obtain ⟨key, d⟩ := m'
    rw [memberParts]
    rcases List.mem_cons.mp h with rfl | h
    · exact List.subset_append_left _ _
    · exact List.Subset.trans (ih h) (List.subset_append_right _ _)

theorem parts_subset_itemParts {items : List (Nat × Data)} {i : Nat × Data} (h : i ∈ items) :
    parts i.2 ⊆ itemParts items := by
  induction items with
  | nil => cases h
  | cons i' items ih =>
    obtain ⟨index, d⟩ := i'
    rw [itemParts]
    rcases List.mem_cons.mp h with rfl | h
    · exact List.subset_append_left _ _
    · exact List.Subset.trans (ih h) (List.subset_append_right _ _)

theorem untabbed_of_subset {d d' : Data} (h : untabbed d = true) (hsub : parts d' ⊆ parts d) : untabbed d' = true :=
  List.all_eq_true.mpr fun x hx => List.all_eq_true.mp h x (hsub hx)

theorem untabbed_self {d : Data} (h : untabbed d = true) :
    '\x0b' ∉ d.atom.toList ∧ ∀ m ∈ d.compound, '\x0b' ∉ m.1.toList := by
  have hself : d ∈ parts d := by
    obtain ⟨atom, verbatim, members, items⟩ := d
    rw [parts]
    exact List.mem_cons_self
  have hd := List.all_eq_true.mp h d hself
  simpa only [Bool.and_eq_true, decide_eq_true_eq, List.all_eq_true] using hd

theorem untabbed_compound {atom : String} {verbatim : Bool} {members : List (String × Data)}
    (h : untabbed (mk atom verbatim members []) = true) : ∀ m ∈ members, untabbed m.2 = true := by
  intro m hm
  refine untabbed_of_subset h ?_
  rw [parts]
  exact List.Subset.trans (parts_subset_memberParts hm)
    (List.Subset.trans (List.subset_append_left _ _) (List.subset_cons_self _ _))

theorem untabbed_array {atom : String} {verbatim : Bool} {items : List (Nat × Data)}
    (h : untabbed (mk atom verbatim [] items) = true) : ∀ i ∈ items, untabbed i.2 = true := by
  intro i hi
  refine untabbed_of_subset h ?_
  rw [parts]
  exact List.Subset.trans (parts_subset_itemParts hi)
    (List.Subset.trans (List.subset_append_right _ _) (List.subset_cons_self _ _))

theorem readable_compound {verbatim : Bool} {members : List (String × Data)} (hne : members ≠ [])
    (h : ∀ m ∈ members, Readable m.2) (hkeys : ∀ m ∈ members, '\x0b' ∉ m.1.toList)
    (hsorted : members.Pairwise (·.1 < ·.1)) : Readable (mk "" verbatim members []) := by
  intro n pre post _
  have hnewline : Delimited (('\n' :: indent n) ++ '\x7d' :: post) := ⟨'\n', _, rfl, rfl⟩
  obtain ⟨ts, hreads, hclosed, hbuilds⟩ := reads_members h hkeys hsorted n (longestKey members)
    (List.forall_mem_nil _) (pre ++ ['\x7b']) hnewline
  generalize htext : membersToText n (longestKey members) [] members = text at *
  have hcore : coreText n (mk "" verbatim members []) = '\x7b' :: (text ++ ('\n' :: indent n) ++ ['\x7d']) := by
    rw [coreText_compound n verbatim hne, htext, List.append_assoc]
    rfl
  have hinner : Reads (text ++ ('\n' :: indent n)) (pre.length + 1) (ts ++ []) ('\x7d' :: post) := by
    have hpos : (pre ++ ['\x7b']).length = pre.length + 1 := by simp
    rw [hpos] at hreads
    exact hreads.append (Jsmn.reads_blanks (List.forall_mem_cons.mpr ⟨rfl, blank_indent n⟩) _ _)
  rw [List.append_nil] at hinner
  have hcontainer := @Jsmn.reads_container .object '\x7b' '\x7d' (fun _ _ _ => rfl)
    (fun _ _ _ => rfl) _ _ _ _ hinner hclosed
  rw [hcore]
  refine ⟨_, ts, hcontainer, List.forall_mem_cons.mpr ⟨by simp only; omega, hclosed⟩, by simp only; omega, ?_, ?_, ?_⟩
  · simp only [List.length_cons, List.length_append, List.length_nil]
    omega
  · intro _
    simp only [List.length_cons, List.length_append, List.length_nil]
    omega
  · intro index
    have hwhole : pre ++ ('\x7b' :: (text ++ ('\n' :: indent n) ++ ['\x7d']) ++ post) =
        pre ++ ['\x7b'] ++ (text ++ (('\n' :: indent n) ++ '\x7d' :: post)) := by simp
    rw [renumber_compound index verbatim hne, hwhole]
    refine BuildsEntries.container object rfl 0 (hbuilds 0 _ index (Int.le_refl 0) (Int.natCast_nonneg _) ?_)
    simp only [List.length_cons, List.length_append, List.length_nil]
    omega

theorem readable_array {verbatim : Bool} {items : List (Nat × Data)} (hne : items ≠ [])
    (h : ∀ i ∈ items, Readable i.2) (hcounts : ∀ i ∈ items, Counts i.2) : Readable (mk "" verbatim [] items) := by
  intro n pre post _
  have hbracket : Delimited (']' :: post) := ⟨']', _, rfl, rfl⟩
  obtain ⟨ts, hreads, hclosed, hbuilds⟩ := reads_items h hcounts n (List.forall_mem_nil _) (pre ++ ['[']) hbracket
  have hpos : (pre ++ ['[']).length = pre.length + 1 := by simp
  rw [hpos] at hreads
  have hcontainer := @Jsmn.reads_container .array '[' ']' (fun _ _ _ => rfl)
    (fun _ _ _ => rfl) _ _ _ _ hreads hclosed
  rw [coreText_array n verbatim hne]
  refine ⟨_, ts, hcontainer, List.forall_mem_cons.mpr ⟨by simp only; omega, hclosed⟩, by simp only; omega, ?_, ?_, ?_⟩
  · simp only [List.length_cons, List.length_append, List.length_nil]
    omega
  · intro _
    simp only [List.length_cons, List.length_append, List.length_nil]
    omega
  · intro index
    have hwhole : pre ++ ('[' :: (itemsToText n [] items ++ [']']) ++ post) =
        pre ++ ['['] ++ (itemsToText n [] items ++ ']' :: post) := by simp
    rw [renumber_array index verbatim hne, hwhole]
    refine BuildsEntries.container list rfl 0 (hbuilds 0 _ index (Int.le_refl 0) (Int.natCast_nonneg _) ?_)
    simp only [List.length_append, List.length_cons, List.length_nil]
    omega

theorem Plain.readable {d : Data} (h : Plain d) (hclean : untabbed d = true) : Readable d := by
  induction h with
  | text s h => exact readable_text (untabbed_self hclean).1
  | integer s h => exact readable_integer h
  | compound verbatim members hne hkeys hsorted h ih =>
    exact readable_compound hne (fun m hm => ih m hm (untabbed_compound hclean m hm)) (untabbed_self hclean).2 hsorted
  | array verbatim items hne hkeys h ih =>
    exact readable_array hne (fun i hi => ih i hi (untabbed_array hclean i hi)) fun i hi => (h i hi).counts

/-! ### Values that cannot be read -/

/-- Wherever the value is written, the tokenizer does not accept it. -/
def Unreadable (d : Data) : Prop := ∀ (n pos : Nat) (post : List Char), Fails (coreText n d) pos post

theorem Readable.reads {d : Data} (h : Readable d) (n pos : Nat) {post : List Char} (hpost : Delimited post) :
    ∃ ts, Reads (coreText n d) pos ts post := by
  obtain ⟨token, ts, hreads, -⟩ := h n (List.replicate pos ' ') post fun _ _ => hpost
  rw [List.length_replicate] at hreads
  exact ⟨token :: ts, hreads⟩

theorem fails_members {members : List (String × Data)} (hread : ∀ m ∈ members, untabbed m.2 = true → Readable m.2)
    (hfail : ∀ m ∈ members, untabbed m.2 ≠ true → Unreadable m.2)
    (hbad : ∃ m ∈ members, '\x0b' ∈ m.1.toList ∨ untabbed m.2 ≠ true) (n longest : Nat) {separator : List Char}
    (hseparator : ∀ c ∈ separator, blank c = true) (pos : Nat) {post : List Char} (hpost : Delimited post) :
    Fails (membersToText n longest separator members) pos post := by
  induction members generalizing separator pos with
  | nil => simp at hbad
  | cons m members ih =>
    obtain ⟨key, d⟩ := m
    obtain ⟨hdread, hread⟩ := List.forall_mem_cons.mp hread
    obtain ⟨hdfail, hfail⟩ := List.forall_mem_cons.mp hfail
    rw [membersToText_cons]
    refine Reads.fails (Jsmn.reads_blanks (blank_keyLead n hseparator) pos _) ?_
    by_cases hkey : '\x0b' ∈ key.toList
    · exact (Jsmn.fails_string hkey _ _).append _
    refine Reads.fails (Jsmn.reads_string hkey _ _) (Reads.fails (Jsmn.reads_blanks (blank_valueLead n longest key d) _ _) ?_)
    by_cases hd : untabbed d = true
    · obtain ⟨ts, hreads⟩ := (hdread hd).reads (n + 1) _ (delimited_members n longest hpost members)
      refine Reads.fails hreads (ih hread hfail ?_ blank_separator _)
      obtain ⟨m, hm, hbad⟩ := hbad
      rcases List.mem_cons.mp hm with rfl | hm
      · rcases hbad with hbad | hbad
        · exact absurd hbad hkey
        · exact absurd hd hbad
      · exact ⟨m, hm, hbad⟩
    · exact (hdfail hd (n + 1) _ _).append _

theorem fails_items {items : List (Nat × Data)} (hread : ∀ i ∈ items, untabbed i.2 = true → Readable i.2)
    (hfail : ∀ i ∈ items, untabbed i.2 ≠ true → Unreadable i.2) (hbad : ∃ i ∈ items, untabbed i.2 ≠ true) (n : Nat)
    {separator : List Char} (hseparator : ∀ c ∈ separator, blank c = true) (pos : Nat) {post : List Char}
    (hpost : Delimited post) : Fails (itemsToText n separator items) pos post := by
  induction items generalizing separator pos with
  | nil => simp at hbad
  | cons i items ih =>
    obtain ⟨index, d⟩ := i
    obtain ⟨hdread, hread⟩ := List.forall_mem_cons.mp hread
    obtain ⟨hdfail, hfail⟩ := List.forall_mem_cons.mp hfail
    have hblanks : ∀ c ∈ separator ++ leadText (n + 1) d, blank c = true :=
      List.forall_mem_append.mpr ⟨hseparator, blank_leadText (n + 1) d⟩
    rw [itemsToText_cons]
    refine Reads.fails (Jsmn.reads_blanks hblanks pos _) ?_
    by_cases hd : untabbed d = true
    · obtain ⟨ts, hreads⟩ := (hdread hd).reads (n + 1) _ (delimited_items n hpost items)
      refine Reads.fails hreads (ih hread hfail ?_ blank_separator _)
      obtain ⟨i, hi, hbad⟩ := hbad
      rcases List.mem_cons.mp hi with rfl | hi
      · exact absurd hd hbad
      · exact ⟨i, hi, hbad⟩
    · exact (hdfail hd (n + 1) _ _).append _

theorem untabbed_eq {atom : String} {verbatim : Bool} {members : List (String × Data)} {items : List (Nat × Data)}
    (hatom : '\x0b' ∉ atom.toList) (hkeys : ∀ m ∈ members, '\x0b' ∉ m.1.toList)
    (hmembers : ∀ m ∈ members, untabbed m.2 = true) (hitems : ∀ i ∈ items, untabbed i.2 = true) :
    untabbed (mk atom verbatim members items) = true := by
  have hmemberParts : ∀ x ∈ memberParts members, ∃ m ∈ members, x ∈ parts m.2 := by
    intro x hx
    clear hkeys hmembers
    induction members with
    | nil => simp [memberParts] at hx
    | cons m members ih =>
      obtain ⟨key, d⟩ := m
      rw [memberParts] at hx
      rcases List.mem_append.mp hx with hx | hx
      · exact ⟨_, List.mem_cons_self, hx⟩
      · obtain ⟨m, hm, hx⟩ := ih hx
        exact ⟨m, List.mem_cons_of_mem _ hm, hx⟩
  have hitemParts : ∀ x ∈ itemParts items, ∃ i ∈ items, x ∈ parts i.2 := by
    intro x hx
    clear hitems
    induction items with
    | nil => simp [itemParts] at hx
    | cons i items ih =>
      obtain ⟨index, d⟩ := i
      rw [itemParts] at hx
      rcases List.mem_append.mp hx with hx | hx
      · exact ⟨_, List.mem_cons_self, hx⟩
      · obtain ⟨i, hi, hx⟩ := ih hx
        exact ⟨i, List.mem_cons_of_mem _ hi, hx⟩
  refine List.all_eq_true.mpr ?_
  rw [parts]
  refine List.forall_mem_cons.mpr ⟨?_, List.forall_mem_append.mpr ⟨?_, ?_⟩⟩
  · simpa only [Bool.and_eq_true, decide_eq_true_eq, List.all_eq_true] using ⟨hatom, hkeys⟩
  · intro x hx
    obtain ⟨m, hm, hx⟩ := hmemberParts x hx
    exact List.all_eq_true.mp (hmembers m hm) x hx
  · intro x hx
    obtain ⟨i, hi, hx⟩ := hitemParts x hx
    exact List.all_eq_true.mp (hitems i hi) x hx

theorem Plain.unreadable {d : Data} (h : Plain d) (htabbed : untabbed d ≠ true) : Unreadable d := by
  induction h with
  | text s h =>
    intro n pos post
    rw [coreText_text]
    refine Jsmn.fails_string ?_ pos post
    by_contra hclean
    exact htabbed (untabbed_eq hclean (by simp) (by simp) (by simp))
  | integer s h =>
    refine absurd (untabbed_eq ?_ (by simp) (by simp) (by simp)) htabbed
    intro hmem
    exact absurd ((isInteger_digital h).2 _ hmem) (by decide)
  | compound verbatim members hne hkeys hsorted h ih =>
    intro n pos post
    have hbad : ∃ m ∈ members, '\x0b' ∈ m.1.toList ∨ untabbed m.2 ≠ true := by
      by_contra hclean
      simp only [not_exists, not_and, not_or, not_not] at hclean
      exact htabbed (untabbed_eq (by simp) (fun m hm => (hclean m hm).1) (fun m hm => (hclean m hm).2) (by simp))
    rw [coreText_compound n verbatim hne]
    exact Jsmn.fails_container _ (fun _ _ _ => rfl) (fails_members (fun m hm => (h m hm).readable) ih hbad n _ (by simp) _
      ⟨'\n', _, rfl, rfl⟩)
  | array verbatim items hne hkeys h ih =>
    intro n pos post
    have hbad : ∃ i ∈ items, untabbed i.2 ≠ true := by
      by_contra hclean
      simp only [not_exists, not_and, not_not] at hclean
      exact htabbed (untabbed_eq (by simp) (by simp) (by simp) hclean)
    rw [coreText_array n verbatim hne]
    exact Jsmn.fails_container _ (fun _ _ _ => rfl) (fails_items (fun i hi => (h i hi).readable) ih hbad n (by simp) _
      ⟨']', _, rfl, rfl⟩)

/-! ### The whole text -/

def NoNul (cs : List Char) : Prop := ∀ c ∈ cs, c ≠ '\x00'

theorem noNul_blanks {cs : List Char} (h : ∀ c ∈ cs, blank c = true) : NoNul cs := by
  intro c hc
  rintro rfl
  exact absurd (h _ hc) (by decide)

theorem noNul_jsonEscape {s : List Char} (h : '\x00' ∉ s) : NoNul (jsonEscape s) := by
  intro c hc
  obtain ⟨x, hx, hc⟩ := List.mem_flatMap.mp hc
  have hne : x ≠ '\x00' := by
    rintro rfl
    exact h hx
  rintro rfl
  rw [escapeChar] at hc
  split at hc
  · exact absurd hc (by decide)
  split at hc
  · exact absurd hc (by decide)
  split at hc
  · exact absurd hc (by decide)
  split at hc
  · exact absurd hc (by decide)
  split at hc
  · exact absurd hc (by decide)
  split at hc
  · exact absurd hc (by decide)
  split at hc
  · exact absurd hc (by decide)
  split at hc
  · exact absurd hc (by decide)
  · exact hne (List.mem_singleton.mp hc).symm

theorem noNul_quoted {s : List Char} (h : '\x00' ∉ s) : NoNul ('"' :: (jsonEscape s ++ ['"'])) :=
  List.forall_mem_cons.mpr ⟨by decide, List.forall_mem_append.mpr ⟨noNul_jsonEscape h, by simp⟩⟩

theorem noNul_members {members : List (String × Data)} (hkeys : ∀ m ∈ members, '\x00' ∉ m.1.toList)
    (h : ∀ m ∈ members, ∀ n, NoNul (coreText n m.2)) (n longest : Nat) {separator : List Char}
    (hseparator : ∀ c ∈ separator, blank c = true) : NoNul (membersToText n longest separator members) := by
  induction members generalizing separator with
  | nil => simp [membersToText, NoNul]
  | cons m members ih =>
    obtain ⟨key, d⟩ := m
    obtain ⟨hkey, hkeys⟩ := List.forall_mem_cons.mp hkeys
    obtain ⟨hd, hmembers⟩ := List.forall_mem_cons.mp h
    rw [membersToText_cons]
    exact List.forall_mem_append.mpr ⟨noNul_blanks (blank_keyLead n hseparator), List.forall_mem_append.mpr
      ⟨noNul_quoted hkey, List.forall_mem_append.mpr ⟨noNul_blanks (blank_valueLead n longest key d),
        List.forall_mem_append.mpr ⟨hd (n + 1), ih hkeys hmembers blank_separator⟩⟩⟩⟩

theorem noNul_items {items : List (Nat × Data)} (h : ∀ i ∈ items, ∀ n, NoNul (coreText n i.2)) (n : Nat)
    {separator : List Char} (hseparator : ∀ c ∈ separator, blank c = true) : NoNul (itemsToText n separator items) := by
  induction items generalizing separator with
  | nil => simp [itemsToText, NoNul]
  | cons i items ih =>
    obtain ⟨index, d⟩ := i
    obtain ⟨hd, hitems⟩ := List.forall_mem_cons.mp h
    have hblanks : ∀ c ∈ separator ++ leadText (n + 1) d, blank c = true :=
      List.forall_mem_append.mpr ⟨hseparator, blank_leadText (n + 1) d⟩
    rw [itemsToText_cons]
    exact List.forall_mem_append.mpr ⟨noNul_blanks hblanks,
      List.forall_mem_append.mpr ⟨hd (n + 1), ih hitems blank_separator⟩⟩

theorem noNul_compound (verbatim : Bool) {members : List (String × Data)} (hne : members ≠ [])
    (hkeys : ∀ m ∈ members, '\x00' ∉ m.1.toList) (h : ∀ m ∈ members, ∀ n, NoNul (coreText n m.2)) (n : Nat) :
    NoNul (coreText n (mk "" verbatim members [])) := by
  rw [coreText_compound n verbatim hne]
  refine List.forall_mem_cons.mpr ⟨by decide, List.forall_mem_append.mpr ⟨?_, ?_⟩⟩
  · exact noNul_members hkeys h n _ (by simp)
  · exact List.forall_mem_cons.mpr ⟨by decide, List.forall_mem_append.mpr ⟨noNul_blanks (blank_indent n), by simp⟩⟩

theorem noNul_array (verbatim : Bool) {items : List (Nat × Data)} (hne : items ≠ [])
    (h : ∀ i ∈ items, ∀ n, NoNul (coreText n i.2)) (n : Nat) : NoNul (coreText n (mk "" verbatim [] items)) := by
  rw [coreText_array n verbatim hne]
  refine List.forall_mem_cons.mpr ⟨by decide, List.forall_mem_append.mpr ⟨?_, by simp⟩⟩
  exact noNul_items h n (by simp)

theorem Plain.noNul {d : Data} (h : Plain d) (n : Nat) : NoNul (coreText n d) := by
  induction h generalizing n with
  | text s h =>
    rw [coreText_text]
    exact noNul_quoted h
  | integer s h =>
    obtain ⟨hne, hdigits⟩ := isInteger_digital h
    rw [coreText_integer n (by rintro rfl; exact hne rfl)]
    intro c hc
    rintro rfl
    exact absurd (hdigits _ hc) (by decide)
  | compound verbatim members hne hkeys hsorted h ih =>
    exact noNul_compound verbatim hne (fun m hm => (hkeys m hm).2) (fun m hm n => ih m hm n) n
  | array verbatim items hne hkeys h ih => exact noNul_array verbatim hne (fun i hi n => ih i hi n) n

theorem NoNul.cString {cs : List Char} (h : NoNul cs) : Data.cString cs = cs :=
  List.takeWhile_eq_self_iff.mpr fun c hc => by simpa using h c hc

theorem trimCopy_eq {lead core : List Char} (hlead : ∀ c ∈ lead, isSpace c = true)
    (hfirst : ∀ c ∈ core.head?, isSpace c = false) (hlast : ∀ c ∈ core.getLast?, isSpace c = false) :
    trimCopy (lead ++ core) = core := by
  have hdrop : ∀ l : List Char, (∀ c ∈ l.head?, isSpace c = false) → l.dropWhile isSpace = l := by
    intro l hl
    cases l with
    | nil => rfl
    | cons c l => rw [List.dropWhile_cons_of_neg (by simpa using hl c rfl)]
  rw [trimCopy, List.dropWhile_append_of_pos hlead, hdrop core hfirst, hdrop core.reverse, List.reverse_reverse]
  rw [List.head?_reverse]
  exact hlast

theorem leadText_space (n : Nat) (d : Data) : ∀ c ∈ leadText n d, isSpace c = true := by
  rw [leadText]
  split
  · refine List.forall_mem_cons.mpr ⟨rfl, fun c hc => ?_⟩
    rw [List.eq_of_mem_replicate hc]
    rfl
  · simp

/-- What is written begins and ends with a bracket. -/
def Bracketed (text : List Char) : Prop :=
  ∃ first inner last, text = first :: (inner ++ [last]) ∧ (first = '\x7b' ∨ first = '[') ∧ isSpace last = false

theorem bracketed_compound (verbatim : Bool) {members : List (String × Data)} (hne : members ≠ []) (n : Nat) :
    Bracketed (coreText n (mk "" verbatim members [])) := by
  rw [coreText_compound n verbatim hne]
  exact ⟨'\x7b', membersToText n (longestKey members) [] members ++ '\n' :: indent n, '\x7d', by simp, .inl rfl, rfl⟩

theorem Plain.brackets {d : Data} (h : Plain d) (hcontainer : d.compound ≠ [] ∨ d.array ≠ []) (n : Nat) :
    Bracketed (coreText n d) := by
  cases h with
  | text s h => exact absurd hcontainer (by simp [Data.compound, Data.array])
  | integer s h => exact absurd hcontainer (by simp [Data.compound, Data.array])
  | compound verbatim members hne hkeys hsorted h => exact bracketed_compound verbatim hne n
  | array verbatim items hne hkeys h =>
    rw [coreText_array n verbatim hne]
    exact ⟨'[', _, ']', rfl, .inr rfl, rfl⟩

def fromTokens (text : List Char) : Except JsmnError (List JsmnToken) → Except Fault Data
  | .error e => .error (.thrown (parseError text e))
  | .ok [] => .ok empty
  | .ok (token :: tokens) => if token.stop ≠ text.length then .ok empty else tokenLoop text (token :: tokens) {}

theorem fromJSON_eq {d : Data} (hbrackets : Bracketed (coreText 1 d)) (hnul : NoNul (coreText 1 d))
    {r : Except JsmnError (List JsmnToken)} (hr : Jsmn.parse (coreText 1 d).length (coreText 1 d) = r)
    (hnomem : r ≠ .error .nomem) :
    fromJSON (toJSON d) = fromTokens (coreText 1 d) r := by
  obtain ⟨first, text, last, hcore, hfirst, hlast⟩ := hbrackets
  have htrim : trimCopy (toJSON d) = coreText 1 d := by
    rw [toJSON, toText_eq]
    refine trimCopy_eq (leadText_space 1 d) ?_ ?_
    · rw [hcore]
      rintro c ⟨⟩
      rcases hfirst with rfl | rfl <;> rfl
    · rw [hcore, ← List.cons_append, List.getLast?_concat]
      rintro c ⟨⟩
      exact hlast
  have hparse : parseTokens (coreText 1 d) [8, 4, 2, 1] = r :=
    parseTokens_eq (by rw [hnul.cString, hr]) hnomem
  have hbracket : ¬ (first ≠ '\x7b' ∧ first ≠ '[') := by
    rcases hfirst with rfl | rfl <;> simp
  rw [fromJSON, htrim]
  split
  · rename_i hnil
    rw [hcore] at hnil
    cases hnil
  · rename_i c rest hcons
    obtain ⟨rfl, -⟩ := List.cons.inj (hcore.symm.trans hcons)
    rw [if_neg hbracket, hparse]
    rcases r with e | tokens
    · rfl
    · cases tokens <;> rfl

/-- A compound or an array that can be read comes back with its indices counted through. -/
theorem Readable.fromJSON_eq {d : Data} (h : Readable d) (hcontainer : d.compound ≠ [] ∨ d.array ≠ [])
    (hbrackets : Bracketed (coreText 1 d)) (hnul : NoNul (coreText 1 d)) : fromJSON (toJSON d) = .ok (renumber 0 d).1 := by
  obtain ⟨token, ts, hreads, hclosed, -, -, hstop, hbuilds⟩ := h 1 [] [] fun hc ha => by
    rcases hcontainer with hne | hne
    · exact absurd hc hne
    · exact absurd ha hne
  have hrun : Jsmn.parse (coreText 1 d).length (coreText 1 d) = .ok (token :: ts) := by
    have hcomplete : ¬ ((token :: ts).reverse ++ []).any (·.stop = -1) = true := by
      rw [List.append_nil, List.any_eq_true]
      rintro ⟨t, ht, hopen⟩
      exact hclosed t (List.mem_reverse.mp ht) (of_decide_eq_true hopen)
    have hrun := hreads.2 (coreText 1 d).length [] (by simp)
    rw [List.append_nil] at hrun
    rw [Jsmn.parse]
    change (Jsmn.run _ _ ([] : List Char).length { tokens := [] }).map _ = _
    rw [hrun, Jsmn.run, Jsmn.finish]
    simp only [if_neg hcomplete]
    simp [Except.map]
  rw [Data.fromJSON_eq hbrackets hnul hrun (by simp), fromTokens, if_neg (by rw [hstop hcontainer]; simp)]
  obtain ⟨l, hl, -, ⟨f, hf, hempty⟩, -⟩ := hbuilds 0 [] {} empty [] [] rfl rfl rfl
  simp only [List.nil_append, List.append_nil] at hl
  rw [hl, behindSwitch, hf, modify, hempty]

/-- A value without vertical tabs comes back with its indices counted through. -/
theorem Plain.fromJSON_readable {d : Data} (h : Plain d) (hcontainer : d.compound ≠ [] ∨ d.array ≠ [])
    (hclean : untabbed d = true) : fromJSON (toJSON d) = .ok (renumber 0 d).1 :=
  (h.readable hclean).fromJSON_eq hcontainer (h.brackets hcontainer 1) (h.noNul 1)

theorem Plain.fromJSON_unreadable {d : Data} (h : Plain d) (hcontainer : d.compound ≠ [] ∨ d.array ≠ [])
    (htabbed : untabbed d ≠ true) : ∃ e, fromJSON (toJSON d) = .error (.thrown e) := by
  have hrun : Jsmn.parse (coreText 1 d).length (coreText 1 d) = .error .inval := by
    have hrun := h.unreadable htabbed 1 0 [] (coreText 1 d).length [] (by simp)
    rw [List.append_nil] at hrun
    rw [Jsmn.parse]
    change (Jsmn.run _ _ 0 { tokens := [] }).map _ = _
    rw [hrun]
    rfl
  exact ⟨_, fromJSON_eq (h.brackets hcontainer 1) (h.noNul 1) hrun (by simp)⟩

/-! ### What comes back -/

/-- Counted from `index` on, a value is the same exactly when there is no array in it, or only the first. -/
def SameCount (d : Data) : Prop :=
  ∀ index, untag (renumber index d).1 = untag d ↔ arrays d = 0 ∨ index = 0 ∧ arrays d = 1

theorem untag_compound (verbatim : Bool) {members : List (String × Data)} (h : members ≠ []) :
    untag (mk "" verbatim members []) = mk "" false (untagMembers members) [] := by
  obtain ⟨m, members, rfl⟩ := List.exists_cons_of_ne_nil h
  simp [untag, untagItems]

theorem untag_array (verbatim : Bool) {items : List (Nat × Data)} (h : items ≠ []) :
    untag (mk "" verbatim [] items) = mk "" false [] (untagItems items) := by
  obtain ⟨i, items, rfl⟩ := List.exists_cons_of_ne_nil h
  simp [untag, untagMembers]

theorem renumberMembers_same {members : List (String × Data)} (hcounts : ∀ m ∈ members, Counts m.2)
    (h : ∀ m ∈ members, SameCount m.2) (index : Nat) :
    untagMembers (renumberMembers index members).1 = untagMembers members ↔
      memberArrays members = 0 ∨ index = 0 ∧ memberArrays members = 1 := by
  induction members generalizing index with
  | nil => simp [renumberMembers, memberArrays, memberParts]
  | cons m members ih =>
    obtain ⟨key, d⟩ := m
    obtain ⟨hdcounts, hcounts⟩ := List.forall_mem_cons.mp hcounts
    obtain ⟨hd, hmembers⟩ := List.forall_mem_cons.mp h
    have hnext := hdcounts index
    have hfirst := hd index
    have hrest := ih hcounts hmembers (renumber index d).2
    simp only at hnext hfirst
    rw [renumberMembers, memberArrays_cons, untagMembers, untagMembers, List.cons.injEq, Prod.mk.injEq, hfirst, hrest]
    simp only [true_and]
    omega

/-- The items of an array are the same when they are counted from the same index on and hold no arrays. -/
theorem renumberItems_same {items : List (Nat × Data)} (hcounts : ∀ i ∈ items, Counts i.2)
    (h : ∀ i ∈ items, SameCount i.2) (index first : Nat) (hkeys : items.map (·.1) = List.range' first items.length) :
    untagItems (renumberItems index items).1 = untagItems items ↔ items = [] ∨ index = first ∧ itemArrays items = 0 := by
  induction items generalizing index first with
  | nil => simp [renumberItems]
  | cons i items ih =>
    obtain ⟨key, d⟩ := i
    obtain ⟨hdcounts, hcounts⟩ := List.forall_mem_cons.mp hcounts
    obtain ⟨hd, hitems⟩ := List.forall_mem_cons.mp h
    rw [List.map_cons, List.length_cons, List.range'_succ, List.cons.injEq] at hkeys
    obtain ⟨rfl, hkeys⟩ := hkeys
    have hnext := hdcounts (index + 1)
    have hfirst := hd (index + 1)
    have hrest := ih hcounts hitems (renumber (index + 1) d).2 _ hkeys
    simp only at hnext hfirst hrest
    rw [renumberItems, itemArrays_cons, untagItems, untagItems, List.cons.injEq, Prod.mk.injEq, hfirst, hrest]
    have hempty : items = [] → itemArrays items = 0 := by
      rintro rfl
      rfl
    simp only [reduceCtorEq, false_or]
    constructor
    · rintro ⟨⟨rfl, harrays⟩, hrest⟩
      have hnone : itemArrays items = 0 := hrest.elim hempty fun hrest => hrest.2
      have hfew : arrays d = 0 := by
        rcases harrays with h | h
        · exact h
        · exact absurd h.1 (by simp)
      exact ⟨rfl, by rw [hfew, hnone]⟩
    · rintro ⟨rfl, harrays⟩
      refine ⟨⟨rfl, by omega⟩, ?_⟩
      exact .inr ⟨hnext.2.mpr (by omega), by omega⟩

theorem Plain.sameCount {d : Data} (h : Plain d) : SameCount d := by
  induction h with
  | text s h =>
    intro index
    simp [renumber_atom, arrays_atom]
  | integer s h =>
    intro index
    simp [renumber_atom, arrays_atom]
  | compound verbatim members hne hkeys hsorted h ih =>
    intro index
    have hne' : (renumberMembers index members).1 ≠ [] := by
      obtain ⟨m, members, rfl⟩ := List.exists_cons_of_ne_nil hne
      simp [renumberMembers]
    rw [renumber_compound index verbatim hne, untag_compound false hne', untag_compound verbatim hne, arrays_compound,
      ← renumberMembers_same (fun m hm => (h m hm).counts) ih index]
    simp
  | array verbatim items hne hkeys h ih =>
    intro index
    have hne' : (renumberItems index items).1 ≠ [] := by
      obtain ⟨i, items, rfl⟩ := List.exists_cons_of_ne_nil hne
      simp [renumberItems]
    have hsame := renumberItems_same (fun i hi => (h i hi).counts) ih index 0 (by rw [hkeys, List.range_eq_range'])
    rw [renumber_array index verbatim hne, untag_array false hne', untag_array verbatim hne, arrays_array "" verbatim hne,
      mk.injEq]
    simp only [true_and, hsame, hne, false_or]
    omega

/-- What `fromJSON` gives back: an integer that stands alone, and a compound or an array without vertical tabs in which
there is at most one array. -/
def Restorable (d : Data) : Prop :=
  (d.compound = [] ∧ d.array = [] ∧ d.verbatim = false) ∨
    (d.compound ≠ [] ∨ d.array ≠ []) ∧ untabbed d = true ∧ arrays d ≤ 1

theorem fromJSON_atom {text : List Char} {first : Char} {rest : List Char} (htrim : trimCopy text = first :: rest)
    (hfirst : first ≠ '\x7b' ∧ first ≠ '[') :
    fromJSON text = .ok (mk (String.ofList text) (!isNumeric (cString text)) [] []) := by
  rw [fromJSON, htrim]
  simp only
  rw [if_pos hfirst]

theorem length_jsonEscape (s : List Char) : s.length ≤ (jsonEscape s).length := by
  induction s with
  | nil => exact Nat.le_refl 0
  | cons c s ih =>
    have hc : 1 ≤ (escapeChar c).length := by
      rw [escapeChar]
      repeat' split
      all_goals exact Nat.le_of_ble_eq_true rfl
    rw [jsonEscape, List.flatMap_cons, List.length_append, List.length_cons]
    rw [jsonEscape] at ih
    omega

/-- A text that stands alone keeps its quotes. -/
theorem not_roundTrips_text (s : String) : ¬ RoundTrips (mk s true [] []) := by
  have htext : toJSON (mk s true [] []) = '"' :: (jsonEscape s.toList ++ ['"']) := coreText_text 1 s
  have htrim : trimCopy ([] ++ '"' :: (jsonEscape s.toList ++ ['"'])) = '"' :: (jsonEscape s.toList ++ ['"']) := by
    refine trimCopy_eq (by simp) ?_ ?_
    · rintro c ⟨⟩
      rfl
    · rw [← List.cons_append, List.getLast?_concat]
      rintro c ⟨⟩
      rfl
  rw [List.nil_append] at htrim
  rintro ⟨d', hd', huntag⟩
  rw [htext, fromJSON_atom htrim (by decide)] at hd'
  obtain rfl := Except.ok.inj hd'
  have hatom : String.ofList ('"' :: (jsonEscape s.toList ++ ['"'])) = s := by
    simpa [untag, untagMembers, untagItems] using (mk.inj huntag).1
  have hlength := congrArg (fun s => s.toList.length) hatom
  have hle := length_jsonEscape s.toList
  simp only [String.toList_ofList, List.length_cons, List.length_append, List.length_nil] at hlength
  omega

theorem roundTrips_integer {s : String} (h : isInteger s.toList = true) : RoundTrips (mk s false [] []) := by
  obtain ⟨hne, hdigits⟩ := isInteger_digital h
  have htext : toJSON (mk s false [] []) = s.toList := coreText_integer 1 (by rintro rfl; exact hne rfl)
  have hspace : ∀ c ∈ s.toList, isSpace c = false := by
    intro c hc
    have hdigit : c ∈ "-0123456789".toList := of_decide_eq_true (hdigits c hc)
    exact (by simp [isSpace] : ∀ c ∈ "-0123456789".toList, isSpace c = false) c hdigit
  have htrim : trimCopy ([] ++ s.toList) = s.toList :=
    trimCopy_eq (by simp) (fun c hc => hspace c (List.mem_of_mem_head? hc)) fun c hc => hspace c (List.mem_of_getLast? hc)
  obtain ⟨first, rest, hcons⟩ := List.exists_cons_of_ne_nil hne
  have hfirst : first ≠ '\x7b' ∧ first ≠ '[' := by
    have hdigit := hdigits first (hcons ▸ List.mem_cons_self)
    constructor
    · rintro rfl
      exact absurd hdigit (by decide)
    · rintro rfl
      exact absurd hdigit (by decide)
  have hnumeric : isNumeric (cString s.toList) = true := by
    refine List.all_eq_true.mpr fun c hc => decide_eq_true ?_
    have hdigit : c ∈ "-0123456789".toList := of_decide_eq_true (hdigits c ((List.takeWhile_sublist _).subset hc))
    exact List.mem_cons_of_mem '.' hdigit
  rw [List.nil_append] at htrim
  refine ⟨_, ?_, rfl⟩
  rw [htext, fromJSON_atom (htrim.trans hcons) hfirst, hnumeric, String.ofList_toList]
  rfl

/-- A value is read again as it was written exactly when it is restorable. -/
theorem roundTrips_iff {d : Data} (h : Plain d) : RoundTrips d ↔ Restorable d := by
  by_cases hcontainer : d.compound ≠ [] ∨ d.array ≠ []
  · have hatom : ¬ (d.compound = [] ∧ d.array = [] ∧ d.verbatim = false) := by
      rintro ⟨hc, ha, -⟩
      exact hcontainer.elim (absurd hc) (absurd ha)
    rw [Restorable, or_iff_right hatom, and_iff_right hcontainer]
    by_cases hclean : untabbed d = true
    · rw [RoundTrips, h.fromJSON_readable hcontainer hclean, and_iff_right hclean]
      have hsame := h.sameCount 0
      constructor
      · rintro ⟨d', hd', huntag⟩
        obtain rfl := Except.ok.inj hd'
        have := hsame.mp huntag
        omega
      · intro harrays
        exact ⟨_, rfl, hsame.mpr (by omega)⟩
    · obtain ⟨e, he⟩ := h.fromJSON_unreadable hcontainer hclean
      refine iff_of_false ?_ fun h => hclean h.1
      rintro ⟨d', hd', -⟩
      rw [he] at hd'
      cases hd'
  · rw [not_or, not_not, not_not] at hcontainer
    cases h with
    | text s h =>
      refine iff_of_false (not_roundTrips_text s) ?_
      rintro (⟨-, -, h⟩ | ⟨h, -⟩)
      · cases h
      · exact absurd h (by simp [Data.compound, Data.array])
    | integer s h => exact iff_of_true (roundTrips_integer h) (.inl ⟨rfl, rfl, rfl⟩)
    | compound verbatim members hne => exact absurd hcontainer.1 hne
    | array verbatim items hne => exact absurd hcontainer.2 hne

/-- An array of two arrays. -/
def nestedArrays : Data :=
  mk "" false [] [(0, mk "" false [] [(0, mk "1" false [] [])]), (1, mk "" false [] [(0, mk "2" false [] [])])]

theorem plain_nestedArrays : Plain nestedArrays := by
  have hitem : ∀ s, isInteger (String.toList s) = true → Plain (mk "" false [] [(0, mk s false [] [])]) := by
    intro s hs
    refine .array false _ (by simp) rfl ?_
    rintro i hi
    obtain rfl := List.mem_singleton.mp hi
    exact .integer s hs
  refine .array false _ (by simp) rfl ?_
  intro i hi
  rcases List.mem_cons.mp hi with rfl | hi
  · exact hitem "1" (by decide)
  · obtain rfl := List.mem_singleton.mp hi
    exact hitem "2" (by decide)

/-- The inner arrays come back with other indices. -/
theorem nestedArrays_differ : Plain nestedArrays ∧ ¬ RoundTrips nestedArrays := by
  refine ⟨plain_nestedArrays, ?_⟩
  rintro ⟨d', hd', huntag⟩
  have hread : fromJSON (toJSON nestedArrays) =
      .ok (mk "" false [] [(0, mk "" false [] [(1, mk "1" false [] [])]), (2, mk "" false [] [(3, mk "2" false [] [])])]) :=
    rfl
  rw [hread] at hd'
  obtain rfl := Except.ok.inj hd'
  simp [nestedArrays, untag, untagItems, untagMembers] at huntag

def greeting : Data := mk "" true [("a", mk "x\ty" true [] []), ("b", mk "" true [] [(0, mk "-7" false [] [])])] []

theorem plain_greeting : Plain greeting := by
  refine .compound true _ (by simp) (by decide) (by decide) ?_
  intro m hm
  rcases List.mem_cons.mp hm with rfl | hm
  · exact .text _ (by decide)
  · obtain rfl := List.mem_singleton.mp hm
    refine .array true _ (by simp) rfl ?_
    intro i hi
    obtain rfl := List.mem_singleton.mp hi
    exact .integer _ (by decide)

theorem roundTrips_greeting : RoundTrips greeting :=
  (roundTrips_iff plain_greeting).mpr (.inr ⟨.inl (by simp [greeting, compound]), by decide, by decide⟩)

end Data

end Uscxml
