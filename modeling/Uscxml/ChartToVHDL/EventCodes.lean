import Uscxml.EventTrie
import Mathlib.Data.Nat.Log

/-!
# Events in hardware

`ChartToVHDL` gives each known event a signal, whose name `escapeMacro` makes of the name of the event, and a code, which
`toBinStr` makes of its place in `_eventNames`. The event controller writes codes on the bus, and the event handler reads
them back to set the signals.
-/

namespace Uscxml

namespace ChartToVHDL

/-! ### Signals -/

/-- The characters that `escapeMacro` keeps. -/
def isMacroChar (c : Char) : Bool :=
  ('0' ≤ c && c ≤ '9') || ('A' ≤ c && c ≤ 'Z') || ('a' ≤ c && c ≤ 'z') || c = '_'

/-- A round of the loop of `escapeMacro`. -/
def escapeRound (acc : List Char × List Char) (c : Char) : List Char × List Char :=
  if isMacroChar c then (acc.1 ++ [c], acc.2) else (acc.1, acc.2 ++ [c])

/-- The character that a number becomes when it is appended to a `std::string`. -/
def charOf (n : Nat) : Char := Char.ofNat (n % 256)

/-- `escapeMacro` with the function `std::hash`. -/
def escapeMacro (strHash : List Char → Nat) (s : List Char) : List Char :=
  let (returnValue, specialChars) := s.foldl escapeRound ([], [])
  if specialChars.isEmpty then returnValue else returnValue ++ ['_'] ++ [charOf (strHash specialChars)]

def eventSignal (strHash : List Char → Nat) (eventName : List Char) : List Char :=
  "event_".toList ++ escapeMacro strHash eventName ++ "_sig".toList

/-- The assignments of `writeInternalEventHandler` for an event that is dequeued. -/
def eventBranch (strHash : List Char → Nat) (eventNames : List (List Char)) (eventName : List Char) : List (List Char × Bool) :=
  eventNames.map fun other =>
    (eventSignal strHash other, decide (escapeMacro strHash eventName = escapeMacro strHash other))

/-- Different events have different signals, which have legal names, and the handler sets the signal of the event only. -/
structure ProperSignals (strHash : List Char → Nat) (eventNames : List (List Char)) : Prop where
  distinct : ∀ w ∈ eventNames, ∀ w' ∈ eventNames, w ≠ w' → eventSignal strHash w ≠ eventSignal strHash w'
  legal : ∀ w ∈ eventNames, ∀ c ∈ eventSignal strHash w, isMacroChar c = true
  alone : ∀ w ∈ eventNames, ∀ w' ∈ eventNames, (eventSignal strHash w', true) ∈ eventBranch strHash eventNames w → w' = w

/-- What `escapeMacro` drops. -/
def specialChars (s : List Char) : List Char := s.filter fun c => !isMacroChar c

theorem escapeMacro_eq (strHash : List Char → Nat) (s : List Char) :
    escapeMacro strHash s =
      s.filter isMacroChar ++ if specialChars s = [] then [] else ['_', charOf (strHash (specialChars s))] := by
  have hfold : ∀ (s : List Char) (acc : List Char × List Char),
      s.foldl escapeRound acc = (acc.1 ++ s.filter isMacroChar, acc.2 ++ specialChars s) := by
    intro s
    induction s with
    | nil => simp [specialChars]
    | cons c s ih =>
      intro acc
      rw [List.foldl_cons, ih, escapeRound]
      by_cases hc : isMacroChar c = true <;> simp [hc, specialChars]
  rw [escapeMacro, hfold]
  by_cases hspecial : specialChars s = [] <;> simp [hspecial]

theorem eventSignal_inj {strHash : List Char → Nat} {w w' : List Char} :
    eventSignal strHash w = eventSignal strHash w' ↔ escapeMacro strHash w = escapeMacro strHash w' := by
  constructor
  · intro h
    exact List.append_cancel_left (List.append_cancel_right h)
  · intro h
    exact congrArg (fun escaped => "event_".toList ++ escaped ++ "_sig".toList) h

theorem specialChars_eq_nil_iff {s : List Char} : specialChars s = [] ↔ ∀ c ∈ s, isMacroChar c = true := by
  simp [specialChars]

theorem escapeMacro_of_plain {strHash : List Char → Nat} {s : List Char} (h : specialChars s = []) :
    escapeMacro strHash s = s := by
  rw [escapeMacro_eq, if_pos h, List.append_nil, List.filter_eq_self]
  exact specialChars_eq_nil_iff.mp h

theorem escapeMacro_of_special {strHash : List Char → Nat} {s : List Char} (h : specialChars s ≠ []) :
    escapeMacro strHash s = s.filter isMacroChar ++ ['_', charOf (strHash (specialChars s))] := by
  rw [escapeMacro_eq, if_neg h]

/-- The characters of a name that is escaped are legal where the one of the hash is. -/
theorem isMacroChar_of_mem_escaped {s : List Char} {hash : Char} (h : isMacroChar hash = true) :
    ∀ c ∈ s.filter isMacroChar ++ ['_', hash], isMacroChar c = true := by
  intro c hc
  rcases List.mem_append.mp hc with hc | hc
  · exact (List.mem_filter.mp hc).2
  · obtain rfl | rfl := List.mem_pair.mp hc
    · decide
    · exact h

/-- Signals are set alone if they are different. -/
theorem properSignals_iff {strHash : List Char → Nat} {eventNames : List (List Char)} :
    ProperSignals strHash eventNames ↔
      (∀ w ∈ eventNames, ∀ w' ∈ eventNames, escapeMacro strHash w = escapeMacro strHash w' → w = w') ∧
        ∀ w ∈ eventNames, specialChars w ≠ [] → isMacroChar (charOf (strHash (specialChars w))) = true := by
  constructor
  · intro h
    constructor
    · intro w hw w' hw' heq
      by_contra hne
      exact h.distinct w hw w' hw' hne (eventSignal_inj.mpr heq)
    · intro w hw hspecial
      have hchar : charOf (strHash (specialChars w)) ∈ escapeMacro strHash w := by
        rw [escapeMacro_of_special hspecial]
        simp
      exact h.legal w hw _ (List.mem_append_left _ (List.mem_append_right _ hchar))
  · rintro ⟨hdistinct, hlegal⟩
    constructor
    · intro w hw w' hw' hne heq
      exact hne (hdistinct w hw w' hw' (eventSignal_inj.mp heq))
    · intro w hw c hc
      have hfront : "event_".toList.all isMacroChar = true := by decide +kernel
      have hback : "_sig".toList.all isMacroChar = true := by decide +kernel
      obtain (hc | hc) | hc := (List.mem_append.mp hc).imp_left List.mem_append.mp
      · exact List.all_eq_true.mp hfront c hc
      · by_cases hspecial : specialChars w = []
        · rw [escapeMacro_of_plain hspecial] at hc
          exact specialChars_eq_nil_iff.mp hspecial c hc
        · rw [escapeMacro_of_special hspecial] at hc
          exact isMacroChar_of_mem_escaped (hlegal w hw hspecial) c hc
      · exact List.all_eq_true.mp hback c hc
    · intro w hw w' hw' hset
      obtain ⟨other, hother, heq⟩ := List.mem_map.mp hset
      obtain ⟨hsignal, hsame⟩ := Prod.mk.inj heq
      have hescaped := (of_decide_eq_true hsame).trans (eventSignal_inj.mp hsignal)
      exact (hdistinct w hw w' hw' hescaped).symm

/-- A plain name, or what two names with special characters keep and the character of their hashes, is taken once. -/
def Apart (strHash : List Char → Nat) (eventNames : List (List Char)) : Prop :=
  (∀ w ∈ eventNames, ∀ w' ∈ eventNames, specialChars w ≠ [] → specialChars w' ≠ [] →
    w.filter isMacroChar = w'.filter isMacroChar →
    charOf (strHash (specialChars w)) = charOf (strHash (specialChars w')) → w = w') ∧
    ∀ w ∈ eventNames, specialChars w ≠ [] →
      w.filter isMacroChar ++ ['_', charOf (strHash (specialChars w))] ∉ eventNames

theorem distinct_iff_apart {strHash : List Char → Nat} {eventNames : List (List Char)}
    (hlegal : ∀ w ∈ eventNames, specialChars w ≠ [] → isMacroChar (charOf (strHash (specialChars w))) = true) :
    (∀ w ∈ eventNames, ∀ w' ∈ eventNames, escapeMacro strHash w = escapeMacro strHash w' → w = w') ↔
      Apart strHash eventNames := by
  constructor
  · intro hdistinct
    constructor
    · intro w hw w' hw' hspecial hspecial' hkept hhash
      apply hdistinct w hw w' hw'
      rw [escapeMacro_of_special hspecial, escapeMacro_of_special hspecial', hkept, hhash]
    · intro w hw hspecial hmem
      have hplain : specialChars (escapeMacro strHash w) = [] := by
        rw [escapeMacro_of_special hspecial, specialChars_eq_nil_iff]
        exact isMacroChar_of_mem_escaped (hlegal w hw hspecial)
      rw [← escapeMacro_of_special hspecial] at hmem
      have hsame := hdistinct w hw _ hmem (escapeMacro_of_plain hplain).symm
      rw [← hsame] at hplain
      exact hspecial hplain
  · rintro ⟨hspecials, hplains⟩ w hw w' hw' heq
    by_cases hspecial : specialChars w = [] <;> by_cases hspecial' : specialChars w' = []
    · rw [escapeMacro_of_plain hspecial, escapeMacro_of_plain hspecial'] at heq
      exact heq
    · rw [escapeMacro_of_plain hspecial, escapeMacro_of_special hspecial'] at heq
      exact absurd (heq ▸ hw) (hplains w' hw' hspecial')
    · rw [escapeMacro_of_special hspecial, escapeMacro_of_plain hspecial'] at heq
      exact absurd (heq ▸ hw') (hplains w hw hspecial)
    · rw [escapeMacro_of_special hspecial, escapeMacro_of_special hspecial'] at heq
      obtain ⟨hkept, hhash⟩ := List.append_inj' heq rfl
      have hchar := (List.cons.inj (List.cons.inj hhash).2).1
      exact hspecials w hw w' hw' hspecial hspecial' hkept hchar

/-- Whatever function `std::hash` is, the signals are proper exactly when the names are. With one function they may be proper
by chance: then its characters are legal ones and tell the names apart. -/
theorem properSignals_eventTrie_iff (words : List (List Char)) :
    ((∀ strHash, ProperSignals strHash (eventTrie words).words) ↔
        ∀ w ∈ (eventTrie words).words, ∀ c ∈ w, isMacroChar c = true) ∧
      ∀ strHash, ProperSignals strHash (eventTrie words).words ↔
        (∀ w ∈ (eventTrie words).words, specialChars w ≠ [] → isMacroChar (charOf (strHash (specialChars w))) = true) ∧
          Apart strHash (eventTrie words).words := by
  constructor
  · constructor
    · intro hall w hw
      rw [← specialChars_eq_nil_iff]
      by_contra hspecial
      -- the number of a dot
      have hlegal := (properSignals_iff.mp (hall fun _ => 46)).2 w hw hspecial
      exact absurd hlegal (by decide)
    · intro hplain strHash
      have hnone : ∀ w ∈ (eventTrie words).words, specialChars w = [] :=
        fun w hw => specialChars_eq_nil_iff.mpr (hplain w hw)
      rw [properSignals_iff]
      constructor
      · intro w hw w' hw' heq
        rw [escapeMacro_of_plain (hnone w hw), escapeMacro_of_plain (hnone w' hw')] at heq
        exact heq
      · intro w hw hspecial
        exact absurd (hnone w hw) hspecial
  · intro strHash
    rw [properSignals_iff, and_comm]
    exact and_congr_right distinct_iff_apart

/-- Where a dot stood is not recorded. -/
theorem dot_forgotten :
    ¬ ∃ strHash, ProperSignals strHash (eventTrie [['a', '.', 'b', 'c'], ['a', 'b', '.', 'c']]).words := by
  rintro ⟨strHash, h⟩
  have hwords : (eventTrie [['a', '.', 'b', 'c'], ['a', 'b', '.', 'c']]).words = [['a', '.', 'b', 'c'], ['a', 'b', '.', 'c']] := by
    decide +kernel
  rw [hwords] at h
  have hkept : ['a', '.', 'b', 'c'].filter isMacroChar = ['a', 'b', '.', 'c'].filter isMacroChar := by decide
  have hspecial : specialChars ['a', '.', 'b', 'c'] = ['.'] := by decide
  have hspecial' : specialChars ['a', 'b', '.', 'c'] = ['.'] := by decide
  have hsame : escapeMacro strHash ['a', '.', 'b', 'c'] = escapeMacro strHash ['a', 'b', '.', 'c'] := by
    rw [escapeMacro_eq, escapeMacro_eq, hspecial, hspecial', hkept]
  exact h.distinct _ List.mem_cons_self _ (by simp) (by decide) (eventSignal_inj.mpr hsame)

/-! ### Codes -/

/-- The first loop of `toBinStr`, which skips bits that are not set. The mask is a power of two, here with the number of bits
up to its own, and none when the bit has been shifted out. -/
def skipBits (val : Nat) : Nat → Nat
  | 0 => 0
  | n + 1 => if val &&& 2 ^ n = 0 then skipBits val n else n + 1

/-- `static_cast<char>(val & mask) + '0'`, appended to a `std::string`. -/
def digitOf (masked : Nat) : Char := charOf (masked % 256 + 48)

/-- The second loop, from a mask on. -/
def digits (val : Nat) : Nat → List Char
  | 0 => []
  | n + 1 => digitOf (val &&& 2 ^ n) :: digits val n

/-- The loop that fills with zeros, in its `i`-th round. The first number bounds the rounds. -/
def fillLoop (margin : Nat) : Nat → Nat → List Char → List Char
  | 0, _, binStr => binStr
  | n + 1, i, binStr => if i < margin - binStr.length then fillLoop margin n (i + 1) ('0' :: binStr) else binStr

/-- `toBinStr`. The second loop has one round for a mask of zero too. -/
def toBinStr (val margin : Nat) : List Char :=
  let mask := skipBits val 32
  let binStr := if mask = 0 then [digitOf (val &&& 0)] else digits val mask
  if binStr.length < margin then fillLoop margin margin 0 binStr else binStr

/-- `_eventBitSize`: the logarithm of the number of events, rounded up. -/
def eventBitSize (eventNames : List (List Char)) : Nat := Nat.clog 2 eventNames.length

def eventCode (eventNames : List (List Char)) (j : Nat) : List Char := toBinStr j (eventBitSize eventNames + 1)

/-- The code `writeEventController` puts on the bus for an element of executable content with an `event` attribute. -/
def encode (eventNames : List (List Char)) (event : List Char) : List Char := eventCode eventNames (eventNames.idxOf event)

/-- The event that `writeInternalEventHandler` takes a code for. -/
def decode (eventNames : List (List Char)) (code : List Char) : Option (List Char) :=
  (eventNames.zipIdx.find? fun branch => eventCode eventNames branch.2 = code).map (·.1)

def binValue (code : List Char) : Nat := code.foldl (fun n c => 2 * n + if c = '1' then 1 else 0) 0

/-- The codes are binary numerals of the width of the bus, each of its own event, and what content raises or sends is decoded
as what it is. -/
structure ProperCodes (eventNames execContent : List (List Char)) : Prop where
  binary : ∀ j < eventNames.length, ∀ c ∈ eventCode eventNames j, c = '0' ∨ c = '1'
  width : ∀ j < eventNames.length, (eventCode eventNames j).length = eventBitSize eventNames + 1
  numeral : ∀ j < eventNames.length, binValue (eventCode eventNames j) = j
  distinct : ∀ i < eventNames.length, ∀ j < eventNames.length, eventCode eventNames i = eventCode eventNames j → i = j
  decoded : ∀ event ∈ execContent, decode eventNames (encode eventNames event) = some event

/-- Only half of what is missing is filled: the bound shrinks while the string grows. -/
theorem fillLoop_eq (margin n i : Nat) (binStr : List Char) (h : margin - binStr.length - i ≤ n) :
    fillLoop margin n i binStr = List.replicate ((margin - binStr.length - i + 1) / 2) '0' ++ binStr := by
  induction n generalizing i binStr with
  | zero =>
    have hnone : (margin - binStr.length - i + 1) / 2 = 0 := by omega
    rw [fillLoop, hnone]
    rfl
  | succ n ih =>
    rw [fillLoop]
    split
    · rename_i hround
      have hlength : ('0' :: binStr).length = binStr.length + 1 := List.length_cons
      have hhalf : (margin - binStr.length - i + 1) / 2 = (margin - (binStr.length + 1) - (i + 1) + 1) / 2 + 1 := by omega
      rw [ih (i + 1) ('0' :: binStr) (by omega), hlength, hhalf, List.replicate_succ', List.append_assoc]
      rfl
    · rename_i hround
      have hnone : (margin - binStr.length - i + 1) / 2 = 0 := by omega
      rw [hnone]
      rfl

theorem length_toBinStr_zero (margin : Nat) (h : 1 < margin) : (toBinStr 0 margin).length = margin / 2 + 1 := by
  have hmask : skipBits 0 32 = 0 := by decide
  have hshort : [digitOf (0 &&& 0)].length < margin := h
  rw [toBinStr, hmask, if_pos rfl, if_pos hshort, fillLoop_eq _ _ _ _ (by omega), List.length_append, List.length_replicate]
  simp only [List.length_cons, List.length_nil]
  omega

theorem le_two_of_width {eventNames : List (List Char)}
    (h : ∀ j < eventNames.length, (eventCode eventNames j).length = eventBitSize eventNames + 1) : eventNames.length ≤ 2 := by
  by_contra hmany
  have hbits : 1 < eventBitSize eventNames := by
    rw [eventBitSize, Nat.lt_clog_iff_pow_lt (by decide)]
    omega
  have hzero := h 0 (by omega)
  rw [eventCode, length_toBinStr_zero _ (by omega)] at hzero
  omega

theorem mem_of_decode {eventNames : List (List Char)} {code event : List Char} (h : decode eventNames code = some event) :
    event ∈ eventNames := by
  obtain ⟨branch, hfind, rfl⟩ := Option.map_eq_some_iff.mp h
  obtain ⟨-, -, heq⟩ := List.mem_zipIdx (List.mem_of_find?_eq_some hfind)
  rw [heq]
  exact List.getElem_mem _

theorem decode_encode {eventNames : List (List Char)} {event : List Char} (hmem : event ∈ eventNames)
    (hdistinct : ∀ i < eventNames.length, ∀ j < eventNames.length, eventCode eventNames i = eventCode eventNames j → i = j) :
    decode eventNames (encode eventNames event) = some event := by
  have hlt := List.idxOf_lt_length_of_mem hmem
  have hplace : (event, eventNames.idxOf event) ∈ eventNames.zipIdx := by
    rw [List.mk_mem_zipIdx_iff_getElem?, List.getElem?_eq_getElem hlt, List.getElem_idxOf]
  rw [decode, encode]
  cases hfind : eventNames.zipIdx.find? fun branch =>
      eventCode eventNames branch.2 = eventCode eventNames (eventNames.idxOf event) with
  | none =>
    have hno := List.find?_eq_none.mp hfind _ hplace
    simp at hno
  | some branch =>
    obtain ⟨w, j⟩ := branch
    have hcode : eventCode eventNames j = eventCode eventNames (eventNames.idxOf event) := by
      have hfound := List.find?_some hfind
      exact of_decide_eq_true hfound
    have hbranch := List.mem_of_find?_eq_some hfind
    rw [List.mk_mem_zipIdx_iff_getElem?] at hbranch
    obtain ⟨hj, hw⟩ := List.getElem?_eq_some_iff.mp hbranch
    obtain rfl : j = eventNames.idxOf event := hdistinct j hj _ hlt hcode
    rw [List.getElem_idxOf] at hw
    rw [hw]
    rfl

theorem toBinStr_small : ∀ bits ≤ 1, ∀ j ≤ bits,
    (toBinStr j (bits + 1)).all (fun c => c = '0' || c = '1') = true ∧ (toBinStr j (bits + 1)).length = bits + 1 ∧
      binValue (toBinStr j (bits + 1)) = j := by
  decide +kernel

theorem eventBitSize_small {eventNames : List (List Char)} (hpos : 0 < eventNames.length) (hfew : eventNames.length ≤ 2) :
    eventNames.length = eventBitSize eventNames + 1 := by
  obtain h | h : eventNames.length = 1 ∨ eventNames.length = 2 := by omega
  · rw [eventBitSize, h]
    rfl
  · rw [eventBitSize, h]
    decide

/-- The codes are proper exactly when there are two events at most and content raises and sends none but these. -/
theorem properCodes_iff (words execContent : List (List Char)) (hpos : 0 < (eventTrie words).words.length) :
    ProperCodes (eventTrie words).words execContent ↔
      (eventTrie words).words.length ≤ 2 ∧ ∀ event ∈ execContent, event ∈ (eventTrie words).words := by
  set eventNames := (eventTrie words).words
  constructor
  · intro h
    refine ⟨le_two_of_width h.width, ?_⟩
    intro event hevent
    exact mem_of_decode (h.decoded event hevent)
  · rintro ⟨hfew, hknown⟩
    have hbits := eventBitSize_small hpos hfew
    have hsmall : ∀ j < eventNames.length, (eventCode eventNames j).all (fun c => c = '0' || c = '1') = true ∧
        (eventCode eventNames j).length = eventBitSize eventNames + 1 ∧ binValue (eventCode eventNames j) = j :=
      fun j hj => toBinStr_small (eventBitSize eventNames) (by omega) j (by omega)
    have hdistinct : ∀ i < eventNames.length, ∀ j < eventNames.length,
        eventCode eventNames i = eventCode eventNames j → i = j := by
      intro i hi j hj hsame
      calc i = binValue (eventCode eventNames i) := (hsmall i hi).2.2.symm
        _ = binValue (eventCode eventNames j) := congrArg binValue hsame
        _ = j := (hsmall j hj).2.2
    constructor
    · intro j hj c hc
      have hall := List.all_eq_true.mp (hsmall j hj).1 c hc
      rw [Bool.or_eq_true] at hall
      exact hall.imp of_decide_eq_true of_decide_eq_true
    · exact fun j hj => (hsmall j hj).2.1
    · exact fun j hj => (hsmall j hj).2.2
    · exact hdistinct
    · exact fun event hevent => decode_encode (hknown event hevent) hdistinct

/-- Of a single event, which is sent. -/
theorem properCodes_single :
    ProperCodes (eventTrie [['e']]).words [['e']] :=
  (properCodes_iff [['e']] [['e']] (by decide)).mpr ⟨by decide, by decide⟩

/-- The code of the third event is no numeral of zeros and ones. -/
theorem third_code_not_binary : ¬ ProperCodes (eventTrie [['a'], ['b'], ['c']]).words [] := by
  intro h
  have hcode : eventCode (eventTrie [['a'], ['b'], ['c']]).words 2 = ['0', '2', '0'] := by decide +kernel
  have hbinary := h.binary 2 (by decide +kernel) '2' (by rw [hcode]; decide)
  exact absurd hbinary (by decide)

end ChartToVHDL

end Uscxml
