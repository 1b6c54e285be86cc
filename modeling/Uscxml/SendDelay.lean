import Uscxml.EventDescriptors
import Uscxml.Lib.Binary64

/-!
# Delays of `<send>`

`NumAttr` splits the text of a delay into a number and a unit. `BasicContentExecutor::processSend` computes with seconds in
double precision and ignores the case of the unit; `ChartToC` reads whole numbers only and knows the unit `s` in lower
case. A `double` that is too large for `uint32_t` has no defined conversion, which is `none`. A text without a number is read
as zero; of an empty one the source takes a variable that nothing has been written to.
-/

namespace Uscxml

/-! ### Texts -/

def findFirstOf (p : Char → Bool) (str : List Char) : Option Nat := str.findIdx? p

def findLastOf (p : Char → Bool) (str : List Char) : Option Nat :=
  (str.reverse.findIdx? p).map fun k => str.length - 1 - k

def findFirstNotOf (p : Char → Bool) (pos : Nat) (str : List Char) : Option Nat :=
  ((str.drop pos).findIdx? fun c => !p c).map (· + pos)

theorem findFirstOf_append {p : Char → Bool} {a : List Char} (ha : ∀ c ∈ a, p c = false) {c : Char} (hc : p c = true)
    (b : List Char) : findFirstOf p (a ++ c :: b) = some a.length := by
  have hnone : a.findIdx? p = none := List.findIdx?_eq_none_iff.mpr ha
  rw [findFirstOf, List.findIdx?_append, hnone, List.findIdx?_cons, if_pos hc]
  simp

theorem findLastOf_append {p : Char → Bool} (a : List Char) {c : Char} (hc : p c = true) {b : List Char}
    (hb : ∀ c ∈ b, p c = false) : findLastOf p (a ++ c :: b) = some a.length := by
  have hfirst := findFirstOf_append (fun c hc => hb c (List.mem_reverse.mp hc)) hc a.reverse
  rw [findFirstOf] at hfirst
  rw [findLastOf, List.reverse_append, List.reverse_cons, List.append_assoc, List.singleton_append, hfirst,
    Option.map_some, List.length_append, List.length_cons, List.length_reverse]
  congr 1
  omega

/-- The last character of a kind is not among those behind which are of another. -/
theorem findLastOf_lt {p : Char → Bool} (a : List Char) {b : List Char} (hb : ∀ c ∈ b, p c = false) {k : Nat}
    (h : findLastOf p (a ++ b) = some k) : k < a.length := by
  obtain ⟨n, hn, rfl⟩ := Option.map_eq_some_iff.mp h
  have hnone : b.reverse.findIdx? p = none :=
    List.findIdx?_eq_none_iff.mpr fun c hc => hb c (List.mem_reverse.mp hc)
  rw [List.reverse_append, List.findIdx?_append, hnone, Option.none_or] at hn
  obtain ⟨i, hi, rfl⟩ := Option.map_eq_some_iff.mp hn
  have hlt := (List.findIdx?_eq_some_iff_getElem.mp hi).1
  rw [List.length_reverse] at hlt
  rw [List.length_append, List.length_reverse]
  omega

/-! ### Numbers with a unit -/

def isNumberChar (c : Char) : Bool := c = '.' || c.isDigit

def isBlank (c : Char) : Bool := c = ' ' || c = '\t'

structure NumAttr where
  value : List Char := []
  unit : List Char := []
  deriving DecidableEq, Repr

/-- The unit from its first character on: up to the last blank of the text, where that comes behind it. -/
def unitFrom (unitStart : Nat) (str : List Char) : List Char :=
  match findLastOf isBlank str with
  | none => substr unitStart (str.length - unitStart) str
  | some unitEnd =>
    if unitStart < unitEnd then substr unitStart (unitEnd - unitStart) str
    else substr unitStart (str.length - unitStart) str

def numAttr (str : List Char) : NumAttr :=
  match findFirstOf isNumberChar str, findLastOf isNumberChar str with
  | some valueStart, some valueEnd =>
    { value := substr valueStart (valueEnd - valueStart + 1) str
      unit := (findFirstNotOf isBlank (valueEnd + 1) str).elim [] fun unitStart => unitFrom unitStart str }
  | _, _ => {}

theorem unitFrom_append (front : List Char) {unit : List Char} (hne : unit ≠ []) (hunit : ∀ c ∈ unit, isBlank c = false)
    {behind : List Char} (hbehind : ∀ c ∈ behind, isBlank c = true) :
    unitFrom front.length (front ++ (unit ++ behind)) = unit ++ behind.dropLast := by
  have hall : substr front.length ((front ++ (unit ++ behind)).length - front.length) (front ++ (unit ++ behind)) =
      unit ++ behind := by
    rw [List.length_append, Nat.add_sub_cancel_left, substr, List.drop_left, List.take_length]
  rw [unitFrom, hall]
  rcases List.eq_nil_or_concat' behind with rfl | ⟨behind, b, rfl⟩
  · -- The last blank, if there is one, stands before the unit.
    cases hblank : findLastOf isBlank (front ++ (unit ++ [])) with
    | none => rfl
    | some unitEnd =>
      have hlt : unitEnd < front.length := by
        rw [List.append_nil] at hblank
        exact findLastOf_lt _ hunit hblank
      show (if _ then _ else _) = _
      rw [if_neg (by omega)]
      rfl
  · have hb : isBlank b = true := hbehind b (List.mem_append_right _ List.mem_cons_self)
    have hsplit : front ++ (unit ++ (behind ++ [b])) = (front ++ (unit ++ behind)) ++ b :: [] := by simp
    have hblank : findLastOf isBlank (front ++ (unit ++ (behind ++ [b]))) = some (front ++ (unit ++ behind)).length := by
      rw [hsplit]
      exact findLastOf_append _ hb (List.forall_mem_nil _)
    have hpos : 0 < unit.length := List.length_pos_of_ne_nil hne
    rw [hblank, List.dropLast_concat]
    show (if _ then _ else _) = _
    rw [List.length_append, List.length_append, if_pos (by omega), Nat.add_sub_cancel_left, ← List.length_append, substr,
      hsplit, List.append_assoc, List.drop_left, List.take_left]

/-- The units in any letter case, and none. -/
def delayUnits : List (List Char) := [[], ['s'], ['S'], ['m', 's'], ['m', 'S'], ['M', 's'], ['M', 'S']]

/-- A delay: a decimal number and a unit with blanks before, between and behind them. -/
structure DelayText where
  before : List Char := []
  whole : List Char
  fraction : Option (List Char) := none
  between : List Char := []
  unit : List Char
  behind : List Char := []
  blanks : ∀ c ∈ before ++ between ++ behind, isBlank c = true
  digits : ∀ c ∈ whole ++ fraction.getD [], c.isDigit = true
  number_ne_nil : whole ++ fraction.getD [] ≠ []
  unit_mem : unit ∈ delayUnits

namespace DelayText

def number (t : DelayText) : List Char := t.whole ++ t.fraction.elim [] ('.' :: ·)

def text (t : DelayText) : List Char := t.before ++ t.number ++ t.between ++ t.unit ++ t.behind

end DelayText

theorem isNumberChar_of_isBlank {c : Char} (h : isBlank c = true) : isNumberChar c = false := by
  rcases Bool.or_eq_true_iff.mp h with h | h
  · rw [of_decide_eq_true h]
    decide
  · rw [of_decide_eq_true h]
    decide

namespace DelayText

variable (t : DelayText)

theorem isBlank_before {c : Char} (h : c ∈ t.before) : isBlank c = true :=
  t.blanks c (List.mem_append_left _ (List.mem_append_left _ h))

theorem isBlank_between {c : Char} (h : c ∈ t.between) : isBlank c = true :=
  t.blanks c (List.mem_append_left _ (List.mem_append_right _ h))

theorem isBlank_behind {c : Char} (h : c ∈ t.behind) : isBlank c = true := t.blanks c (List.mem_append_right _ h)

theorem unit_chars {c : Char} (h : c ∈ t.unit) : isBlank c = false ∧ isNumberChar c = false := by
  have hall : (delayUnits.all fun u => u.all fun c => !isBlank c && !isNumberChar c) = true := by decide
  have hchar := List.all_eq_true.mp (List.all_eq_true.mp hall t.unit t.unit_mem) c h
  rw [Bool.and_eq_true, Bool.not_eq_true', Bool.not_eq_true'] at hchar
  exact hchar

theorem number_chars {c : Char} (h : c ∈ t.number) : isNumberChar c = true := by
  rw [number, List.mem_append] at h
  rw [isNumberChar, Bool.or_eq_true]
  rcases h with h | h
  · exact .inr (t.digits c (List.mem_append_left _ h))
  · cases hf : t.fraction with
    | none =>
      rw [hf] at h
      cases h
    | some fraction =>
      rw [hf] at h
      rcases List.mem_cons.mp h with rfl | h
      · exact .inl rfl
      · exact .inr (t.digits c (List.mem_append_right _ (by rw [hf]; exact h)))

theorem number_ne : t.number ≠ [] := by
  intro h
  obtain ⟨hwhole, hfraction⟩ := List.append_eq_nil_iff.mp h
  apply t.number_ne_nil
  rw [hwhole]
  cases hf : t.fraction with
  | none => rfl
  | some fraction =>
    rw [hf] at hfraction
    cases hfraction

theorem rest_chars {c : Char} (h : c ∈ t.between ++ (t.unit ++ t.behind)) : isNumberChar c = false := by
  rcases List.mem_append.mp h with h | h
  · exact isNumberChar_of_isBlank (t.isBlank_between h)
  · rcases List.mem_append.mp h with h | h
    · exact (t.unit_chars h).2
    · exact isNumberChar_of_isBlank (t.isBlank_behind h)

/-- The unit of a text, and all but one of the blanks behind it. -/
theorem numAttr_text : numAttr t.text = ⟨t.number, if t.unit = [] then [] else t.unit ++ t.behind.dropLast⟩ := by
  obtain ⟨c₀, number₀, hfirst⟩ := List.exists_cons_of_ne_nil t.number_ne
  obtain ⟨number₁, c₁, hlast⟩ := (List.eq_nil_or_concat' t.number).resolve_left t.number_ne
  have hc₀ : isNumberChar c₀ = true := t.number_chars (by rw [hfirst]; exact List.mem_cons_self)
  have hc₁ : isNumberChar c₁ = true := t.number_chars (by rw [hlast]; exact List.mem_append_right _ List.mem_cons_self)
  have hstart : findFirstOf isNumberChar t.text = some t.before.length := by
    rw [text, hfirst, List.append_assoc, List.append_assoc, List.append_assoc, List.cons_append]
    exact findFirstOf_append (fun c hc => isNumberChar_of_isBlank (t.isBlank_before hc)) hc₀ _
  have hend : findLastOf isNumberChar t.text = some (t.before.length + number₁.length) := by
    have hsplit : t.text = (t.before ++ number₁) ++ c₁ :: (t.between ++ (t.unit ++ t.behind)) := by
      rw [text, hlast]
      simp
    rw [hsplit, findLastOf_append _ hc₁ fun c hc => t.rest_chars hc, List.length_append]
  have hlength : t.number.length = number₁.length + 1 := by
    rw [hlast, List.length_append, List.length_singleton]
  have htext : t.text = (t.before ++ t.number) ++ (t.between ++ (t.unit ++ t.behind)) := by
    rw [text]
    simp
  have hprefix : (t.before ++ t.number).length = t.before.length + number₁.length + 1 := by
    rw [List.length_append, hlength]
    omega
  have hvalue : substr t.before.length (t.before.length + number₁.length - t.before.length + 1) t.text = t.number := by
    have hsub : t.before.length + number₁.length - t.before.length + 1 = t.number.length := by omega
    rw [substr, htext, List.append_assoc, List.drop_left, hsub, List.take_left]
  have hdrop : t.text.drop (t.before.length + number₁.length + 1) = t.between ++ (t.unit ++ t.behind) := by
    rw [htext, ← hprefix, List.drop_left]
  rw [numAttr, hstart, hend]
  simp only [hvalue]
  congr 1
  cases hunit : t.unit with
  | nil =>
    have hnone : findFirstNotOf isBlank (t.before.length + number₁.length + 1) t.text = none := by
      rw [findFirstNotOf, hdrop, hunit, List.nil_append, Option.map_eq_none_iff, List.findIdx?_eq_none_iff]
      intro c hc
      rcases List.mem_append.mp hc with hc | hc
      · rw [t.isBlank_between hc]
        rfl
      · rw [t.isBlank_behind hc]
        rfl
    rw [hnone, if_pos rfl, Option.elim_none]
  | cons u us =>
    have hu : isBlank u = false := (t.unit_chars (by rw [hunit]; exact List.mem_cons_self)).1
    have hunitStart : findFirstNotOf isBlank (t.before.length + number₁.length + 1) t.text =
        some ((t.before ++ t.number ++ t.between).length) := by
      have hidx : (t.between ++ (u :: us ++ t.behind)).findIdx? (fun c => !isBlank c) = some t.between.length :=
        findFirstOf_append (fun c hc => by rw [t.isBlank_between hc]; rfl) (by rw [hu]; rfl) (us ++ t.behind)
      rw [findFirstNotOf, hdrop, hunit, hidx, Option.map_some, List.length_append, hprefix, Nat.add_comm]
    have htail : t.text = (t.before ++ t.number ++ t.between) ++ (t.unit ++ t.behind) := by
      rw [text]
      simp
    rw [hunitStart, if_neg (List.cons_ne_nil u us), ← hunit, Option.elim_some, htail]
    exact unitFrom_append _ (by rw [hunit]; exact List.cons_ne_nil u us) (fun c hc => (t.unit_chars hc).1)
      fun c hc => t.isBlank_behind hc

/-- The split is the right one when there is no unit or at most one blank behind it. -/
theorem numAttr_text_iff : numAttr t.text = ⟨t.number, t.unit⟩ ↔ t.unit = [] ∨ t.behind.length ≤ 1 := by
  rw [numAttr_text, NumAttr.mk.injEq]
  by_cases hunit : t.unit = []
  · simp [hunit]
  · rw [if_neg hunit, or_iff_right hunit, and_iff_right rfl, List.append_right_eq_self, ← List.length_eq_zero_iff,
      List.length_dropLast]
    omega

end DelayText

/-! ### Milliseconds -/

def digitsValue (digits : List Char) : Nat := digits.foldl (fun n c => 10 * n + (c.toNat - '0'.toNat)) 0

/-- The digits at the front, which is what a stream reads into an integer. -/
def wholeNumber (value : List Char) : Nat := digitsValue (value.takeWhile Char.isDigit)

/-- `strTo<uint32_t>`. A number that is too large gives the largest one. -/
def strToUInt32 (value : List Char) : Nat := min (wholeNumber value) (2 ^ 32 - 1)

/-- `strTo<unsigned long>`. -/
def strToULong (value : List Char) : Nat := min (wholeNumber value) (2 ^ 64 - 1)

/-- The number that a stream reads into a `double`, before it is rounded. -/
def decimal (value : List Char) : ℚ :=
  let fraction :=
    match value.dropWhile Char.isDigit with
    | '.' :: rest => rest.takeWhile Char.isDigit
    | _ => []
  wholeNumber value + digitsValue fraction / 10 ^ fraction.length

/-- `strTo<double>`. -/
def strToDouble (value : List Char) : ℚ := Binary64.round (decimal value)

/-- The conversion of a `double` to `uint32_t`. -/
def toUInt32 (x : ℚ) : Option Nat := if x < 2 ^ 32 then some ⌊x⌋₊ else none

/-- The `delayMs` of `BasicContentExecutor::processSend`. -/
def processSendDelay (delay : List Char) : Option Nat :=
  if delay.length = 0 then some 0
  else
    let delayAttr := numAttr delay
    if Convenience.iequals delayAttr.unit ['m', 's'] then some (strToUInt32 delayAttr.value)
    else if Convenience.iequals delayAttr.unit ['s'] then toUInt32 (Binary64.round (strToDouble delayAttr.value * 1000))
    else if delayAttr.unit.length = 0 then some (strToUInt32 delayAttr.value)
    else some 0

/-- The `delay` that `ChartToC::writeElementInfo` writes. -/
def writeDelay (delay : List Char) : Nat :=
  let delayAttr := numAttr delay
  if delayAttr.unit = ['m', 's'] then strToULong delayAttr.value
  else if delayAttr.unit = ['s'] then strToULong delayAttr.value * 1000
  else strToULong delayAttr.value

namespace DelayText

variable (t : DelayText)

def value : ℚ := digitsValue t.whole + digitsValue (t.fraction.getD []) / 10 ^ (t.fraction.getD []).length

/-- The milliseconds of a delay. -/
def milliseconds : ℚ := if Convenience.iequals t.unit ['s'] then 1000 * t.value else t.value

/-- The milliseconds of a number of seconds, in double precision. -/
def doubleMs : ℚ := Binary64.round (Binary64.round t.value * 1000)

theorem takeWhile_number : t.number.takeWhile Char.isDigit = t.whole ∧
    t.number.dropWhile Char.isDigit = t.fraction.elim [] ('.' :: ·) := by
  have hwhole : ∀ c ∈ t.whole, c.isDigit = true := fun c hc => t.digits c (List.mem_append_left _ hc)
  rw [number, List.takeWhile_append_of_pos hwhole, List.dropWhile_append_of_pos hwhole]
  cases t.fraction with
  | none => exact ⟨List.append_nil _, rfl⟩
  | some fraction => exact ⟨List.append_nil _, rfl⟩

theorem wholeNumber_number : wholeNumber t.number = digitsValue t.whole := by
  rw [wholeNumber, t.takeWhile_number.1]

theorem decimal_number : decimal t.number = t.value := by
  have hdigits : ∀ c ∈ t.fraction.getD [], c.isDigit = true := fun c hc => t.digits c (List.mem_append_right _ hc)
  rw [decimal, wholeNumber_number, t.takeWhile_number.2, value]
  cases hf : t.fraction with
  | none => rfl
  | some fraction =>
    rw [hf] at hdigits
    have hall : fraction.takeWhile Char.isDigit = fraction := List.takeWhile_eq_self_iff.mpr hdigits
    simp only [Option.elim_some, Option.getD_some, hall]

theorem whole_le_value : (digitsValue t.whole : ℚ) ≤ t.value := by
  rw [value]
  exact le_add_of_nonneg_right (by positivity)

theorem whole_le_doubleMs (h : digitsValue t.whole < 2 ^ 32) (hpos : 0 < digitsValue t.whole) :
    ((digitsValue t.whole * 1000 : Nat) : ℚ) ≤ t.doubleMs := by
  have hwhole : (0 : ℚ) < digitsValue t.whole := by exact_mod_cast hpos
  have hvalue := t.whole_le_value
  have hround : (digitsValue t.whole : ℚ) ≤ Binary64.round t.value := by
    have := Binary64.le_round (m := digitsValue t.whole) (by omega) (k := 0) (by decide) (hwhole.trans_le hvalue)
      (by simpa using hvalue)
    simpa using this
  have hproduct : ((digitsValue t.whole * 1000 : Nat) : ℚ) ≤ Binary64.round t.value * 1000 := by
    push_cast
    exact mul_le_mul_of_nonneg_right hround (by norm_num)
  have := Binary64.le_round (m := digitsValue t.whole * 1000) (by omega) (k := 0) (by decide)
    (lt_of_lt_of_le (by exact_mod_cast Nat.mul_pos hpos (by decide)) hproduct) (by simpa using hproduct)
  simpa [doubleMs] using this

theorem text_length : t.text.length ≠ 0 := by
  intro h
  apply t.number_ne
  rw [text, List.length_eq_zero_iff] at h
  simp only [List.append_eq_nil_iff] at h
  exact h.1.1.1.2

end DelayText

theorem toUInt32_eq_some_iff {x : ℚ} {n : Nat} (hn : n < 2 ^ 32) (h : 0 < n → (n : ℚ) ≤ x) :
    toUInt32 x = some n ↔ x < n + 1 := by
  have hfloor : ⌊x⌋₊ = n ↔ x < n + 1 := by
    rcases Nat.eq_zero_or_pos n with rfl | hpos
    · simp
    · rw [Nat.floor_eq_iff' hpos.ne', and_iff_right (h hpos)]
  have hbound : ((n : ℚ) + 1) ≤ 2 ^ 32 := by exact_mod_cast hn
  rw [toUInt32]
  constructor
  · intro hx
    split at hx
    · exact hfloor.mp (Option.some.inj hx)
    · cases hx
  · intro hx
    rw [if_pos (hx.trans_le hbound), hfloor.mpr hx]

namespace DelayText

variable (t : DelayText)

theorem delays_of_split (hsplit : numAttr t.text = ⟨t.number, t.unit⟩) :
    processSendDelay t.text =
      (if Convenience.iequals t.unit ['m', 's'] then some (strToUInt32 t.number)
      else if Convenience.iequals t.unit ['s'] then toUInt32 t.doubleMs
      else if t.unit.length = 0 then some (strToUInt32 t.number) else some 0) ∧
    writeDelay t.text =
      (if t.unit = ['m', 's'] then strToULong t.number
      else if t.unit = ['s'] then strToULong t.number * 1000 else strToULong t.number) := by
  have hdouble : Binary64.round (strToDouble t.number * 1000) = t.doubleMs := by rw [strToDouble, decimal_number, doubleMs]
  constructor
  · rw [processSendDelay, if_neg t.text_length, hsplit, ← hdouble]
  · rw [writeDelay, hsplit]

/-- For delays below 2 ^ 32 milliseconds: the text is split into its number and its unit, and both delays are the same,
exactly when there is no unit; or there is at most one blank behind the unit, and this is milliseconds, or `s` with less
than a millisecond beyond whole seconds, or `S` with less than a millisecond at all, as far as doubles can tell. -/
theorem delays_agree_iff (h : t.milliseconds < 2 ^ 32) :
    (numAttr t.text = ⟨t.number, t.unit⟩ ∧ processSendDelay t.text = some (writeDelay t.text)) ↔
      t.unit = [] ∨ t.behind.length ≤ 1 ∧ (t.unit.length = 2 ∨
        t.unit = ['s'] ∧ t.doubleMs < digitsValue t.whole * 1000 + 1 ∨ t.unit = ['S'] ∧ t.doubleMs < 1) := by
  have hvalue := t.whole_le_value
  have hwhole : wholeNumber t.number < 2 ^ 32 := by
    rw [wholeNumber_number]
    rw [milliseconds] at h
    have hnonneg : (0 : ℚ) ≤ digitsValue t.whole := by positivity
    have hlt : (digitsValue t.whole : ℚ) < 2 ^ 32 := by
      split at h <;> linarith
    exact_mod_cast hlt
  have hlong : strToULong t.number = digitsValue t.whole := by
    rw [strToULong, wholeNumber_number, Nat.min_eq_left]
    rw [wholeNumber_number] at hwhole
    omega
  have hint : strToUInt32 t.number = digitsValue t.whole := by
    rw [strToUInt32, wholeNumber_number, Nat.min_eq_left]
    rw [wholeNumber_number] at hwhole
    omega
  rw [wholeNumber_number] at hwhole
  by_cases hsplit : numAttr t.text = ⟨t.number, t.unit⟩
  · rw [and_iff_right hsplit, (t.delays_of_split hsplit).1, (t.delays_of_split hsplit).2, hlong, hint]
    have hblanks := t.numAttr_text_iff.mp hsplit
    have hunit := t.unit_mem
    simp only [delayUnits, List.mem_cons, List.not_mem_nil, or_false] at hunit
    have hseconds : Convenience.iequals t.unit ['s'] = true → digitsValue t.whole * 1000 < 2 ^ 32 := by
      intro hs
      rw [milliseconds, if_pos hs] at h
      have hlt : ((digitsValue t.whole * 1000 : Nat) : ℚ) < 2 ^ 32 := by
        push_cast
        linarith
      exact_mod_cast hlt
    rcases hunit with hunit | hunit | hunit | hunit | hunit | hunit | hunit
    · rw [hunit]
      exact iff_of_true rfl (.inl rfl)
    · -- Seconds against whole seconds.
      have hbehind : t.behind.length ≤ 1 := hblanks.resolve_left (by rw [hunit]; exact List.cons_ne_nil _ _)
      have hround := toUInt32_eq_some_iff (hseconds (by rw [hunit]; rfl)) (x := t.doubleMs)
        fun hpos => t.whole_le_doubleMs hwhole (by omega)
      push_cast at hround
      rw [hunit]
      simpa [Convenience.iequals, hbehind] using hround
    · -- Seconds against milliseconds: only less than one of either is the same.
      have hbehind : t.behind.length ≤ 1 := hblanks.resolve_left (by rw [hunit]; exact List.cons_ne_nil _ _)
      have hround : toUInt32 t.doubleMs = some (digitsValue t.whole) ↔ t.doubleMs < 1 := by
        rcases Nat.eq_zero_or_pos (digitsValue t.whole) with hzero | hpos
        · have := toUInt32_eq_some_iff (x := t.doubleMs) (n := 0) (by decide) (fun h => absurd h (Nat.lt_irrefl 0))
          simpa [hzero] using this
        · have hle := t.whole_le_doubleMs hwhole hpos
          push_cast at hle
          have hone : (1 : ℚ) ≤ digitsValue t.whole := by exact_mod_cast hpos
          refine iff_of_false (fun hsome => ?_) (fun hlt => ?_)
          · have := (toUInt32_eq_some_iff hwhole (fun _ => by linarith)).mp hsome
            linarith
          · linarith
      rw [hunit]
      simpa [Convenience.iequals, hbehind] using hround
    all_goals
      have hbehind : t.behind.length ≤ 1 := hblanks.resolve_left (by rw [hunit]; exact List.cons_ne_nil _ _)
      rw [hunit]
      exact iff_of_true rfl (.inr ⟨hbehind, .inl rfl⟩)
  · have hblanks := fun hcond => hsplit (t.numAttr_text_iff.mpr hcond)
    refine iff_of_false (fun hboth => hsplit hboth.1) ?_
    rintro (hunit | ⟨hbehind, -⟩)
    · exact hblanks (.inl hunit)
    · exact hblanks (.inr hbehind)

theorem doubleMs_le_of_whole (hfraction : t.fraction = none) (hpos : 0 < digitsValue t.whole)
    (h : digitsValue t.whole < 2 ^ 32) : t.doubleMs ≤ digitsValue t.whole * 1000 := by
  have hvalue : t.value = digitsValue t.whole := by
    rw [value, hfraction]
    simp [digitsValue]
  have hwhole : (0 : ℚ) < digitsValue t.whole := by exact_mod_cast hpos
  have hround : Binary64.round t.value ≤ digitsValue t.whole := by
    have := Binary64.round_le (m := digitsValue t.whole) (by omega) (k := 0) (by decide) (q := t.value)
      (by rw [hvalue]; exact hwhole) (by simp [hvalue])
    simpa using this
  have hlower : (digitsValue t.whole : ℚ) ≤ Binary64.round t.value := by
    have := Binary64.le_round (m := digitsValue t.whole) (by omega) (k := 0) (by decide) (q := t.value)
      (by rw [hvalue]; exact hwhole) (by simp [hvalue])
    simpa using this
  have := Binary64.round_le (m := digitsValue t.whole * 1000) (by omega) (k := 0) (by decide)
    (q := Binary64.round t.value * 1000) (by linarith) (by push_cast; linarith)
  simpa [doubleMs] using this

/-- `1.5s`. -/
def halfSecond : DelayText where
  whole := ['1']
  fraction := some ['5']
  unit := ['s']
  blanks := List.all_eq_true.mp (by decide)
  digits := List.all_eq_true.mp (by decide)
  number_ne_nil := by decide
  unit_mem := by decide

/-- Of one and a half seconds one is left in the generated table. -/
theorem half_second_lost :
    ¬ (numAttr halfSecond.text = ⟨halfSecond.number, halfSecond.unit⟩ ∧
      processSendDelay halfSecond.text = some (writeDelay halfSecond.text)) := by
  rintro ⟨hsplit, hsame⟩
  rw [(delays_of_split _ hsplit).1, (delays_of_split _ hsplit).2] at hsame
  have hsame : toUInt32 halfSecond.doubleMs = some 1000 := hsame
  have hvalue : halfSecond.value = 3 * 2 ^ (-1 : ℤ) := by
    have hdigits : digitsValue halfSecond.whole = 1 ∧ digitsValue (halfSecond.fraction.getD []) = 5 := by decide
    rw [value, hdigits.1, hdigits.2]
    norm_num [halfSecond]
  have hround := Binary64.le_round (m := 3) (by decide) (k := -1) (by decide) (q := halfSecond.value)
    (by rw [hvalue]; norm_num) (by rw [hvalue]; norm_num)
  have hproduct : ((1500 : Nat) : ℚ) * 2 ^ (0 : ℤ) ≤ Binary64.round halfSecond.value * 1000 := by
    norm_num at hround ⊢
    linarith
  have hdouble := Binary64.le_round (m := 1500) (by decide) (k := 0) (by decide)
    (lt_of_lt_of_le (by norm_num) hproduct) hproduct
  have hms : (1500 : ℚ) ≤ halfSecond.doubleMs := by simpa [doubleMs] using hdouble
  have hlt := (toUInt32_eq_some_iff (n := 1000) (by decide) (fun _ => by push_cast; linarith)).mp hsame
  push_cast at hlt
  linarith

/-- `5s` with a blank behind it. -/
def fiveSeconds : DelayText where
  whole := ['5']
  unit := ['s']
  behind := [' ']
  blanks := List.all_eq_true.mp (by decide)
  digits := List.all_eq_true.mp (by decide)
  number_ne_nil := by decide
  unit_mem := by decide

theorem five_seconds_agree :
    numAttr fiveSeconds.text = ⟨fiveSeconds.number, fiveSeconds.unit⟩ ∧
      processSendDelay fiveSeconds.text = some (writeDelay fiveSeconds.text) := by
  have hms : fiveSeconds.milliseconds < 2 ^ 32 := by
    have hvalue : fiveSeconds.value = 5 := by
      have hdigits : digitsValue fiveSeconds.whole = 5 ∧ digitsValue (fiveSeconds.fraction.getD []) = 0 := by decide
      rw [value, hdigits.1, hdigits.2]
      norm_num
    rw [milliseconds, hvalue]
    norm_num [fiveSeconds]
    split <;> norm_num
  refine (delays_agree_iff fiveSeconds hms).mpr (.inr ⟨Nat.le_refl 1, .inr (.inl ⟨rfl, ?_⟩)⟩)
  have hwhole := doubleMs_le_of_whole fiveSeconds rfl (by decide) (by decide)
  linarith

end DelayText

end Uscxml
