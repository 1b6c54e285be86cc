import Uscxml.ChartToC.Tables
import Uscxml.Lib.BitArray

/-!
# The bytes of the tables

`writeCharArrayInitList` packs a string of zeros and ones into bytes and writes them as the list that initializes an array of
`unsigned char`; the generated code reads and changes such arrays with the macros and loops that `writeMacros` and
`writeHelpers` emit. Every operator of C computes on `int`, so that a byte is widened first and cut when it is stored. A
place outside of an array is an error here.
-/

namespace Uscxml

namespace ChartToC

namespace BitTables

/-- An `unsigned char`, or the bits of a `char`. -/
abbrev Byte := BitVec 8

/-! ### The generator -/

/-- A `char` as an `int`. Whether a `char` has a sign is left to the compiler. -/
def charToInt (signed : Bool) (c : Byte) : BitVec 32 := if signed then c.signExtend 32 else c.setWidth 32

/-- `currChar |= 1 << index`. -/
def setBit (signed : Bool) (currChar : Byte) (index : Nat) : Byte := (charToInt signed currChar ||| 1#32 <<< index).setWidth 8

/-- The loop over `boolString`. -/
def charArrayLoop (signed : Bool) : List Char → List Byte → Nat → Byte → List Byte
  | [], charArray, index, currChar => if index ≠ 0 then charArray ++ [currChar] else charArray
  | b :: boolString, charArray, index, currChar =>
    let currChar := if b = '1' then setBit signed currChar index else currChar
    if index + 1 = 8 then charArrayLoop signed boolString (charArray ++ [currChar]) 0 0#8
    else charArrayLoop signed boolString charArray (index + 1) currChar

def charArray (signed : Bool) (boolString : List Char) : List Byte := charArrayLoop signed boolString [] 0 0#8

/-- `"0x" << std::setw(2) << std::setfill('0') << std::hex << int(*cIter & 0xFF)`. -/
def byteText (signed : Bool) (c : Byte) : List Char :=
  ['0', 'x'] ++ (Nat.toDigits 16 (charToInt signed c &&& 0xFF#32).toNat).leftpad 2 '0'

def writeBytes (signed : Bool) : List Char → List Byte → List Char
  | _, [] => []
  | seperator, c :: charArray => seperator ++ byteText signed c ++ writeBytes signed [',', ' '] charArray

def writeCharArrayInitList (signed : Bool) (boolString : List Char) : List Char :=
  writeBytes signed [] (charArray signed boolString)

/-! ### How C reads it -/

def hexDigit (c : Char) : Option Nat :=
  if '0' ≤ c ∧ c ≤ '9' then some (c.toNat - '0'.toNat)
  else if 'a' ≤ c ∧ c ≤ 'f' then some (c.toNat - 'a'.toNat + 10)
  else if 'A' ≤ c ∧ c ≤ 'F' then some (c.toNat - 'A'.toNat + 10)
  else none

/-- A hexadecimal constant with blanks before it, as an `unsigned char`. -/
def readConstant : List Char → Option Byte
  | ' ' :: rest => readConstant rest
  | '0' :: 'x' :: digits =>
    if digits = [] then none else (digits.mapM hexDigit).map fun ds => BitVec.ofNat 8 (ds.foldl (fun n d => 16 * n + d) 0)
  | _ => none

def readInitList (text : List Char) : Option (List Byte) :=
  if text = [] then some [] else (text.splitOnP (· = ',')).mapM readConstant

/-- An array of the given size that is initialized with a list: what the list does not reach is zero. -/
def initialized (size : Nat) (bytes : List Byte) : List Byte := bytes ++ List.replicate (size - bytes.length) 0#8

/-! ### The generated macros and loops -/

def toInt (c : Byte) : BitVec 32 := c.setWidth 32

def bitHas (idx : Nat) (bitset : List Byte) : Option Bool :=
  bitset[idx >>> 3]?.map fun c => toInt c &&& 1#32 <<< (idx &&& 7) ≠ 0#32

def bitHasAnd (a b : List Byte) : Nat → Option Bool
  | 0 => some false
  | i + 1 => do
    let x ← a[i]?
    let y ← b[i]?
    if toInt x &&& toInt y ≠ 0#32 then some true else bitHasAnd a b i

def bitClearAll (a : List Byte) : Nat → Option (List Byte)
  | 0 => some a
  | i + 1 => if i < a.length then bitClearAll (a.set i 0#8) i else none

def bitHasAny (a : List Byte) : Nat → Option Bool
  | 0 => some false
  | i + 1 => do
    let x ← a[i]?
    if BitVec.slt 0#32 (toInt x) then some true else bitHasAny a i

/-- The loop of the functions that compute `dest[i]` from `dest[i]` and `mask[i]`. -/
def combine (f : BitVec 32 → BitVec 32 → BitVec 32) (dest mask : List Byte) : Nat → Option (List Byte)
  | 0 => some dest
  | i + 1 => do
    let x ← dest[i]?
    let y ← mask[i]?
    combine f (dest.set i ((f (toInt x) (toInt y)).setWidth 8)) mask i

def bitOr (dest mask : List Byte) (i : Nat) : Option (List Byte) := combine (fun x y => x ||| y) dest mask i

def bitCopy (dest source : List Byte) (i : Nat) : Option (List Byte) := combine (fun _ y => y) dest source i

def bitAndNot (dest mask : List Byte) (i : Nat) : Option (List Byte) := combine (fun x y => x &&& ~~~ y) dest mask i

def bitAnd (dest mask : List Byte) (i : Nat) : Option (List Byte) := combine (fun x y => x &&& y) dest mask i

def nrStatesBytes (nrStates : Nat) : Nat := ((BitVec.ofNat 32 nrStates + 7#32 &&& ~~~ 7#32) >>> 3).toNat

/-- An array with at least the given number of bytes, as the `USCXML_MAX_…` macros promise it. -/
structure CharArray (size : Nat) where
  chars : List Byte
  enough : size ≤ chars.length

/-- The set in the first bytes: what `BIT_HAS` finds in them. -/
def CharArray.members {size : Nat} (a : CharArray size) : Set Nat := {i | i < 8 * size ∧ bitHas i a.chars = some true}

/-- A loop writes the given set to the first bytes of `dest` and leaves the others as they are. -/
def Writes {size : Nat} (result : Option (List Byte)) (dest : CharArray size) (s : Set Nat) : Prop :=
  ∃ a : CharArray size, result = some a.chars ∧ a.members = s ∧ a.chars.drop size = dest.chars.drop size

/-! ### Bits of an `int` -/

theorem getLsbD_charToInt (signed : Bool) (c : Byte) {j : Nat} (hj : j < 8) : (charToInt signed c).getLsbD j = c.getLsbD j := by
  have hj' : j < 32 := by omega
  cases signed with
  | false => simp [charToInt, hj']
  | true =>
    rw [charToInt, if_pos rfl, BitVec.getLsbD_signExtend, if_pos hj]
    simp [hj']

theorem getLsbD_low (j : Nat) : (0xFF#32).getLsbD j = decide (j < 8) := by
  have hmask : (255 : Nat) = 2 ^ 8 - 1 := rfl
  rw [BitVec.getLsbD_ofNat, hmask, Nat.testBit_two_pow_sub_one, Bool.and_eq_right_iff_imp, decide_eq_true_eq, decide_eq_true_eq]
  omega

theorem charToInt_low (signed : Bool) (c : Byte) : charToInt signed c &&& 0xFF#32 = c.setWidth 32 := by
  apply BitVec.eq_of_getLsbD_eq
  intro j hj
  rw [BitVec.getLsbD_and, getLsbD_low, BitVec.getLsbD_setWidth]
  by_cases hj' : j < 8
  · rw [getLsbD_charToInt signed c hj']
    simp [hj, hj']
  · simp [BitVec.getLsbD_of_ge c j (Nat.not_lt.mp hj'), hj']

theorem setBit_eq (signed : Bool) (c : Byte) (index : Nat) : setBit signed c index = c ||| 1#8 <<< index := by
  apply BitVec.eq_of_getLsbD_eq
  intro j hj
  have hj' : j < 32 := by omega
  rw [setBit, BitVec.getLsbD_setWidth, BitVec.getLsbD_or, getLsbD_charToInt signed c hj, BitVec.getLsbD_or,
    BitVec.getLsbD_shiftLeft, BitVec.getLsbD_shiftLeft]
  simp [hj, hj']

theorem toNat_setBit (signed : Bool) (c : Byte) {index : Nat} (h : index < 8) :
    (setBit signed c index).toNat = c.toNat ||| 1 <<< index := by
  have hlt : 1 <<< index < 2 ^ 8 := by
    rw [Nat.one_shiftLeft]
    exact Nat.pow_lt_pow_right (by decide) h
  rw [setBit_eq, BitVec.toNat_or, BitVec.toNat_shiftLeft]
  congr 1
  exact Nat.mod_eq_of_lt hlt

theorem toNat_toInt (c : Byte) : (toInt c).toNat = c.toNat := by
  rw [toInt, BitVec.toNat_setWidth]
  exact Nat.mod_eq_of_lt (c.isLt.trans (by decide))

theorem toInt_eq_zero_iff (c : Byte) : toInt c = 0#32 ↔ c = 0#8 := by
  rw [← BitVec.toNat_inj, ← BitVec.toNat_inj, toNat_toInt]
  rfl

theorem zero_slt_toInt_iff (c : Byte) : BitVec.slt 0#32 (toInt c) = true ↔ c ≠ 0#8 := by
  have hsmall : 2 * (toInt c).toNat < 2 ^ 32 := by
    have := c.isLt
    rw [toNat_toInt]
    omega
  rw [BitVec.slt_iff_toInt_lt, BitVec.toInt_eq_toNat_of_lt hsmall, toNat_toInt, ne_eq, ← BitVec.toNat_inj, BitVec.toInt_zero,
    Int.natCast_pos, Nat.pos_iff_ne_zero]
  rfl

theorem toInt_and (x y : Byte) : toInt x &&& toInt y = toInt (x &&& y) := by
  rw [toInt, toInt, toInt, BitVec.setWidth_and]

theorem getLsbD_toInt (c : Byte) {j : Nat} (hj : j < 8) : (toInt c).getLsbD j = c.getLsbD j := by
  have hj' : j < 32 := by omega
  rw [toInt, BitVec.getLsbD_setWidth]
  simp [hj']

theorem setWidth_copy (y : Byte) : (toInt y).setWidth 8 = y := by
  rw [toInt, BitVec.setWidth_setWidth_of_le y (by decide), BitVec.setWidth_eq]

theorem setWidth_or (x y : Byte) : (toInt x ||| toInt y).setWidth 8 = x ||| y := by
  rw [BitVec.setWidth_or, setWidth_copy, setWidth_copy]

theorem setWidth_and (x y : Byte) : (toInt x &&& toInt y).setWidth 8 = x &&& y := by
  rw [BitVec.setWidth_and, setWidth_copy, setWidth_copy]

theorem setWidth_and_not (x y : Byte) : (toInt x &&& ~~~ toInt y).setWidth 8 = x &&& ~~~ y := by
  rw [BitVec.setWidth_and, BitVec.setWidth_not (by decide), setWidth_copy, setWidth_copy]

theorem testBit_iff (c : Byte) {j : Nat} (hj : j < 8) : toInt c &&& 1#32 <<< j ≠ 0#32 ↔ c.getLsbD j = true := by
  have hj' : j < 32 := by omega
  rw [← getLsbD_toInt c hj]
  constructor
  · intro hne
    by_contra hbit
    apply hne
    apply BitVec.eq_of_getLsbD_eq
    intro k hk
    rw [← BitVec.twoPow_eq, BitVec.getLsbD_and, BitVec.getLsbD_twoPow]
    by_cases hjk : j = k
    · rw [← hjk]
      simp [hbit]
    · simp [hjk]
  · intro hbit hzero
    have hand : (toInt c &&& 1#32 <<< j).getLsbD j = true := by
      rw [← BitVec.twoPow_eq, BitVec.getLsbD_and, BitVec.getLsbD_twoPow, hbit]
      simp [hj']
    rw [hzero] at hand
    simp at hand

/-! ### The macros -/

theorem shift_eq (idx : Nat) : idx >>> 3 = idx / 8 := Nat.shiftRight_eq_div_pow idx 3

theorem mask_eq (idx : Nat) : idx &&& 7 = idx % 8 := Nat.and_two_pow_sub_one_eq_mod idx 3

theorem bitHas_eq (idx : Nat) (bitset : List Byte) :
    bitHas idx bitset = if idx / 8 < bitset.length then some (BitArray.has bitset idx) else none := by
  rw [bitHas, shift_eq, mask_eq]
  split
  · rename_i h
    rw [List.getElem?_eq_getElem h, Option.map_some, BitArray.has, List.getD_eq_getElem _ _ h, Option.some_inj]
    rw [Bool.eq_iff_iff, decide_eq_true_eq]
    exact testBit_iff _ (Nat.mod_lt idx (by decide))
  · rename_i h
    rw [List.getElem?_eq_none (Nat.not_lt.mp h)]
    rfl

theorem bitHas_toNat (idx : Nat) (bitset : List Byte) :
    BitArray.has bitset idx = ChartToC.bitHas idx (bitset.map BitVec.toNat) := by
  rw [BitArray.has, ChartToC.bitHas, List.getD_eq_getElem?_getD, List.getD_eq_getElem?_getD, List.getElem?_map]
  cases bitset[idx / 8]? with
  | none => simp
  | some c => rfl

/-! ### The generator -/

theorem map_toNat_charArrayLoop (signed : Bool) (boolString : List Char) (charArray : List Byte) {index : Nat} (h : index < 8)
    (currChar : Byte) :
    (charArrayLoop signed boolString charArray index currChar).map BitVec.toNat =
      charArray.map BitVec.toNat ++ writeCharArrayFrom index currChar.toNat (boolString.map fun b => b = '1') := by
  induction boolString generalizing charArray index currChar with
  | nil =>
    rw [charArrayLoop, List.map_nil, writeCharArrayFrom]
    split
    · rw [List.map_append]
      rfl
    · rw [List.append_nil]
  | cons b boolString ih =>
    have hchar : (if b = '1' then setBit signed currChar index else currChar).toNat =
        if decide (b = '1') = true then currChar.toNat ||| 1 <<< index else currChar.toNat := by
      by_cases hb : b = '1'
      · rw [if_pos hb, if_pos (decide_eq_true hb), toNat_setBit signed currChar h]
      · rw [if_neg hb, if_neg (by simpa using hb)]
    rw [charArrayLoop, List.map_cons, writeCharArrayFrom, ← hchar]
    split
    · rw [ih _ (by decide), List.map_append, List.append_assoc]
      rfl
    · rw [ih _ (by omega)]

theorem map_toNat_charArray (signed : Bool) (boolString : List Char) :
    (charArray signed boolString).map BitVec.toNat = ChartToC.writeCharArrayInitList (boolString.map fun b => b = '1') :=
  map_toNat_charArrayLoop signed boolString [] (by decide) 0#8

theorem length_charArrayLoop (signed : Bool) (boolString : List Char) (charArray : List Byte) {index : Nat} (h : index < 8)
    (currChar : Byte) :
    (charArrayLoop signed boolString charArray index currChar).length =
      charArray.length + (index + boolString.length + 7) / 8 := by
  induction boolString generalizing charArray index currChar with
  | nil =>
    rw [charArrayLoop, List.length_nil]
    split
    · rw [List.length_append, List.length_singleton]
      omega
    · omega
  | cons b boolString ih =>
    rw [charArrayLoop, List.length_cons]
    split
    · rw [ih _ (by decide), List.length_append, List.length_singleton]
      omega
    · rw [ih _ (by omega)]
      omega

theorem length_charArray (signed : Bool) (boolString : List Char) :
    (charArray signed boolString).length = (boolString.length + 7) / 8 := by
  rw [charArray, length_charArrayLoop signed boolString [] (by decide), List.length_nil, Nat.zero_add, Nat.zero_add]

theorem has_charArray (signed : Bool) (boolString : List Char) (i : Nat) :
    BitArray.has (charArray signed boolString) i = true ↔ boolString[i]? = some '1' := by
  rw [bitHas_toNat, map_toNat_charArray, bitHas_writeCharArrayInitList, List.getD_eq_getElem?_getD, List.getElem?_map]
  cases boolString[i]? with
  | none => simp
  | some b => simp

/-! ### The text -/

theorem hexDigit_digitChar : ∀ d < 16, hexDigit d.digitChar = some d := by decide

theorem byteText_eq (signed : Bool) (c : Byte) :
    byteText signed c = ['0', 'x', (c.toNat / 16).digitChar, (c.toNat % 16).digitChar] := by
  have hlow : c.toNat % 16 < 16 := Nat.mod_lt _ (by decide)
  have hhigh : c.toNat / 16 < 16 := by
    have := c.isLt
    omega
  have hnat : (charToInt signed c &&& 0xFF#32).toNat = c.toNat := by
    rw [charToInt_low, BitVec.toNat_setWidth]
    exact Nat.mod_eq_of_lt (c.isLt.trans (by decide))
  rw [byteText, hnat]
  rcases Nat.lt_or_ge c.toNat 16 with hlt | hge
  · rw [Nat.toDigits_of_lt_base hlt, Nat.div_eq_of_lt hlt, Nat.mod_eq_of_lt hlt]
    rfl
  · rw [Nat.toDigits_of_base_le (by decide) hge, Nat.toDigits_of_lt_base hhigh]
    rfl

theorem readConstant_byteText (signed : Bool) (c : Byte) : readConstant (byteText signed c) = some c := by
  have hlow := hexDigit_digitChar (c.toNat % 16) (Nat.mod_lt c.toNat (by decide))
  have hhigh := hexDigit_digitChar (c.toNat / 16) (Nat.div_lt_of_lt_mul c.isLt)
  rw [byteText_eq, readConstant, if_neg (List.cons_ne_nil _ _), List.mapM_cons, hhigh, List.mapM_cons, hlow, List.mapM_nil]
  change some (BitVec.ofNat 8 (16 * (16 * 0 + c.toNat / 16) + c.toNat % 16)) = some c
  rw [Nat.mul_zero, Nat.zero_add, Nat.div_add_mod, BitVec.ofNat_toNat, BitVec.setWidth_eq]

theorem no_comma_byteText (signed : Bool) (c : Byte) : ∀ x ∈ byteText signed c, decide (x = ',') = false := by
  have hdigit : ∀ d < 16, Nat.digitChar d ≠ ',' := by decide
  have hlow := hdigit (c.toNat % 16) (Nat.mod_lt c.toNat (by decide))
  have hhigh := hdigit (c.toNat / 16) (Nat.div_lt_of_lt_mul c.isLt)
  rw [byteText_eq]
  simp [hlow, hhigh]

theorem splitOnP_writeBytes (signed : Bool) (charArray : List Byte) {w : List Char} (hw : ∀ x ∈ w, decide (x = ',') = false) :
    (w ++ writeBytes signed [',', ' '] charArray).splitOnP (· = ',') = w :: charArray.map fun c => ' ' :: byteText signed c := by
  induction charArray generalizing w with
  | nil => rw [writeBytes, List.append_nil, List.splitOnP_eq_singleton hw, List.map_nil]
  | cons c charArray ih =>
    have hpiece : ∀ x ∈ ' ' :: byteText signed c, decide (x = ',') = false :=
      List.forall_mem_cons.mpr ⟨by decide, no_comma_byteText signed c⟩
    rw [writeBytes, List.map_cons, ← ih hpiece]
    exact List.splitOnP_append_cons_of_forall_mem hw ',' (by decide) _

theorem readInitList_writeCharArrayInitList (signed : Bool) (boolString : List Char) :
    readInitList (writeCharArrayInitList signed boolString) = some (charArray signed boolString) := by
  rw [writeCharArrayInitList]
  cases charArray signed boolString with
  | nil => rfl
  | cons c bytes =>
    have hread : ∀ bytes : List Byte, (bytes.map fun c => ' ' :: byteText signed c).mapM readConstant = some bytes := by
      intro bytes
      induction bytes with
      | nil => rfl
      | cons c bytes ih =>
        rw [List.map_cons, List.mapM_cons, readConstant, readConstant_byteText, ih]
        rfl
    have htext : writeBytes signed [] (c :: bytes) = byteText signed c ++ writeBytes signed [',', ' '] bytes := rfl
    have hne : byteText signed c ++ writeBytes signed [',', ' '] bytes ≠ [] := by
      rw [byteText_eq]
      exact List.cons_ne_nil _ _
    rw [htext, readInitList, if_neg hne, splitOnP_writeBytes signed bytes (no_comma_byteText signed c), List.mapM_cons,
      readConstant_byteText, hread]
    rfl

/-! ### The loops -/

theorem combine_eq {f : BitVec 32 → BitVec 32 → BitVec 32} {g : Byte → Byte → Byte}
    (hf : ∀ x y, (f (toInt x) (toInt y)).setWidth 8 = g x y) {k : Nat} {dest mask : List Byte} (hdest : k ≤ dest.length)
    (hmask : k ≤ mask.length) : combine f dest mask k = some (List.zipWith g (dest.take k) (mask.take k) ++ dest.drop k) := by
  induction k generalizing dest with
  | zero => rfl
  | succ k ih =>
    have hd : k < dest.length := hdest
    have hm : k < mask.length := hmask
    rw [combine, List.getElem?_eq_getElem hd, List.getElem?_eq_getElem hm]
    change combine f (dest.set k _) mask k = _
    rw [ih (by rw [List.length_set]; exact hd.le) hm.le, hf, List.take_set_of_le Nat.le.refl]
    have hset : (dest.set k (g dest[k] mask[k])).drop k = g dest[k] mask[k] :: dest.drop (k + 1) := by
      rw [List.drop_eq_getElem_cons (by rw [List.length_set]; exact hd), List.getElem_set_self, List.drop_set_of_lt (Nat.lt_succ_self k)]
    rw [hset, List.take_succ_eq_append_getElem hd, List.take_succ_eq_append_getElem hm, List.zipWith_append, List.append_assoc]
    · rfl
    · rw [List.length_take_of_le hd.le, List.length_take_of_le hm.le]

theorem bitClearAll_eq {k : Nat} {a : List Byte} (h : k ≤ a.length) :
    bitClearAll a k = some (List.replicate k 0#8 ++ a.drop k) := by
  induction k generalizing a with
  | zero => rfl
  | succ k ih =>
    have hk : k < a.length := h
    have hset : (a.set k 0#8).drop k = 0#8 :: a.drop (k + 1) := by
      rw [List.drop_eq_getElem_cons (by rw [List.length_set]; exact hk), List.getElem_set_self, List.drop_set_of_lt (Nat.lt_succ_self k)]
    rw [bitClearAll, if_pos hk, ih (by rw [List.length_set]; exact hk.le), hset, List.replicate_succ', List.append_assoc]
    rfl

theorem exists_ne_zero_concat {l : List Byte} {x : Byte} : (∃ c ∈ l ++ [x], c ≠ 0#8) ↔ (∃ c ∈ l, c ≠ 0#8) ∨ x ≠ 0#8 := by
  simp only [List.mem_append, List.mem_singleton, or_and_right, exists_or, exists_eq_left]

theorem bitHasAnd_eq {k : Nat} {a b : List Byte} (ha : k ≤ a.length) (hb : k ≤ b.length) :
    bitHasAnd a b k = some (decide (∃ c ∈ List.zipWith (· &&& ·) (a.take k) (b.take k), c ≠ 0#8)) := by
  induction k with
  | zero => rfl
  | succ k ih =>
    have ha' : k < a.length := ha
    have hb' : k < b.length := hb
    have hlength : (a.take k).length = (b.take k).length := by
      rw [List.length_take_of_le ha'.le, List.length_take_of_le hb'.le]
    rw [bitHasAnd, List.getElem?_eq_getElem ha', List.getElem?_eq_getElem hb', List.take_succ_eq_append_getElem ha',
      List.take_succ_eq_append_getElem hb', List.zipWith_append hlength]
    simp only [List.zipWith_cons_cons, List.zipWith_nil_right, exists_ne_zero_concat]
    change (if toInt a[k] &&& toInt b[k] ≠ 0#32 then some true else bitHasAnd a b k) = _
    have htest : toInt a[k] &&& toInt b[k] ≠ 0#32 ↔ a[k] &&& b[k] ≠ 0#8 := by
      rw [toInt_and]
      exact (toInt_eq_zero_iff _).not
    by_cases hzero : a[k] &&& b[k] = 0#8
    · rw [if_neg (fun h => htest.mp h hzero), ih ha'.le hb'.le, Option.some_inj, decide_eq_decide]
      exact ⟨Or.inl, fun h => h.resolve_right fun hne => hne hzero⟩
    · rw [if_pos (htest.mpr hzero), Option.some_inj, eq_comm, decide_eq_true_eq]
      exact Or.inr hzero

theorem bitHasAny_eq {k : Nat} {a : List Byte} (h : k ≤ a.length) :
    bitHasAny a k = some (decide (∃ c ∈ a.take k, c ≠ 0#8)) := by
  induction k with
  | zero => rfl
  | succ k ih =>
    have hk : k < a.length := h
    rw [bitHasAny, List.getElem?_eq_getElem hk, List.take_succ_eq_append_getElem hk]
    simp only [exists_ne_zero_concat]
    change (if BitVec.slt 0#32 (toInt a[k]) = true then some true else bitHasAny a k) = _
    by_cases hzero : a[k] = 0#8
    · rw [if_neg (fun h => (zero_slt_toInt_iff _).mp h hzero), ih hk.le, Option.some_inj, decide_eq_decide]
      exact ⟨Or.inl, fun h => h.resolve_right fun hne => hne hzero⟩
    · rw [if_pos ((zero_slt_toInt_iff _).mpr hzero), Option.some_inj, eq_comm, decide_eq_true_eq]
      exact Or.inr hzero

/-! ### What the loops do to the sets -/

theorem CharArray.members_eq {size : Nat} (a : CharArray size) : a.members = BitArray.members (a.chars.take size) := by
  ext i
  have henough := a.enough
  rw [BitArray.mem_members, BitArray.has_take, Bool.and_eq_true, decide_eq_true_eq]
  change (i < 8 * size ∧ bitHas i a.chars = some true) ↔ _
  rw [bitHas_eq]
  constructor
  · rintro ⟨hi, hhas⟩
    rw [if_pos (by omega), Option.some_inj] at hhas
    exact ⟨by omega, hhas⟩
  · rintro ⟨hi, hhas⟩
    refine ⟨by omega, ?_⟩
    rw [if_pos (by omega), hhas]

theorem writes_of_eq {size : Nat} {dest : CharArray size} {result : Option (List Byte)} {first : List Byte} {s : Set Nat}
    (hresult : result = some (first ++ dest.chars.drop size)) (hlength : first.length = size) (hs : BitArray.members first = s) :
    Writes result dest s := by
  refine ⟨⟨first ++ dest.chars.drop size, ?_⟩, hresult, ?_, ?_⟩
  · rw [List.length_append]
    omega
  · rw [CharArray.members_eq, List.take_left' hlength, hs]
  · rw [List.drop_left' hlength]

theorem writes_combine {size : Nat} (dest mask : CharArray size) {f : BitVec 32 → BitVec 32 → BitVec 32}
    {g : Byte → Byte → Byte} (hf : ∀ x y, (f (toInt x) (toInt y)).setWidth 8 = g x y) {s : Set Nat}
    (hs : BitArray.members (List.zipWith g (dest.chars.take size) (mask.chars.take size)) = s) :
    Writes (combine f dest.chars mask.chars size) dest s := by
  refine writes_of_eq (combine_eq hf dest.enough mask.enough) ?_ hs
  rw [List.length_zipWith, List.length_take_of_le dest.enough, List.length_take_of_le mask.enough, Nat.min_self]

theorem length_take_eq {size : Nat} (a b : CharArray size) : (a.chars.take size).length = (b.chars.take size).length := by
  rw [List.length_take_of_le a.enough, List.length_take_of_le b.enough]

theorem bitOr_writes {size : Nat} (dest mask : CharArray size) :
    Writes (bitOr dest.chars mask.chars size) dest (dest.members ∪ mask.members) := by
  rw [dest.members_eq, mask.members_eq]
  exact writes_combine dest mask setWidth_or (BitArray.members_or (length_take_eq dest mask))

theorem bitAnd_writes {size : Nat} (dest mask : CharArray size) :
    Writes (bitAnd dest.chars mask.chars size) dest (dest.members ∩ mask.members) := by
  rw [dest.members_eq, mask.members_eq]
  exact writes_combine dest mask setWidth_and (BitArray.members_and (length_take_eq dest mask))

theorem bitAndNot_writes {size : Nat} (dest mask : CharArray size) :
    Writes (bitAndNot dest.chars mask.chars size) dest (dest.members \ mask.members) := by
  rw [dest.members_eq, mask.members_eq]
  exact writes_combine dest mask setWidth_and_not (BitArray.members_and_not (length_take_eq dest mask))

theorem bitCopy_writes {size : Nat} (dest source : CharArray size) :
    Writes (bitCopy dest.chars source.chars size) dest source.members := by
  have hcopy : ∀ {a b : List Byte}, a.length = b.length → List.zipWith (fun _ y => y) a b = b := by
    intro a b h
    refine List.ext_getElem ?_ ?_
    · rw [List.length_zipWith, h, Nat.min_self]
    · intro i hi hi'
      rw [List.getElem_zipWith]
  rw [source.members_eq]
  exact writes_combine dest source (fun _ => setWidth_copy) (congrArg BitArray.members (hcopy (length_take_eq dest source)))

theorem bitClearAll_writes {size : Nat} (a : CharArray size) : Writes (bitClearAll a.chars size) a ∅ :=
  writes_of_eq (bitClearAll_eq a.enough) List.length_replicate (BitArray.members_replicate_zero size)

theorem bitHasAnd_iff {size : Nat} (a b : CharArray size) :
    ∃ r, bitHasAnd a.chars b.chars size = some r ∧ (r = true ↔ (a.members ∩ b.members).Nonempty) := by
  refine ⟨_, bitHasAnd_eq a.enough b.enough, ?_⟩
  rw [decide_eq_true_eq, a.members_eq, b.members_eq, ← BitArray.members_and (length_take_eq a b),
    BitArray.members_nonempty_iff (by decide)]

theorem bitHasAny_iff {size : Nat} (a : CharArray size) :
    ∃ r, bitHasAny a.chars size = some r ∧ (r = true ↔ a.members.Nonempty) := by
  refine ⟨_, bitHasAny_eq a.enough, ?_⟩
  rw [decide_eq_true_eq, a.members_eq, BitArray.members_nonempty_iff (by decide)]

/-! ### The number of bytes -/

theorem nrStatesBytes_eq {nrStates : Nat} (h : nrStates + 7 < 2 ^ 32) : nrStatesBytes nrStates = (nrStates + 7) / 8 := by
  have hsum : (BitVec.ofNat 32 nrStates + 7#32).toNat = nrStates + 7 := by
    rw [BitVec.toNat_add, BitVec.toNat_ofNat, BitVec.toNat_ofNat, Nat.mod_eq_of_lt (show nrStates < 2 ^ 32 by omega)]
    exact Nat.mod_eq_of_lt h
  have hshift : (BitVec.ofNat 32 nrStates + 7#32 &&& ~~~ 7#32) >>> 3 = (BitVec.ofNat 32 nrStates + 7#32) >>> 3 := by
    apply BitVec.eq_of_getLsbD_eq
    intro j hj
    have hmask : (7#32).getLsbD (3 + j) = false := by
      have hseven : (7 : Nat) = 2 ^ 3 - 1 := rfl
      rw [BitVec.getLsbD_ofNat, hseven, Nat.testBit_two_pow_sub_one]
      simp
    rw [BitVec.getLsbD_ushiftRight, BitVec.getLsbD_ushiftRight, BitVec.getLsbD_and, BitVec.getLsbD_not, hmask]
    by_cases hin : 3 + j < 32
    · simp [hin]
    · simp [hin, BitVec.getLsbD_of_ge _ _ (Nat.not_lt.mp hin)]
  rw [nrStatesBytes, hshift, BitVec.toNat_ushiftRight, hsum, Nat.shiftRight_eq_div_pow]

theorem bitHas_initialized (signed : Bool) (boolString : List Char) {size : Nat}
    (h : (charArray signed boolString).length ≤ size) (i : Nat) :
    (bitHas i (initialized size (charArray signed boolString)) = some true ↔ boolString[i]? = some '1') ∧
      (bitHas i (initialized size (charArray signed boolString)) = none ↔ 8 * size ≤ i) := by
  have hlength : (initialized size (charArray signed boolString)).length = size := by
    rw [initialized, List.length_append, List.length_replicate]
    omega
  have hhas : BitArray.has (initialized size (charArray signed boolString)) i = BitArray.has (charArray signed boolString) i := by
    rw [initialized, BitArray.has, List.getD_eq_getElem?_getD, BitArray.has, List.getD_eq_getElem?_getD, List.getElem?_append]
    split
    · rfl
    · rename_i hge
      rw [List.getElem?_eq_none (Nat.not_lt.mp hge), List.getElem?_replicate]
      split
      · rfl
      · rfl
  rw [bitHas_eq, hlength, hhas]
  split
  · rename_i hi
    rw [Option.some_inj, has_charArray]
    refine ⟨Iff.rfl, iff_of_false (Option.some_ne_none _) (by omega)⟩
  · rename_i hi
    have hout : boolString.length ≤ i := by
      rw [length_charArray] at h
      omega
    rw [List.getElem?_eq_none hout]
    exact ⟨iff_of_false (Option.some_ne_none _).symm (Option.some_ne_none _).symm, iff_of_true rfl (by omega)⟩

/-- The bytes that are written have one bit for every character, and the macros and loops that are emitted compute with them
as with sets; `⌈n / 8⌉` is `(n + 7) / 8`. -/
theorem bit_tables_exact (signed : Bool) :
    (∀ boolString, ∃ bytes, readInitList (writeCharArrayInitList signed boolString) = some bytes ∧
      bytes.length = (boolString.length + 7) / 8 ∧
      ∀ size, bytes.length ≤ size → ∀ i, (bitHas i (initialized size bytes) = some true ↔ boolString[i]? = some '1') ∧
        (bitHas i (initialized size bytes) = none ↔ 8 * size ≤ i)) ∧
    (∀ nrStates, nrStates + 7 < 2 ^ 32 → nrStatesBytes nrStates = (nrStates + 7) / 8) ∧
    ∀ (size : Nat) (a b : CharArray size),
      Writes (bitOr a.chars b.chars size) a (a.members ∪ b.members) ∧
      Writes (bitCopy a.chars b.chars size) a b.members ∧
      (∃ r, bitHasAnd a.chars b.chars size = some r ∧ (r = true ↔ (a.members ∩ b.members).Nonempty)) ∧
      Writes (bitAndNot a.chars b.chars size) a (a.members \ b.members) ∧
      Writes (bitAnd a.chars b.chars size) a (a.members ∩ b.members) ∧
      (∃ r, bitHasAny a.chars size = some r ∧ (r = true ↔ a.members.Nonempty)) ∧
      Writes (bitClearAll a.chars size) a ∅ := by
  refine ⟨?_, fun nrStates h => nrStatesBytes_eq h, ?_⟩
  · intro boolString
    exact ⟨charArray signed boolString, readInitList_writeCharArrayInitList signed boolString,
      length_charArray signed boolString, fun size h => bitHas_initialized signed boolString h⟩
  · intro size a b
    exact ⟨bitOr_writes a b, bitCopy_writes a b, bitHasAnd_iff a b, bitAndNot_writes a b, bitAnd_writes a b, bitHasAny_iff a,
      bitClearAll_writes a⟩

end BitTables

end ChartToC

end Uscxml
