import Uscxml.Lib.Base64
import Mathlib.Data.Finset.Dedup

/-!
# Bit sets as text

`FastMicroStep` writes its bit sets as the Base64 code of their blocks of 64 bits, lowest byte first, with one block more
for the number of bits. A set of states or transitions has one bit for every position of the table.
-/

namespace Uscxml

namespace FastMicroStep

def toBase64 (bitset : List Bool) : String :=
  String.ofList (Base64.encode (packBits (8 * ((bitset.length + 63) / 64)) bitset ++ lowDigits 256 8 bitset.length))

/-- `FastMicroStep::fromBase64`: the bits of all blocks but the last, cut or filled up to the size in the last one. -/
def fromBase64 (encoded : String) : List Bool :=
  let bytes := Base64.decode encoded.toList
  let size := Nat.ofDigits 256 (bytes.drop (bytes.length - 8))
  let bits := unpackBits (bytes.take (bytes.length - 8))
  bits.take size ++ List.replicate (size - bits.length) false

/-- A bit set is read back as it was written. -/
theorem fromBase64_toBase64 {bitset : List Bool} (h : bitset.length < 2 ^ 64) : fromBase64 (toBase64 bitset) = bitset := by
  have hblocks : bitset.length ≤ 8 * (8 * ((bitset.length + 63) / 64)) := by omega
  have hbytes : ∀ byte ∈ packBits (8 * ((bitset.length + 63) / 64)) bitset ++ lowDigits 256 8 bitset.length, byte < 256 := by
    intro byte hbyte
    rcases List.mem_append.mp hbyte with hbyte | hbyte
    · exact packBits_lt _ _ byte hbyte
    · exact lowDigits_lt (by decide) hbyte
  simp only [fromBase64, toBase64, String.toList_ofList, Base64.decode_encode hbytes]
  have hlength : (packBits (8 * ((bitset.length + 63) / 64)) bitset ++ lowDigits 256 8 bitset.length).length - 8 =
      (packBits (8 * ((bitset.length + 63) / 64)) bitset).length := by simp
  rw [hlength, List.drop_left, List.take_left, unpackBits_packBits hblocks,
    ofDigits_lowDigits (show bitset.length < 256 ^ 8 by omega), List.take_left, List.length_append, List.length_replicate]
  have hnone : bitset.length - (bitset.length + (8 * (8 * ((bitset.length + 63) / 64)) - bitset.length)) = 0 := by omega
  rw [hnone, List.replicate_zero, List.append_nil]

/-! ### Lengths

`base64Encode` takes the number of bytes as an `unsigned int` and libb64 takes it as an `int`, as it does with the length of
the text. What has no defined behaviour is `none`. -/

/-- The blocks of a bit set and the one for its size. -/
def blockBytes (bitset : List Bool) : List Nat :=
  packBits (8 * ((bitset.length + 63) / 64)) bitset ++ lowDigits 256 8 bitset.length

/-- `base64Encode`. `written` counts the characters with the last line break; a number of bytes that is negative as an
`int` has more characters than that. -/
def base64Encode (data : List Nat) : Option (List Char) :=
  let len := data.length % 2 ^ 32
  let out := Base64.encode (data.take len)
  if out.length + 1 < 2 ^ 31 then some out else none

def base64Decode (data : List Char) : Option (List Nat) :=
  let length_in := data.length % 2 ^ 32
  if length_in < 2 ^ 31 then some (Base64.decode (data.take length_in)) else none

/-- `FastMicroStep::toBase64` with the widths of its numbers. -/
def toBase64? (bitset : List Bool) : Option String := (base64Encode (blockBytes bitset)).map String.ofList

/-- The blocks but the last, cut or filled up to the size in the last one. -/
def ofBlocks (bytes : List Nat) : List Bool :=
  let size := Nat.ofDigits 256 (bytes.drop (bytes.length - 8))
  let bits := unpackBits (bytes.take (bytes.length - 8))
  bits.take size ++ List.replicate (size - bits.length) false

/-- `FastMicroStep::fromBase64` with the widths of its numbers. Without a block there is none for the size, and a part of
a block fails the assertion. -/
def fromBase64? (encoded : String) : Option (List Bool) :=
  match base64Decode encoded.toList with
  | none => none
  | some bytes => if bytes.length % 8 = 0 ∧ bytes ≠ [] then some (ofBlocks bytes) else none

theorem length_blockBytes (bitset : List Bool) : (blockBytes bitset).length = 8 * ((bitset.length + 63) / 64 + 1) := by
  rw [blockBytes, List.length_append, length_packBits, length_lowDigits]
  omega

theorem blockBytes_lt (bitset : List Bool) : ∀ byte ∈ blockBytes bitset, byte < 256 := by
  intro byte hbyte
  rcases List.mem_append.mp hbyte with hbyte | hbyte
  · exact packBits_lt _ _ byte hbyte
  · exact lowDigits_lt (by decide) hbyte

/-- What comes back of some bytes: as many of them as the number of bytes modulo 2 ^ 32. -/
theorem base64Decode_base64Encode {data : List Nat} (h : ∀ byte ∈ data, byte < 256) {text : List Char}
    (htext : base64Encode data = some text) :
    text.length + 1 < 2 ^ 31 ∧ base64Decode text = some (data.take (data.length % 2 ^ 32)) := by
  obtain ⟨hlength, rfl⟩ : (Base64.encode (data.take (data.length % 2 ^ 32))).length + 1 < 2 ^ 31 ∧
      Base64.encode (data.take (data.length % 2 ^ 32)) = text := by
    simp only [base64Encode] at htext
    split at htext
    · exact ⟨‹_›, Option.some.inj htext⟩
    · cases htext
  have hmod : (Base64.encode (data.take (data.length % 2 ^ 32))).length % 2 ^ 32 =
      (Base64.encode (data.take (data.length % 2 ^ 32))).length := Nat.mod_eq_of_lt (by omega)
  refine ⟨hlength, ?_⟩
  simp only [base64Decode, hmod]
  rw [if_pos (by omega), List.take_length, Base64.decode_encode fun byte hbyte => h byte (List.mem_of_mem_take hbyte)]

/-- A number of bytes that does not fit is cut to one that ends inside of the set: the last block that is left holds bits
and is taken for the size. -/
theorem ofBlocks_take_ne {bitset : List Bool} {k : Nat} (hpos : 0 < k) (hk : k ≤ (bitset.length + 63) / 64) :
    ofBlocks ((blockBytes bitset).take (8 * k)) ≠ bitset := by
  obtain ⟨k, rfl⟩ := Nat.exists_eq_add_of_lt hpos
  rw [Nat.zero_add] at hk ⊢
  have htake : (blockBytes bitset).take (8 * (k + 1)) = packBits (8 * (k + 1)) bitset := by
    rw [blockBytes, List.take_append_of_le_length (by rw [length_packBits]; omega), take_packBits (by omega)]
  have hlength : 8 * (k + 1) - 8 = 8 * k := by omega
  intro h
  simp only [htake, ofBlocks, length_packBits, hlength, take_packBits (show 8 * k ≤ 8 * (k + 1) by omega)] at h
  -- The size that is read is the number in the block behind the bits that are left.
  have hsize : (packBits (8 * (k + 1)) bitset).drop (8 * k) = packBits 8 (bitset.drop (8 * (8 * k))) :=
    drop_packBits (8 * k) 8 bitset
  rw [hsize] at h
  have hbits : (unpackBits (packBits (8 * k) bitset)).length = 8 * (8 * k) := by
    rw [unpackBits, List.length_flatMap]
    simp [length_packBits, Nat.mul_comm]
  have hsum := congrArg List.length h
  rw [List.length_append, List.length_take, List.length_replicate, hbits] at hsum
  -- Behind these bits there are only zeros in the result, so the set has no others.
  have hfalse : ∀ b ∈ bitset.drop (8 * (8 * k)), b = false := by
    intro b hb
    have hshort : ((unpackBits (packBits (8 * k) bitset)).take
        (Nat.ofDigits 256 (packBits 8 (bitset.drop (8 * (8 * k)))))).length ≤ 8 * (8 * k) := by
      rw [List.length_take, hbits]
      exact Nat.min_le_right _ _
    rw [← h, List.drop_append, List.drop_eq_nil_of_le hshort, List.nil_append] at hb
    exact List.eq_of_mem_replicate (List.mem_of_mem_drop hb)
  rw [ofDigits_packBits_of_false hfalse 8] at hsum
  omega

/-- A number of bytes from 2 ^ 32 on is cut. -/
theorem fromBase64?_toBase64?_of_cut {bitset : List Bool} (h : 2 ^ 32 ≤ (blockBytes bitset).length) :
    (toBase64? bitset).bind fromBase64? ≠ some bitset := by
  intro hback
  obtain ⟨encoded, hencoded, hdecoded⟩ := Option.bind_eq_some_iff.mp hback
  obtain ⟨text, htext, rfl⟩ := Option.map_eq_some_iff.mp hencoded
  have hbytes := (base64Decode_base64Encode (blockBytes_lt bitset) htext).2
  have hlength := length_blockBytes bitset
  obtain ⟨k, hk⟩ : ∃ k, (blockBytes bitset).length % 2 ^ 32 = 8 * k :=
    ⟨(blockBytes bitset).length % 2 ^ 32 / 8, by omega⟩
  rw [hk] at hbytes
  simp only [fromBase64?, String.toList_ofList, hbytes] at hdecoded
  split at hdecoded
  · rename_i hblocks
    have hpos : 0 < k := by
      rcases Nat.eq_zero_or_pos k with rfl | hpos
      · exact absurd rfl hblocks.2
      · exact hpos
    exact ofBlocks_take_ne hpos (by omega) (Option.some.inj hdecoded)
  · cases hdecoded

theorem toBase64?_eq_none {bitset : List Bool} (hfits : (blockBytes bitset).length < 2 ^ 32)
    (h : 2 ^ 31 ≤ (Base64.encode (blockBytes bitset)).length + 1) : toBase64? bitset = none := by
  have hout : base64Encode (blockBytes bitset) = none := by
    simp only [base64Encode, Nat.mod_eq_of_lt hfits, List.take_length]
    exact if_neg (by omega)
  rw [toBase64?, hout]
  rfl

theorem fromBase64?_toBase64?_of_fits {bitset : List Bool} (hfits : (blockBytes bitset).length < 2 ^ 32)
    (h : (Base64.encode (blockBytes bitset)).length + 1 < 2 ^ 31) :
    (toBase64? bitset).bind fromBase64? = some bitset := by
  have hlength := length_blockBytes bitset
  have hout : base64Encode (blockBytes bitset) = some (Base64.encode (blockBytes bitset)) := by
    simp only [base64Encode, Nat.mod_eq_of_lt hfits, List.take_length]
    exact if_pos h
  have hbytes := (base64Decode_base64Encode (blockBytes_lt bitset) hout).2
  rw [Nat.mod_eq_of_lt hfits, List.take_length] at hbytes
  have hblocks : (blockBytes bitset).length % 8 = 0 ∧ blockBytes bitset ≠ [] :=
    ⟨by omega, List.ne_nil_of_length_pos (by omega)⟩
  have hideal : fromBase64 (toBase64 bitset) = ofBlocks (blockBytes bitset) := by
    show ofBlocks (Base64.decode (String.ofList (Base64.encode (blockBytes bitset))).toList) = _
    rw [String.toList_ofList, Base64.decode_encode (blockBytes_lt bitset)]
  rw [toBase64?, hout, Option.map_some, Option.bind_some]
  simp only [fromBase64?, String.toList_ofList, hbytes]
  rw [if_pos hblocks, ← hideal, fromBase64_toBase64 (by omega)]

/-- A bit set is read back as it was written exactly when the text of its blocks, with the last line break, has a length
that is an `int`. -/
theorem fromBase64?_toBase64?_iff (bitset : List Bool) :
    (toBase64? bitset).bind fromBase64? = some bitset ↔ bitset.length ≤ 12708396288 := by
  have hlength := length_blockBytes bitset
  have htext := Base64.length_encode (blockBytes bitset)
  constructor
  · intro hback
    by_contra hlong
    by_cases hfits : (blockBytes bitset).length < 2 ^ 32
    · rw [toBase64?_eq_none hfits (by omega)] at hback
      cases hback
    · exact fromBase64?_toBase64?_of_cut (by omega) hback
  · intro hshort
    exact fromBase64?_toBase64?_of_fits (by omega) (by omega)

/-- A set of 2 ^ 35 bits comes back as the empty one. -/
theorem fromBase64?_toBase64?_huge :
    ¬ (toBase64? (List.replicate (2 ^ 35) false)).bind fromBase64? = some (List.replicate (2 ^ 35) false) := by
  apply fromBase64?_toBase64?_of_cut
  rw [length_blockBytes, List.length_replicate]
  decide

variable {α : Type} [DecidableEq α]

/-- The bits of a set, by the positions of a table. -/
def bitsOf (table : List α) (set : Finset α) : List Bool := table.map fun i => decide (i ∈ set)

def ofBits (table : List α) (bits : List Bool) : Finset α := (((table.zip bits).filter (·.2)).map (·.1)).toFinset

@[simp] theorem length_bitsOf (table : List α) (set : Finset α) : (bitsOf table set).length = table.length := by
  simp [bitsOf]

theorem ofBits_bitsOf {table : List α} {set : Finset α} (h : ∀ i ∈ set, i ∈ table) : ofBits table (bitsOf table set) = set := by
  ext i
  have hzip : table.zip (bitsOf table set) = table.map fun i => (i, decide (i ∈ set)) := by
    rw [bitsOf]
    clear h
    induction table with
    | nil => rfl
    | cons j table ih => rw [List.map_cons, List.zip_cons_cons, ih, List.map_cons]
  rw [ofBits, hzip, List.filter_map, List.map_map, List.mem_toFinset]
  simp only [List.mem_map, List.mem_filter, Function.comp_apply, decide_eq_true_eq, exists_eq_right]
  exact ⟨fun hi => hi.2, fun hi => ⟨h i hi, hi⟩⟩

theorem ofBits_fromBase64 {table : List α} (htable : table.length < 2 ^ 64) {set : Finset α} (h : ∀ i ∈ set, i ∈ table) :
    ofBits table (fromBase64 (toBase64 (bitsOf table set))) = set := by
  rw [fromBase64_toBase64 (by simpa using htable), ofBits_bitsOf h]

end FastMicroStep

end Uscxml
