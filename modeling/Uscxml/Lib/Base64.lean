import Mathlib.Data.Nat.Digits.Defs

/-!
# Bits, bytes and Base64

Numbers as lists of digits from the lowest on, bits packed into bytes, and the Base64 code of a list of bytes with a
line break after every 72 characters. Bytes and sextets are natural numbers below 256 and 64.
-/

/-! ### Digits -/

/-- The lowest `n` digits of a number to base `b`. -/
def lowDigits (b : Nat) : Nat → Nat → List Nat
  | 0, _ => []
  | n + 1, m => m % b :: lowDigits b n (m / b)

@[simp] theorem length_lowDigits (b n m : Nat) : (lowDigits b n m).length = n := by
  induction n generalizing m with
  | zero => rfl
  | succ n ih => simp [lowDigits, ih]

theorem lowDigits_lt {b : Nat} (hb : 0 < b) {n m d : Nat} (h : d ∈ lowDigits b n m) : d < b := by
  induction n generalizing m with
  | zero => simp [lowDigits] at h
  | succ n ih =>
    rcases List.mem_cons.mp h with rfl | h
    · exact Nat.mod_lt m hb
    · exact ih h

theorem ofDigits_lowDigits {b n m : Nat} (h : m < b ^ n) : Nat.ofDigits b (lowDigits b n m) = m := by
  induction n generalizing m with
  | zero =>
    obtain rfl : m = 0 := by simpa using h
    rfl
  | succ n ih =>
    have hdiv : m / b < b ^ n := by
      apply Nat.div_lt_of_lt_mul
      rwa [Nat.pow_succ, Nat.mul_comm] at h
    rw [lowDigits, Nat.ofDigits_cons, ih hdiv]
    exact Nat.mod_add_div m b

theorem lowDigits_ofDigits {b : Nat} (hb : 0 < b) {l : List Nat} (h : ∀ d ∈ l, d < b) (n : Nat) :
    lowDigits b (l.length + n) (Nat.ofDigits b l) = l ++ List.replicate n 0 := by
  induction l with
  | nil =>
    induction n with
    | zero => rfl
    | succ n ih =>
      have hzero : lowDigits b n 0 = List.replicate n 0 := by simpa using ih
      simp [lowDigits, hzero, List.replicate_succ]
  | cons d l ih =>
    have hd : d < b := h d List.mem_cons_self
    have hmod : (d + b * Nat.ofDigits b l) % b = d := by rw [Nat.add_mul_mod_self_left, Nat.mod_eq_of_lt hd]
    have hdiv : (d + b * Nat.ofDigits b l) / b = Nat.ofDigits b l := by
      rw [Nat.add_mul_div_left _ _ hb, Nat.div_eq_of_lt hd, Nat.zero_add]
    rw [List.length_cons, Nat.add_right_comm, lowDigits, Nat.ofDigits_cons]
    show (d + b * Nat.ofDigits b l) % b :: lowDigits b (l.length + n) ((d + b * Nat.ofDigits b l) / b) = _
    rw [hmod, hdiv, ih fun d hd => h d (List.mem_cons_of_mem _ hd)]
    rfl

/-! ### Bits in bytes -/

/-- The first `n` bytes of a list of bits, eight bits in each from the lowest on. -/
def packBits : Nat → List Bool → List Nat
  | 0, _ => []
  | n + 1, bits => Nat.ofDigits 2 ((bits.take 8).map Bool.toNat) :: packBits n (bits.drop 8)

def unpackBits (bytes : List Nat) : List Bool := bytes.flatMap fun byte => (lowDigits 2 8 byte).map (· == 1)

theorem bits_ofDigits (l : List Bool) (n : Nat) :
    (lowDigits 2 (l.length + n) (Nat.ofDigits 2 (l.map Bool.toNat))).map (· == 1) = l ++ List.replicate n false := by
  have hdigits : ∀ d ∈ l.map Bool.toNat, d < 2 := by
    intro d hd
    obtain ⟨b, -, rfl⟩ := List.mem_map.mp hd
    exact Bool.toNat_lt b
  have h := lowDigits_ofDigits (by decide) hdigits n
  rw [List.length_map] at h
  have hbits : l.map ((· == 1) ∘ Bool.toNat) = l := by
    conv_rhs => rw [← List.map_id l]
    exact List.map_congr_left fun b _ => by cases b <;> rfl
  rw [h, List.map_append, List.map_map, hbits, List.map_replicate]
  rfl

@[simp] theorem length_packBits (n : Nat) (bits : List Bool) : (packBits n bits).length = n := by
  induction n generalizing bits with
  | zero => rfl
  | succ n ih => simp [packBits, ih]

theorem packBits_lt (n : Nat) (bits : List Bool) : ∀ byte ∈ packBits n bits, byte < 256 := by
  induction n generalizing bits with
  | zero => simp [packBits]
  | succ n ih =>
    intro byte hbyte
    rcases List.mem_cons.mp hbyte with rfl | hbyte
    · have hlt := Nat.ofDigits_lt_base_pow_length (b := 2) (l := (bits.take 8).map Bool.toNat) (by decide) (by
        intro d hd
        obtain ⟨b, -, rfl⟩ := List.mem_map.mp hd
        exact Bool.toNat_lt b)
      have hlength : ((bits.take 8).map Bool.toNat).length ≤ 8 := by simp
      exact hlt.trans_le (Nat.pow_le_pow_right (by decide) hlength)
    · exact ih _ byte hbyte

theorem take_packBits {k n : Nat} (h : k ≤ n) (bits : List Bool) : (packBits n bits).take k = packBits k bits := by
  induction k generalizing n bits with
  | zero => rfl
  | succ k ih =>
    obtain ⟨n, rfl⟩ := Nat.exists_eq_add_of_lt (Nat.lt_of_succ_le h)
    rw [packBits, packBits, List.take_succ_cons, ih (by omega)]

theorem drop_packBits (k n : Nat) (bits : List Bool) : (packBits (k + n) bits).drop k = packBits n (bits.drop (8 * k)) := by
  induction k generalizing bits with
  | zero => rw [Nat.zero_add, Nat.mul_zero, List.drop_zero, List.drop_zero]
  | succ k ih =>
    rw [Nat.add_right_comm, packBits, List.drop_succ_cons, ih, List.drop_drop]
    congr 2
    omega

theorem ofDigits_packBits_of_false {bits : List Bool} (h : ∀ b ∈ bits, b = false) (n : Nat) :
    Nat.ofDigits 256 (packBits n bits) = 0 := by
  induction n generalizing bits with
  | zero => rfl
  | succ n ih =>
    have hbyte : (bits.take 8).map Bool.toNat = List.replicate (bits.take 8).length 0 := by
      refine List.map_eq_replicate_iff.mpr fun b hb => ?_
      rw [h b (List.mem_of_mem_take hb)]
      rfl
    have hzero : ∀ m, Nat.ofDigits 2 (List.replicate m 0) = 0 := by
      intro m
      induction m with
      | zero => rfl
      | succ m ihm => rw [List.replicate_succ, Nat.ofDigits_cons, ihm]
    rw [packBits, Nat.ofDigits_cons, hbyte, hzero, ih fun b hb => h b (List.mem_of_mem_drop hb)]

theorem unpackBits_packBits {n : Nat} {bits : List Bool} (h : bits.length ≤ 8 * n) :
    unpackBits (packBits n bits) = bits ++ List.replicate (8 * n - bits.length) false := by
  induction n generalizing bits with
  | zero =>
    obtain rfl : bits = [] := by simpa using h
    rfl
  | succ n ih =>
    have hbyte := bits_ofDigits (bits.take 8) (8 - (bits.take 8).length)
    have hrest : (bits.drop 8).length ≤ 8 * n := by
      rw [List.length_drop]
      omega
    have hlength : (bits.take 8).length + (8 - (bits.take 8).length) = 8 := by
      rw [List.length_take]
      omega
    rw [hlength] at hbyte
    show (lowDigits 2 8 (Nat.ofDigits 2 ((bits.take 8).map Bool.toNat))).map (· == 1) ++ unpackBits (packBits n (bits.drop 8)) = _
    rw [hbyte, ih hrest, List.length_take, List.length_drop]
    by_cases hlong : 8 ≤ bits.length
    · rw [Nat.min_eq_left hlong, Nat.sub_self, List.replicate_zero, List.append_nil, ← List.append_assoc,
        List.take_append_drop]
      congr 2
      omega
    · have hshort : bits.length < 8 := by omega
      rw [List.take_of_length_le hshort.le, List.drop_eq_nil_of_le hshort.le, Nat.min_eq_right hshort.le, List.nil_append,
        List.append_assoc, List.replicate_append_replicate]
      congr 2
      omega

/-! ### Base64 -/

namespace Base64

/-- `n` characters from `c` on. -/
def charRange (c : Char) (n : Nat) : List Char := (List.range n).map fun k => Char.ofNat (c.toNat + k)

def alphabet : List Char := charRange 'A' 26 ++ charRange 'a' 26 ++ charRange '0' 10 ++ ['+', '/']

def encodeValue (sextet : Nat) : Char := alphabet.getD sextet '='

/-- The sextet of a character; line breaks and padding have none. -/
def decodeValue (c : Char) : Option Nat := alphabet.idxOf? c

/-- Four characters for every three bytes, and a line break after every 18 of these groups. -/
def encodeFrom : Nat → List Nat → List Char
  | n, a :: b :: c :: bytes =>
    encodeValue (a / 4) :: encodeValue (a % 4 * 16 + b / 16) :: encodeValue (b % 16 * 4 + c / 64) :: encodeValue (c % 64) ::
      (if n + 1 = 18 then '\n' :: encodeFrom 0 bytes else encodeFrom (n + 1) bytes)
  | _, [a, b] => [encodeValue (a / 4), encodeValue (a % 4 * 16 + b / 16), encodeValue (b % 16 * 4), '=']
  | _, [a] => [encodeValue (a / 4), encodeValue (a % 4 * 16), '=', '=']
  | _, [] => []

def encode (bytes : List Nat) : List Char := encodeFrom 0 bytes

/-- The bytes of a list of sextets; what does not fill a byte is dropped. -/
def decodeSextets : List Nat → List Nat
  | a :: b :: c :: d :: sextets =>
    (a * 4 + b / 16) :: (b % 16 * 16 + c / 4) :: (c % 4 * 64 + d) :: decodeSextets sextets
  | [a, b, c] => [a * 4 + b / 16, b % 16 * 16 + c / 4]
  | [a, b] => [a * 4 + b / 16]
  | _ => []

def decode (text : List Char) : List Nat := decodeSextets (text.filterMap decodeValue)

theorem length_encodeFrom {k : Nat} (hk : k < 18) (bytes : List Nat) :
    (encodeFrom k bytes).length = 4 * ((bytes.length + 2) / 3) + (k + bytes.length / 3) / 18 := by
  induction k, bytes using encodeFrom.induct with
  | case1 k a b c bytes ih₀ ih =>
    rw [encodeFrom]
    split
    · simp only [List.length_cons, ih₀ (by omega)]
      omega
    · simp only [List.length_cons, ih (by omega)]
      omega
  | case2 k a b =>
    show 4 = 4 * (4 / 3) + (k + 2 / 3) / 18
    omega
  | case3 k a =>
    show 4 = 4 * (3 / 3) + (k + 1 / 3) / 18
    omega
  | case4 k =>
    show 0 = 4 * (2 / 3) + (k + 0 / 3) / 18
    omega

theorem length_encode (bytes : List Nat) :
    (encode bytes).length = 4 * ((bytes.length + 2) / 3) + bytes.length / 3 / 18 := by
  rw [encode, length_encodeFrom (by decide), Nat.zero_add]

theorem decodeValue_encodeValue {sextet : Nat} (h : sextet < 64) : decodeValue (encodeValue sextet) = some sextet := by
  have hall : ∀ n < 64, decodeValue (encodeValue n) = some n := by decide +kernel
  exact hall sextet h

theorem decode_encodeFrom {bytes : List Nat} (h : ∀ byte ∈ bytes, byte < 256) (n : Nat) :
    decodeSextets ((encodeFrom n bytes).filterMap decodeValue) = bytes := by
  have hbreak : decodeValue '\n' = none := by decide
  have hpad : decodeValue '=' = none := by decide
  induction n, bytes using encodeFrom.induct with
  | case1 n a b c bytes ih₀ ih =>
    have ha : a < 256 := h a (by simp)
    have hb : b < 256 := h b (by simp)
    have hc : c < 256 := h c (by simp)
    have hrest : ∀ byte ∈ bytes, byte < 256 := fun byte hbyte => h byte (by simp [hbyte])
    have htail : decodeSextets ((if n + 1 = 18 then '\n' :: encodeFrom 0 bytes else encodeFrom (n + 1) bytes).filterMap
        decodeValue) = bytes := by
      split
      · rw [List.filterMap_cons_none hbreak]
        exact ih₀ hrest
      · exact ih hrest
    rw [encodeFrom, List.filterMap_cons_some (decodeValue_encodeValue (by omega)),
      List.filterMap_cons_some (decodeValue_encodeValue (by omega)),
      List.filterMap_cons_some (decodeValue_encodeValue (by omega)),
      List.filterMap_cons_some (decodeValue_encodeValue (by omega)), decodeSextets, htail,
      show a / 4 * 4 + (a % 4 * 16 + b / 16) / 16 = a by omega,
      show (a % 4 * 16 + b / 16) % 16 * 16 + (b % 16 * 4 + c / 64) / 4 = b by omega,
      show (b % 16 * 4 + c / 64) % 4 * 64 + c % 64 = c by omega]
  | case2 n a b =>
    have ha : a < 256 := h a (by simp)
    have hb : b < 256 := h b (by simp)
    rw [encodeFrom, List.filterMap_cons_some (decodeValue_encodeValue (by omega)),
      List.filterMap_cons_some (decodeValue_encodeValue (by omega)),
      List.filterMap_cons_some (decodeValue_encodeValue (by omega)), List.filterMap_cons_none hpad, List.filterMap_nil,
      decodeSextets, show a / 4 * 4 + (a % 4 * 16 + b / 16) / 16 = a by omega,
      show (a % 4 * 16 + b / 16) % 16 * 16 + b % 16 * 4 / 4 = b by omega]
  | case3 n a =>
    have ha : a < 256 := h a (by simp)
    rw [encodeFrom, List.filterMap_cons_some (decodeValue_encodeValue (by omega)),
      List.filterMap_cons_some (decodeValue_encodeValue (by omega)), List.filterMap_cons_none hpad,
      List.filterMap_cons_none hpad, List.filterMap_nil, decodeSextets, show a / 4 * 4 + a % 4 * 16 / 16 = a by omega]
  | case4 n => rfl

theorem decode_encode {bytes : List Nat} (h : ∀ byte ∈ bytes, byte < 256) : decode (encode bytes) = bytes :=
  decode_encodeFrom h 0

end Base64
