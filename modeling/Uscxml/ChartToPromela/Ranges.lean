import Mathlib.Data.Nat.Log
import Mathlib.Algebra.Group.Nat.Defs
import Mathlib.Algebra.Group.Int.Defs

/-!
# Types for ranges

`ChartToPromela::declForRange` chooses the type of a variable by the smallest and the largest value it is to hold.
-/

namespace Uscxml

namespace ChartToPromela

inductive PromelaType where
  | bool | byte | short | int
  | unsigned (width : Nat)
  deriving DecidableEq, Repr

def PromelaType.Holds (value : Int) : PromelaType → Prop
  | .bool => 0 ≤ value ∧ value ≤ 1
  | .byte => 0 ≤ value ∧ value ≤ 255
  | .short => -32768 ≤ value ∧ value ≤ 32767
  | .int => -2 ^ 31 ≤ value ∧ value < 2 ^ 31
  | .unsigned width => 0 ≤ value ∧ value < 2 ^ width

structure Decl where
  type : PromelaType
  identifier : String
  deriving DecidableEq, Repr

def Decl.text (decl : Decl) : String :=
  match decl.type with
  | .bool => "bool " ++ decl.identifier
  | .byte => "byte " ++ decl.identifier
  | .short => "short " ++ decl.identifier
  | .int => "int " ++ decl.identifier
  | .unsigned width => "unsigned " ++ decl.identifier ++ " : " ++ toString width

/-- `BIT_WIDTH`: the logarithm to base 2, rounded up. -/
def bitWidth (number : Nat) : Nat := if 1 < number then Nat.clog 2 number else 1

def declForRange (identifier : String) (minValue maxValue : Int) (nativeOnly : Bool) : Decl :=
  if minValue = 0 ∧ maxValue = 0 then ⟨.int, identifier⟩
  else if minValue < 0 then
    if minValue < -32769 ∨ 32767 < maxValue then ⟨.int, identifier⟩ else ⟨.short, identifier⟩
  else if nativeOnly then
    if 32767 < maxValue then ⟨.int, identifier⟩
    else if 255 < maxValue then ⟨.short, identifier⟩
    else if 1 < maxValue then ⟨.byte, identifier⟩
    else ⟨.bool, identifier⟩
  else ⟨.unsigned (bitWidth maxValue.toNat), identifier⟩

theorem lt_two_pow_bitWidth_iff (number : Nat) : number < 2 ^ bitWidth number ↔ ∀ k, 1 ≤ k → number ≠ 2 ^ k := by
  rw [bitWidth]
  split
  · rename_i hlarge
    have hle : number ≤ 2 ^ Nat.clog 2 number := Nat.le_pow_clog (by decide) number
    constructor
    · rintro hlt k - rfl
      rw [Nat.clog_pow 2 k (by decide)] at hlt
      exact Nat.lt_irrefl _ hlt
    · intro hpow
      refine lt_of_le_of_ne hle (hpow _ ?_)
      exact Nat.clog_pos (by decide) hlarge
  · rename_i hsmall
    refine iff_of_true (by omega) fun k hk hpow => ?_
    have : 2 ^ 1 ≤ 2 ^ k := Nat.pow_le_pow_right (by decide) hk
    omega

theorem holds_range_iff {minValue maxValue : Int} (h : minValue ≤ maxValue) (type : PromelaType) :
    (∀ value, minValue ≤ value → value ≤ maxValue → type.Holds value) ↔ type.Holds minValue ∧ type.Holds maxValue := by
  constructor
  · intro hall
    exact ⟨hall minValue (Int.le_refl _) h, hall maxValue h (Int.le_refl _)⟩
  · rintro ⟨hmin, hmax⟩ value hlow hhigh
    cases type with
    | bool | byte | short => exact ⟨hmin.1.trans hlow, hhigh.trans hmax.2⟩
    | int | unsigned width => exact ⟨hmin.1.trans hlow, hhigh.trans_lt hmax.2⟩

/-- The type for a range of 32 bits holds all of its values unless the range begins one below the smallest `short`, or
ends with a power of 2 that the width is computed for. -/
theorem declForRange_holds_iff (identifier : String) {minValue maxValue : Int} (nativeOnly : Bool)
    (h : minValue ≤ maxValue) (hzero : ¬ (minValue = 0 ∧ maxValue = 0)) (hmin : -2 ^ 31 ≤ minValue)
    (hmax : maxValue < 2 ^ 31) :
    (∀ value, minValue ≤ value → value ≤ maxValue →
      (declForRange identifier minValue maxValue nativeOnly).type.Holds value) ↔
    ¬ (minValue = -32769 ∧ maxValue ≤ 32767) ∧
      ¬ (0 ≤ minValue ∧ nativeOnly = false ∧ ∃ k : Nat, 1 ≤ k ∧ maxValue = 2 ^ k) := by
  rw [holds_range_iff h, declForRange, if_neg hzero]
  by_cases hneg : minValue < 0
  · rw [if_pos hneg]
    split
    · refine iff_of_true ⟨⟨hmin, by omega⟩, by omega, hmax⟩ ⟨by omega, fun hpow => absurd hpow.1 (by omega)⟩
    · show (-32768 ≤ minValue ∧ minValue ≤ 32767) ∧ -32768 ≤ maxValue ∧ maxValue ≤ 32767 ↔ _
      constructor
      · rintro ⟨hlow, -⟩
        exact ⟨by omega, fun hpow => absurd hpow.1 (by omega)⟩
      · rintro ⟨hlow, -⟩
        omega
  · rw [if_neg hneg]
    cases nativeOnly with
    | true =>
      rw [if_pos rfl]
      have hpow : ¬ (0 ≤ minValue ∧ true = false ∧ ∃ k : Nat, 1 ≤ k ∧ maxValue = 2 ^ k) := fun hpow => nomatch hpow.2.1
      refine iff_of_true ?_ ⟨by omega, hpow⟩
      split
      · exact ⟨⟨hmin, by omega⟩, by omega, hmax⟩
      · split
        · exact ⟨⟨by omega, by omega⟩, by omega, by omega⟩
        · split
          · exact ⟨⟨by omega, by omega⟩, by omega, by omega⟩
          · exact ⟨⟨by omega, by omega⟩, by omega, by omega⟩
    | false =>
      rw [if_neg Bool.false_ne_true]
      obtain ⟨max, rfl⟩ := Int.eq_ofNat_of_zero_le (show 0 ≤ maxValue by omega)
      have hwidth := lt_two_pow_bitWidth_iff max
      have hcast : (max : Int) < 2 ^ bitWidth max ↔ max < 2 ^ bitWidth max := by exact_mod_cast Iff.rfl
      show (0 ≤ minValue ∧ minValue < 2 ^ bitWidth max) ∧ (0 : Int) ≤ max ∧ (max : Int) < 2 ^ bitWidth max ↔ _
      constructor
      · rintro ⟨-, -, hlt⟩
        refine ⟨by omega, ?_⟩
        rintro ⟨-, -, k, hk, hpow⟩
        exact hwidth.mp (hcast.mp hlt) k hk (by exact_mod_cast hpow)
      · rintro ⟨-, hpow⟩
        have hlt : (max : Int) < 2 ^ bitWidth max := hcast.mpr <| hwidth.mpr fun k hk heq =>
          hpow ⟨by omega, rfl, k, hk, by rw [heq]; push_cast; rfl⟩
        exact ⟨⟨by omega, h.trans_lt hlt⟩, by omega, hlt⟩

theorem declForRange_holds_three :
    (0 : Int) ≤ 3 ∧ ∀ value, 0 ≤ value → value ≤ 3 → (declForRange "x" 0 3 false).type.Holds value := by
  refine ⟨by decide,
    (declForRange_holds_iff "x" false (by decide) (by decide) (by decide) (by decide)).mpr ⟨by decide, ?_⟩⟩
  rintro ⟨-, -, k, hk, hpow⟩
  obtain rfl | hk : k = 1 ∨ 2 ≤ k := by omega
  · exact absurd hpow (by decide)
  · have : (2 : Int) ^ 2 ≤ 2 ^ k := by exact_mod_cast Nat.pow_le_pow_right (show 0 < 2 by decide) hk
    omega

/-- Two bits are declared for the numbers up to 4. -/
theorem four_needs_three_bits :
    ¬ ∀ value, 0 ≤ value → value ≤ 4 → (declForRange "x" 0 4 false).type.Holds value := by
  intro hall
  have hwidth : bitWidth 4 = 2 := Nat.clog_pow 2 2 (by decide)
  have hlt : (4 : Int) < 2 ^ bitWidth 4 := (hall 4 (by decide) (by decide)).2
  rw [hwidth] at hlt
  exact absurd hlt (by decide)

end ChartToPromela

end Uscxml
