import Mathlib.Data.Int.Log
import Mathlib.Data.Rat.Floor
import Mathlib.Tactic.Linarith
import Mathlib.Tactic.Positivity

/-!
# Rounding to double precision

The double next to a rational number, ties to even, as far as it is finite. What the proofs need of it is that a number
which is a double is not passed by rounding.
-/

namespace Binary64

/-- The nearest integer, the even one of two. -/
def nearest (q : ℚ) : ℤ :=
  if q - ⌊q⌋ < 1 / 2 then ⌊q⌋
  else if 1 / 2 < q - ⌊q⌋ then ⌊q⌋ + 1
  else if ⌊q⌋ % 2 = 0 then ⌊q⌋ else ⌊q⌋ + 1

/-- The exponent of the last of the 53 bits of a number. -/
def exponent (q : ℚ) : ℤ := max (Int.log 2 q - 52) (-1074)

/-- The double next to a number that is not negative. -/
def round (q : ℚ) : ℚ := nearest (q / 2 ^ exponent q) * 2 ^ exponent q

theorem le_nearest {n : ℤ} {q : ℚ} (h : (n : ℚ) ≤ q) : n ≤ nearest q := by
  have hfloor : n ≤ ⌊q⌋ := Int.le_floor.mpr h
  rw [nearest]
  split
  · exact hfloor
  · split
    · omega
    · split
      · exact hfloor
      · omega

theorem nearest_le {n : ℤ} {q : ℚ} (h : q ≤ n) : nearest q ≤ n := by
  rcases h.eq_or_lt with rfl | hlt
  · have hself : nearest (n : ℚ) = n := by
      rw [nearest, Int.floor_intCast, sub_self, if_pos (by norm_num)]
    exact hself.le
  · have hfloor : ⌊q⌋ < n := Int.floor_lt.mpr hlt
    rw [nearest]
    split
    · omega
    · split
      · omega
      · split
        · omega
        · omega

theorem exists_int_div {m : ℕ} {k e : ℤ} (h : e ≤ k) : ∃ n : ℤ, (m : ℚ) * 2 ^ k / 2 ^ e = n := by
  refine ⟨m * 2 ^ (k - e).toNat, ?_⟩
  have hpow : (2 : ℚ) ^ k / 2 ^ e = 2 ^ (k - e).toNat := by
    rw [← zpow_sub₀ two_ne_zero, ← zpow_natCast, Int.toNat_of_nonneg (by omega)]
  rw [mul_div_assoc, hpow]
  push_cast
  rfl

/-- Above the exponent of a double, a number is larger than the double. -/
theorem le_of_exponent {m : ℕ} (hm : m < 2 ^ 53) {k : ℤ} (hk : -1074 ≤ k) {q : ℚ} (hq : 0 < q) (h : k < exponent q) :
    (m : ℚ) * 2 ^ k < 2 ^ 52 * 2 ^ exponent q ∧ 2 ^ 52 * 2 ^ exponent q ≤ q := by
  have hexponent : exponent q = Int.log 2 q - 52 := by
    rw [exponent] at h ⊢
    omega
  have hlog : (2 : ℚ) ^ Int.log 2 q ≤ q := by
    have := Int.zpow_log_le_self (b := 2) (by decide) hq
    exact_mod_cast this
  have hsplit : (2 : ℚ) ^ 52 * 2 ^ exponent q = 2 ^ Int.log 2 q := by
    rw [hexponent, ← zpow_natCast, ← zpow_add₀ two_ne_zero]
    congr 1
    push_cast
    ring
  refine ⟨?_, hsplit.le.trans hlog⟩
  have hstep : (2 : ℚ) ^ (k + 1) ≤ 2 ^ exponent q := zpow_le_zpow_right₀ one_le_two (by omega)
  have hpos : (0 : ℚ) < 2 ^ k := zpow_pos two_pos k
  have hm' : (m : ℚ) < 2 ^ 53 := by exact_mod_cast hm
  calc (m : ℚ) * 2 ^ k < 2 ^ 53 * 2 ^ k := mul_lt_mul_of_pos_right hm' hpos
    _ = 2 ^ 52 * 2 ^ (k + 1) := by
      rw [zpow_add_one₀ two_ne_zero]
      ring
    _ ≤ 2 ^ 52 * 2 ^ exponent q := mul_le_mul_of_nonneg_left hstep (by positivity)

theorem le_round {m : ℕ} (hm : m < 2 ^ 53) {k : ℤ} (hk : -1074 ≤ k) {q : ℚ} (hq : 0 < q) (h : (m : ℚ) * 2 ^ k ≤ q) :
    (m : ℚ) * 2 ^ k ≤ round q := by
  have hpos : (0 : ℚ) < 2 ^ exponent q := zpow_pos two_pos _
  rcases le_or_gt (exponent q) k with hle | hlt
  · obtain ⟨n, hn⟩ := exists_int_div (m := m) hle
    have hnearest : n ≤ nearest (q / 2 ^ exponent q) := by
      apply le_nearest
      rw [← hn]
      exact div_le_div_of_nonneg_right h hpos.le
    have hself : (m : ℚ) * 2 ^ k = n * 2 ^ exponent q := by
      rw [← hn, div_mul_cancel₀ _ hpos.ne']
    rw [hself, round]
    exact mul_le_mul_of_nonneg_right (by exact_mod_cast hnearest) hpos.le
  · obtain ⟨hbelow, habove⟩ := le_of_exponent hm hk hq hlt
    have hnearest : (2 ^ 52 : ℤ) ≤ nearest (q / 2 ^ exponent q) := by
      apply le_nearest
      rw [le_div_iff₀ hpos]
      exact_mod_cast habove
    refine hbelow.le.trans ?_
    rw [round]
    exact mul_le_mul_of_nonneg_right (by exact_mod_cast hnearest) hpos.le

theorem round_le {m : ℕ} (hm : m < 2 ^ 53) {k : ℤ} (hk : -1074 ≤ k) {q : ℚ} (hq : 0 < q) (h : q ≤ (m : ℚ) * 2 ^ k) :
    round q ≤ (m : ℚ) * 2 ^ k := by
  have hpos : (0 : ℚ) < 2 ^ exponent q := zpow_pos two_pos _
  rcases le_or_gt (exponent q) k with hle | hlt
  · obtain ⟨n, hn⟩ := exists_int_div (m := m) hle
    have hnearest : nearest (q / 2 ^ exponent q) ≤ n := by
      apply nearest_le
      rw [← hn]
      exact div_le_div_of_nonneg_right h hpos.le
    have hself : (m : ℚ) * 2 ^ k = n * 2 ^ exponent q := by
      rw [← hn, div_mul_cancel₀ _ hpos.ne']
    rw [hself, round]
    exact mul_le_mul_of_nonneg_right (by exact_mod_cast hnearest) hpos.le
  · obtain ⟨hbelow, habove⟩ := le_of_exponent hm hk hq hlt
    exact absurd (hbelow.trans_le (habove.trans h)) (lt_irrefl _)

end Binary64
