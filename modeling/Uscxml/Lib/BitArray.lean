import Mathlib.Data.Set.Insert
import Mathlib.Order.SetNotation
import Mathlib.Data.List.GetD
import Mathlib.Tactic.Common

/-!
# Sets as arrays of words

A finite set of numbers is kept in a list of words of `w` bits: the number `i` is in it when bit `i % w` of word `i / w` is
set. An operation that works word by word and bit by bit is an operation on the sets.
-/

namespace BitArray

variable {w : Nat}

/-- The bit at a position; behind the words there is none. -/
def has (a : List (BitVec w)) (i : Nat) : Bool := (a.getD (i / w) 0#w).getLsbD (i % w)

def members (a : List (BitVec w)) : Set Nat := {i | has a i = true}

theorem mem_members {a : List (BitVec w)} {i : Nat} : i ∈ members a ↔ has a i = true := Iff.rfl

theorem has_of_length_le {a : List (BitVec w)} {i : Nat} (h : a.length ≤ i / w) : has a i = false := by
  rw [has, List.getD_eq_getElem?_getD, List.getElem?_eq_none h]
  simp

theorem has_take (a : List (BitVec w)) (k i : Nat) : has (a.take k) i = (decide (i / w < k) && has a i) := by
  by_cases h : i / w < k
  · rw [has, has, List.getD_eq_getElem?_getD, List.getElem?_take_of_lt h]
    simp [h]
  · have hlen : (a.take k).length ≤ i / w := (List.length_take_le k a).trans (Nat.not_lt.mp h)
    rw [has_of_length_le hlen]
    simp [h]

theorem has_zipWith {f : BitVec w → BitVec w → BitVec w} {g : Bool → Bool → Bool} (hzero : g false false = false)
    (hf : ∀ x y j, (f x y).getLsbD j = g (x.getLsbD j) (y.getLsbD j)) {a b : List (BitVec w)} (h : a.length = b.length)
    (i : Nat) : has (List.zipWith f a b) i = g (has a i) (has b i) := by
  by_cases hi : i / w < a.length
  · have hb : i / w < b.length := h ▸ hi
    have hz : i / w < (List.zipWith f a b).length := by
      rw [List.length_zipWith, h, Nat.min_self]
      exact hb
    rw [has, has, has, List.getD_eq_getElem _ _ hz, List.getD_eq_getElem _ _ hi, List.getD_eq_getElem _ _ hb,
      List.getElem_zipWith, hf]
  · have ha : a.length ≤ i / w := Nat.not_lt.mp hi
    have hz : (List.zipWith f a b).length ≤ i / w := by
      rw [List.length_zipWith, ← h, Nat.min_self]
      exact ha
    rw [has_of_length_le hz, has_of_length_le ha, has_of_length_le (h ▸ ha), hzero]

theorem members_or {a b : List (BitVec w)} (h : a.length = b.length) :
    members (List.zipWith (· ||| ·) a b) = members a ∪ members b := by
  ext i
  rw [Set.mem_union, mem_members, has_zipWith rfl (fun x y j => BitVec.getLsbD_or) h, Bool.or_eq_true]
  rfl

theorem members_and {a b : List (BitVec w)} (h : a.length = b.length) :
    members (List.zipWith (· &&& ·) a b) = members a ∩ members b := by
  ext i
  rw [Set.mem_inter_iff, mem_members, has_zipWith rfl (fun x y j => BitVec.getLsbD_and) h, Bool.and_eq_true]
  rfl

theorem members_and_not {a b : List (BitVec w)} (h : a.length = b.length) :
    members (List.zipWith (fun x y => x &&& ~~~ y) a b) = members a \ members b := by
  have hbit : ∀ (x y : BitVec w) j, (x &&& ~~~ y).getLsbD j = (x.getLsbD j && !y.getLsbD j) := by
    intro x y j
    rw [BitVec.getLsbD_and, BitVec.getLsbD_not]
    by_cases hj : j < w
    · simp [hj]
    · simp [BitVec.getLsbD_of_ge x j (Nat.not_lt.mp hj)]
  ext i
  rw [Set.mem_sdiff, mem_members, has_zipWith (g := fun x y => x && !y) rfl hbit h]
  simp [mem_members]

/-- Some number is in the set when some word is not zero. -/
theorem members_nonempty_iff (hw : 0 < w) {a : List (BitVec w)} : (members a).Nonempty ↔ ∃ c ∈ a, c ≠ 0#w := by
  constructor
  · rintro ⟨i, hi⟩
    have hlt : i / w < a.length := by
      by_contra hge
      rw [mem_members, has_of_length_le (Nat.not_lt.mp hge)] at hi
      exact Bool.false_ne_true hi
    rw [mem_members, has, List.getD_eq_getElem _ _ hlt] at hi
    refine ⟨a[i / w], List.getElem_mem hlt, ?_⟩
    intro hzero
    rw [hzero] at hi
    simp at hi
  · rintro ⟨c, hc, hne⟩
    obtain ⟨k, hk, rfl⟩ := List.mem_iff_getElem.mp hc
    obtain ⟨j, hj, hbit⟩ : ∃ j, ∃ _ : j < w, a[k].getLsbD j = true := by
      by_contra hnone
      push Not at hnone
      apply hne
      ext j hj
      rw [← BitVec.getLsbD_eq_getElem]
      simpa using hnone j hj
    refine ⟨w * k + j, ?_⟩
    rw [mem_members, has, Nat.mul_add_div hw, Nat.div_eq_of_lt hj, Nat.add_zero, List.getD_eq_getElem _ _ hk,
      Nat.mul_add_mod, Nat.mod_eq_of_lt hj]
    exact hbit

theorem members_replicate_zero (k : Nat) : members (List.replicate k 0#w) = ∅ := by
  ext i
  rw [mem_members, has]
  by_cases h : i / w < k
  · simp [h]
  · simp [h]

end BitArray
