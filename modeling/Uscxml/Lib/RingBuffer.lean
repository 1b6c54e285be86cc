import Mathlib.Data.Fin.Basic
import Mathlib.Data.List.Basic
import Mathlib.Tactic.Common

/-!
# Ring buffers with a wrap flag

A memory of fixed size, the positions of the next write and of the next read, and a flag that tells a full buffer from
an empty one: it is set while the writer is one round ahead. The contents are read off from the reader's position on.
-/

/-- The flag is set exactly while the writer is one round ahead of the reader. -/
structure RingBuffer (α : Type*) (n : Nat) where
  memory : Fin n → α
  head : Fin n
  tail : Fin n
  looped : Bool
  ordered : if looped = true then head ≤ tail else tail ≤ head

namespace RingBuffer

variable {α : Type*} {n : Nat}

def AtEnd (i : Fin n) : Prop := i.val = n - 1

instance (i : Fin n) : Decidable (AtEnd i) := inferInstanceAs (Decidable (i.val = n - 1))

/-- The position behind another one, back at the start behind the last one. -/
def next (i : Fin n) : Fin n :=
  if h : AtEnd i then ⟨0, i.pos⟩ else ⟨i.val + 1, by have hi := i.isLt; rw [AtEnd] at h; omega⟩

theorem next_of_atEnd {i : Fin n} (h : AtEnd i) : (next i).val = 0 := by
  rw [next, dif_pos h]

theorem next_of_not_atEnd {i : Fin n} (h : ¬ AtEnd i) : (next i).val = i.val + 1 := by
  rw [next, dif_neg h]

theorem next_eq_mod (i : Fin n) : (next i).val = (i.val + 1) % n := by
  have hi := i.isLt
  by_cases h : AtEnd i
  · rw [next_of_atEnd h, show i.val + 1 = n by rw [AtEnd] at h; omega, Nat.mod_self]
  · rw [next_of_not_atEnd h, Nat.mod_eq_of_lt]
    rw [AtEnd] at h
    omega

def ofMemory (memory : Fin (n + 1) → α) : RingBuffer α (n + 1) where
  memory := memory
  head := 0
  tail := 0
  looped := false
  ordered := by simp

def clear (b : RingBuffer α n) : RingBuffer α n where
  memory := b.memory
  head := ⟨0, b.head.pos⟩
  tail := ⟨0, b.head.pos⟩
  looped := false
  ordered := by simp

def CanRead (b : RingBuffer α n) : Prop := b.looped = true ∨ b.head ≠ b.tail

def CanWrite (b : RingBuffer α n) : Prop := b.looped = false ∨ b.head ≠ b.tail

instance (b : RingBuffer α n) : Decidable b.CanRead := inferInstanceAs (Decidable (_ ∨ _))

instance (b : RingBuffer α n) : Decidable b.CanWrite := inferInstanceAs (Decidable (_ ∨ _))

def drop (b : RingBuffer α n) (h : b.CanRead) : RingBuffer α n where
  memory := b.memory
  head := b.head
  tail := next b.tail
  looped := if AtEnd b.tail then false else b.looped
  ordered := by
    have hordered := b.ordered
    have hhead := b.head.isLt
    rw [CanRead, Ne, Fin.ext_iff] at h
    rw [Fin.le_def, Fin.le_def] at *
    by_cases hend : AtEnd b.tail
    · rw [if_pos hend, next_of_atEnd hend]
      simp
    · rw [if_neg hend, next_of_not_atEnd hend]
      split at hordered
      · rename_i hlooped
        rw [if_pos hlooped]
        omega
      · rename_i hlooped
        rw [if_neg hlooped]
        rcases h with h | h
        · exact absurd h hlooped
        · omega

def push (b : RingBuffer α n) (h : b.CanWrite) (a : α) : RingBuffer α n where
  memory := Function.update b.memory b.head a
  head := next b.head
  tail := b.tail
  looped := if AtEnd b.head then true else b.looped
  ordered := by
    have hordered := b.ordered
    have htail := b.tail.isLt
    rw [CanWrite, Ne, Fin.ext_iff] at h
    rw [Fin.le_def, Fin.le_def] at *
    by_cases hend : AtEnd b.head
    · rw [if_pos hend, next_of_atEnd hend]
      simp
    · rw [if_neg hend, next_of_not_atEnd hend]
      split at hordered
      · rename_i hlooped
        rw [if_pos hlooped]
        rcases h with h | h
        · rw [hlooped] at h
          cases h
        · omega
      · rename_i hlooped
        rw [if_neg hlooped]
        omega

/-! ### Contents -/

/-- How far the writer is ahead of the reader. -/
def length (b : RingBuffer α n) : Nat :=
  if b.looped = true then n - b.tail.val + b.head.val else b.head.val - b.tail.val

/-- What stands so many positions behind the reader. -/
def at' (b : RingBuffer α n) (i : Nat) : α := b.memory ⟨(b.tail.val + i) % n, Nat.mod_lt _ b.tail.pos⟩

def contents (b : RingBuffer α n) : List α := (List.range b.length).map b.at'

theorem length_contents (b : RingBuffer α n) : b.contents.length = b.length := by
  rw [contents, List.length_map, List.length_range]

theorem length_le (b : RingBuffer α n) : b.length ≤ n := by
  have hordered := b.ordered
  have htail := b.tail.isLt
  have hhead := b.head.isLt
  rw [Fin.le_def, Fin.le_def] at hordered
  rw [length]
  split
  · rename_i hlooped
    rw [if_pos hlooped] at hordered
    omega
  · omega

theorem canRead_iff (b : RingBuffer α n) : b.CanRead ↔ b.length ≠ 0 := by
  have hordered := b.ordered
  have htail := b.tail.isLt
  rw [CanRead, Ne, Fin.ext_iff, length]
  rw [Fin.le_def, Fin.le_def] at hordered
  split
  · rename_i hlooped
    simp only [hlooped, true_or, true_iff]
    omega
  · rename_i hlooped
    rw [if_neg hlooped] at hordered
    rw [or_iff_right hlooped]
    omega

theorem canWrite_iff (b : RingBuffer α n) : b.CanWrite ↔ b.length ≠ n := by
  have hordered := b.ordered
  have htail := b.tail.isLt
  have hhead := b.head.isLt
  rw [CanWrite, Ne, Fin.ext_iff, length]
  rw [Fin.le_def, Fin.le_def] at hordered
  split
  · rename_i hlooped
    rw [if_pos hlooped] at hordered
    simp only [hlooped, Bool.true_eq_false, false_or]
    omega
  · rename_i hlooped
    rw [if_neg hlooped] at hordered
    simp only [hlooped, true_or, true_iff]
    omega

theorem head_eq (b : RingBuffer α n) : b.head.val = (b.tail.val + b.length) % n := by
  have hordered := b.ordered
  have htail := b.tail.isLt
  have hhead := b.head.isLt
  rw [Fin.le_def, Fin.le_def] at hordered
  rw [length]
  split
  · rw [show b.tail.val + (n - b.tail.val + b.head.val) = b.head.val + n by omega, Nat.add_mod_right,
      Nat.mod_eq_of_lt hhead]
  · rename_i hlooped
    rw [if_neg hlooped] at hordered
    rw [show b.tail.val + (b.head.val - b.tail.val) = b.head.val by omega, Nat.mod_eq_of_lt hhead]

@[simp] theorem contents_clear (b : RingBuffer α n) : b.clear.contents = [] := by
  simp [contents, length, clear]

theorem length_drop (b : RingBuffer α n) (h : b.CanRead) : (b.drop h).length + 1 = b.length := by
  have hordered := b.ordered
  have htail := b.tail.isLt
  rw [CanRead, Ne, Fin.ext_iff] at h
  rw [Fin.le_def, Fin.le_def] at hordered
  rw [length, length]
  by_cases hend : AtEnd b.tail
  · simp only [drop, if_pos hend, next_of_atEnd hend]
    rw [AtEnd] at hend
    split at hordered
    · rename_i hlooped
      simp only [hlooped, Bool.false_eq_true, if_false, if_true]
      omega
    · rename_i hlooped
      have hhead := b.head.isLt
      rcases h with h | h
      · exact absurd h hlooped
      · omega
  · simp only [drop, if_neg hend, next_of_not_atEnd hend]
    rw [AtEnd] at hend
    split at hordered
    · rename_i hlooped
      simp only [hlooped, if_true]
      omega
    · rename_i hlooped
      rcases h with h | h
      · exact absurd h hlooped
      · simp only [hlooped, Bool.false_eq_true, if_false]
        omega

theorem length_push (b : RingBuffer α n) (h : b.CanWrite) (a : α) : (b.push h a).length = b.length + 1 := by
  have hordered := b.ordered
  have htail := b.tail.isLt
  have hhead := b.head.isLt
  rw [CanWrite, Ne, Fin.ext_iff] at h
  rw [Fin.le_def, Fin.le_def] at hordered
  rw [length, length]
  by_cases hend : AtEnd b.head
  · simp only [push, if_pos hend, next_of_atEnd hend]
    rw [AtEnd] at hend
    split at hordered
    · rename_i hlooped
      rcases h with h | h
      · rw [hlooped] at h
        cases h
      · omega
    · rename_i hlooped
      simp only [hlooped, if_true, Bool.false_eq_true, if_false]
      omega
  · simp only [push, if_neg hend, next_of_not_atEnd hend]
    split at hordered
    · rename_i hlooped
      simp only [hlooped, if_true]
      omega
    · rename_i hlooped
      simp only [hlooped, Bool.false_eq_true, if_false]
      omega

theorem contents_eq_cons (b : RingBuffer α n) (h : b.CanRead) : b.contents = b.memory b.tail :: (b.drop h).contents := by
  rw [contents, ← length_drop b h, List.range_succ_eq_map, List.map_cons, List.map_map]
  refine congrArg₂ List.cons ?_ ?_
  · rw [at']
    exact congrArg b.memory (Fin.ext (Nat.mod_eq_of_lt b.tail.isLt))
  · rw [contents]
    refine List.map_congr_left fun i _ => ?_
    rw [Function.comp_apply, at', at']
    refine congrArg b.memory (Fin.ext ?_)
    simp only [drop]
    rw [next_eq_mod, Nat.mod_add_mod]
    exact congrArg (· % n) (by omega)

theorem contents_push (b : RingBuffer α n) (h : b.CanWrite) (a : α) : (b.push h a).contents = b.contents ++ [a] := by
  have hroom : b.length < n := lt_of_le_of_ne b.length_le (b.canWrite_iff.mp h)
  rw [contents, length_push, List.range_succ, List.map_append, List.map_singleton, contents]
  refine congrArg₂ (· ++ ·) (List.map_congr_left fun i hi => ?_) (congrArg (fun x => [x]) ?_)
  · -- a position in front of the writer is not the one written
    have hlt : i < b.length := List.mem_range.mp hi
    rw [at', at']
    refine Function.update_of_ne (fun hsame => ?_) _ _
    have hval : (b.tail.val + i) % n = (b.tail.val + b.length) % n := (congrArg Fin.val hsame).trans b.head_eq
    have hmod : (b.length - i) % n = 0 := by
      have hdvd := Nat.sub_mod_eq_zero_of_mod_eq hval.symm
      rwa [show b.tail.val + b.length - (b.tail.val + i) = b.length - i by omega] at hdvd
    rw [Nat.mod_eq_of_lt (by omega)] at hmod
    omega
  · rw [at']
    have hpos : (⟨((b.push h a).tail.val + b.length) % n, Nat.mod_lt _ b.tail.pos⟩ : Fin n) = b.head :=
      Fin.ext b.head_eq.symm
    rw [hpos]
    exact Function.update_self ..

end RingBuffer
