import Mathlib.Data.List.Lex
import Mathlib.Data.Finset.Basic

/-!
# Paths in ordered trees

A node of an ordered tree is named by the positions that lead to it from the root, outermost first. The
ancestors of a node are then the proper prefixes of its path, and the order in which a depth first
traversal meets the nodes is the lexicographic order of their paths, a prefix coming before its extensions.
-/

/-- The positions that lead from the root of an ordered tree to a node. -/
abbrev TreePath := List Nat

namespace TreePath

-- Tests of membership use these by name.
instance : LawfulBEq TreePath := List.instLawfulBEq

instance : LawfulBEq (Option TreePath) := Option.instLawfulBEq TreePath

def Below (x a : TreePath) : Prop := a <+: x ∧ a ≠ x

instance (x a : TreePath) : Decidable (Below x a) := inferInstanceAs (Decidable (_ ∧ _))

theorem Below.ne {x a : TreePath} (h : Below x a) : x ≠ a := fun he => h.2 he.symm

theorem not_below_self (x : TreePath) : ¬ Below x x := fun h => h.2 rfl

theorem Below.length_lt {x a : TreePath} (h : Below x a) : a.length < x.length := by
  refine lt_of_le_of_ne h.1.length_le ?_
  intro he
  exact h.2 (h.1.eq_of_length he)

theorem Below.trans {x y z : TreePath} (h : Below x y) (h' : Below y z) : Below x z := by
  refine ⟨h'.1.trans h.1, ?_⟩
  rintro rfl
  exact absurd h.length_lt (Nat.not_lt.mpr h'.1.length_le)

theorem Below.trans_above {x y z : TreePath} (h : Below x y) (h' : z <+: y) : Below x z := by
  refine ⟨h'.trans h.1, ?_⟩
  rintro rfl
  exact absurd h.length_lt (Nat.not_lt.mpr h'.length_le)

theorem Below.prefix_trans {x y z : TreePath} (h : y <+: x) (h' : Below y z) : Below x z := by
  refine ⟨h'.1.trans h, ?_⟩
  rintro rfl
  exact absurd h'.length_lt (Nat.not_lt.mpr h.length_le)

theorem Below.asymm {x y : TreePath} (h : Below x y) : ¬ Below y x :=
  fun h' => absurd h.length_lt (Nat.not_lt.mpr h'.length_lt.le)

theorem below_nil {x : TreePath} : Below x [] ↔ x ≠ [] :=
  ⟨fun h => h.ne, fun h => ⟨List.nil_prefix, h.symm⟩⟩

theorem not_nil_below (x : TreePath) : ¬ Below [] x := fun h => h.2 (List.prefix_nil.mp h.1)

theorem below_or_eq_of_prefix {x a : TreePath} (h : a <+: x) : x = a ∨ Below x a := by
  by_cases he : a = x
  · exact Or.inl he.symm
  · exact Or.inr ⟨h, he⟩

theorem prefix_antisymm {x a : TreePath} (h : a <+: x) (h' : x <+: a) : a = x :=
  h.eq_of_length (Nat.le_antisymm h.length_le h'.length_le)

theorem comparable {x a b : TreePath} (ha : a <+: x) (hb : b <+: x) : a = b ∨ Below a b ∨ Below b a := by
  rcases List.prefix_or_prefix_of_prefix ha hb with h | h
  · rcases below_or_eq_of_prefix h with he | he
    · exact Or.inl he.symm
    · exact Or.inr (Or.inr he)
  · rcases below_or_eq_of_prefix h with he | he
    · exact Or.inl he
    · exact Or.inr (Or.inl he)

/-! ### Parents and children -/

/-- The parent of a node; the root is its own parent. -/
def parent (x : TreePath) : TreePath := x.dropLast

@[simp] theorem parent_concat (p : TreePath) (k : Nat) : parent (p ++ [k]) = p := by
  simp [parent]

theorem concat_ne (p : TreePath) (k : Nat) : p ++ [k] ≠ p := by
  intro h
  have := congrArg List.length h
  simp at this

theorem eq_parent_concat {x : TreePath} (h : x ≠ []) : ∃ k, x = parent x ++ [k] :=
  ⟨x.getLast h, (List.dropLast_append_getLast h).symm⟩

theorem below_parent {x : TreePath} (h : x ≠ []) : Below x (parent x) := by
  obtain ⟨k, hk⟩ := eq_parent_concat h
  refine ⟨List.dropLast_prefix x, fun he => ?_⟩
  exact concat_ne (parent x) k (hk.symm.trans he.symm)

theorem prefix_parent_of_below {x a : TreePath} (h : Below x a) : a <+: parent x := by
  refine List.prefix_of_prefix_length_le h.1 (List.dropLast_prefix x) ?_
  have hlt := h.length_lt
  rw [parent, List.length_dropLast]
  omega

/-- A node strictly below `a` is a child of `a` or strictly below one. -/
theorem exists_child_of_below {x a : TreePath} (h : Below x a) :
    ∃ k, a ++ [k] <+: x := by
  obtain ⟨s, hs⟩ := h.1
  cases s with
  | nil => exact absurd (by simpa using hs) h.2
  | cons k s => exact ⟨k, s, by simpa using hs⟩

theorem below_of_parent_eq {x a : TreePath} (hx : x ≠ []) (h : parent x = a) : Below x a :=
  h ▸ below_parent hx

/-! ### Document order -/

theorem append_lt_append {a s t : TreePath} (h : s < t) : a ++ s < a ++ t := List.append_left_lt h

theorem lt_append_of_ne_nil (a : TreePath) {s : TreePath} (hs : s ≠ []) : a < a ++ s := by
  cases s with
  | nil => exact absurd rfl hs
  | cons k s =>
    simpa using append_lt_append (a := a) (List.nil_lt_cons k s)

theorem Below.lt {x a : TreePath} (h : Below x a) : a < x := by
  obtain ⟨s, rfl⟩ := h.1
  refine lt_append_of_ne_nil a ?_
  rintro rfl
  exact h.2 (List.append_nil a).symm

/-- A node below `p` that is not below its first child comes behind that child. -/
theorem first_child_lt {p x : TreePath} (h : Below x p) (hn : ¬ p ++ [0] <+: x) : p ++ [0] < x := by
  obtain ⟨k, hk⟩ := exists_child_of_below h
  have hk0 : k ≠ 0 := by
    rintro rfl
    exact hn hk
  have hlt : p ++ [0] < p ++ [k] :=
    append_lt_append (List.cons_lt_cons_iff.mpr (Or.inl (Nat.pos_of_ne_zero hk0)))
  rcases below_or_eq_of_prefix hk with heq | hb
  · exact heq ▸ hlt
  · exact hlt.trans hb.lt

theorem prefix_of_between {p x y z : TreePath} (hx : p <+: x) (hz : p <+: z) (hxy : x < y) (hyz : y < z) : p <+: y := by
  induction p generalizing x y z with
  | nil => exact List.nil_prefix
  | cons k p ih =>
    obtain ⟨x, rfl⟩ := hx
    obtain ⟨z, rfl⟩ := hz
    cases y with
    | nil => exact absurd hxy (List.not_lt_nil _)
    | cons j y =>
      rw [List.cons_append, List.cons_lt_cons_iff] at hxy hyz
      obtain rfl : j = k := by omega
      simp only [lt_self_iff_false, true_and, false_or] at hxy hyz
      exact List.cons_prefix_cons.mpr ⟨rfl, ih (List.prefix_append p x) (List.prefix_append p z) hxy hyz⟩

/-- Nodes of which neither is above the other stand in the order of the nodes below them. -/
theorem lt_of_prefixes_lt {p q x y : TreePath} (hx : p <+: x) (hy : q <+: y) (hpq : ¬ p <+: q) (hqp : ¬ q <+: p)
    (h : x < y) : p < q := by
  induction p generalizing q x y with
  | nil => exact absurd List.nil_prefix hpq
  | cons k p ih =>
    cases q with
    | nil => exact absurd List.nil_prefix hqp
    | cons j q =>
      obtain ⟨x, rfl⟩ := hx
      obtain ⟨y, rfl⟩ := hy
      rw [List.cons_append, List.cons_append, List.cons_lt_cons_iff] at h
      rw [List.cons_prefix_cons] at hpq hqp
      rw [List.cons_lt_cons_iff]
      rcases h with h | ⟨rfl, h⟩
      · exact Or.inl h
      · refine Or.inr ⟨rfl, ih (List.prefix_append p x) (List.prefix_append q y) ?_ ?_ h⟩
        · exact fun hp => hpq ⟨rfl, hp⟩
        · exact fun hp => hqp ⟨rfl, hp⟩

theorem eq_of_prefix_of_parent_eq {x c c' : TreePath} (hc : c <+: x) (hc' : c' <+: x) (hne : c ≠ []) (hne' : c' ≠ [])
    (h : parent c = parent c') : c = c' := by
  obtain ⟨k, hk⟩ := eq_parent_concat hne
  obtain ⟨k', hk'⟩ := eq_parent_concat hne'
  have hlen : c.length = c'.length := by
    rw [hk, hk', h, List.length_append, List.length_append]
    rfl
  exact (List.prefix_of_prefix_length_le hc hc' hlen.le).eq_of_length hlen

/-- The longest common part of two paths: where the ways to them part. -/
def meet : TreePath → TreePath → TreePath
  | i :: x, j :: y => if i = j then i :: meet x y else []
  | _, _ => []

theorem meet_above_left (x y : TreePath) : meet x y <+: x := by
  fun_induction meet x y with
  | case1 i x y ih => exact List.cons_prefix_cons.mpr ⟨rfl, ih⟩
  | case2 => exact List.nil_prefix
  | case3 => exact List.nil_prefix

theorem meet_above_right (x y : TreePath) : meet x y <+: y := by
  fun_induction meet x y with
  | case1 i x y ih => exact List.cons_prefix_cons.mpr ⟨rfl, ih⟩
  | case2 => exact List.nil_prefix
  | case3 => exact List.nil_prefix

theorem le_meet {a x y : TreePath} (hx : a <+: x) (hy : a <+: y) : a <+: meet x y := by
  induction a generalizing x y with
  | nil => exact List.nil_prefix
  | cons k a ih =>
    obtain ⟨r, rfl⟩ := hx
    obtain ⟨r', rfl⟩ := hy
    rw [List.cons_append, List.cons_append, meet, if_pos rfl]
    exact List.cons_prefix_cons.mpr ⟨rfl, ih (List.prefix_append a r) (List.prefix_append a r')⟩

end TreePath
