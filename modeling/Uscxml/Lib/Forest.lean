import Uscxml.Lib.Path

/-!
# Ordered forests

A forest in first child, next sibling form, and a tree as a root over a forest. The two depth first
traversals list the paths of the nodes: in preorder a node comes before its subtree, which is the
lexicographic order of the paths, and in postorder after it.
-/

/-- An ordered forest: the first tree's root with its children, and the trees after it. -/
inductive Forest (α : Type*) where
  | nil
  | cons (a : α) (kids next : Forest α)
  deriving DecidableEq, Repr

namespace Forest

variable {α β : Type*}

/-- The label of the node at a path, whose head is a position among the roots. -/
def get? : Forest α → TreePath → Option α
  | nil, _ => none
  | cons _ _ _, [] => none
  | cons a _ _, [0] => some a
  | cons _ kids _, 0 :: k :: p => kids.get? (k :: p)
  | cons _ _ next, (k + 1) :: p => next.get? (k :: p)

@[simp] theorem get?_nil (f : Forest α) : f.get? [] = none := by
  cases f <;> rfl

@[simp] theorem nil_get? (p : TreePath) : (nil : Forest α).get? p = none := by
  cases p <;> rfl

@[simp] theorem cons_get?_zero (a : α) (kids next : Forest α) : (cons a kids next).get? [0] = some a := rfl

theorem cons_get?_kids (a : α) (kids next : Forest α) {p : TreePath} (hp : p ≠ []) :
    (cons a kids next).get? (0 :: p) = kids.get? p := by
  cases p with
  | nil => exact absurd rfl hp
  | cons k p => rfl

@[simp] theorem cons_get?_next (a : α) (kids next : Forest α) (k : Nat) (p : TreePath) :
    (cons a kids next).get? ((k + 1) :: p) = next.get? (k :: p) := by
  cases p <;> rfl

theorem isSome_of_append {f : Forest α} {p q : TreePath} (hp : p ≠ []) (h : (f.get? (p ++ q)).isSome) :
    (f.get? p).isSome := by
  induction f generalizing p with
  | nil => simp at h
  | cons a kids next ihk ihn =>
    match p, hp with
    | [0], _ => simp
    | 0 :: k :: p, _ =>
      rw [cons_get?_kids _ _ _ (by simp)]
      exact ihk (by simp) (by simpa [cons_get?_kids] using h)
    | (k + 1) :: p, _ =>
      rw [cons_get?_next]
      exact ihn (by simp) (by simpa using h)

/-! ### The traversals -/

/-- The paths of the nodes, a node before its subtree, with the roots counted from `k`. -/
def preorderFrom : Nat → Forest α → List TreePath
  | _, nil => []
  | k, cons _ kids next => [k] :: ((kids.preorderFrom 0).map (k :: ·) ++ next.preorderFrom (k + 1))

/-- The paths of the nodes, a node after its subtree, with the roots counted from `k`. -/
def postorderFrom : Nat → Forest α → List TreePath
  | _, nil => []
  | k, cons _ kids next => (kids.postorderFrom 0).map (k :: ·) ++ [k] :: next.postorderFrom (k + 1)

theorem mem_preorderFrom {f : Forest α} {k : Nat} {p : TreePath} :
    p ∈ preorderFrom k f ↔ ∃ j q, p = (k + j) :: q ∧ (f.get? (j :: q)).isSome := by
  induction f generalizing k p with
  | nil => simp [preorderFrom]
  | cons a kids next ihk ihn =>
    simp only [preorderFrom, List.mem_cons, List.mem_append, List.mem_map, ihk, ihn]
    constructor
    · rintro (rfl | ⟨_, ⟨j, q, rfl, hq⟩, rfl⟩ | ⟨j, q, rfl, hq⟩)
      · exact ⟨0, [], by simp, by simp⟩
      · exact ⟨0, j :: q, by simp, by simpa [cons_get?_kids] using hq⟩
      · exact ⟨j + 1, q, by rw [Nat.add_assoc, Nat.add_comm 1 j], by simpa using hq⟩
    · rintro ⟨j, q, rfl, hq⟩
      match j, q with
      | 0, [] => exact Or.inl (by simp)
      | 0, i :: q => exact Or.inr (Or.inl ⟨i :: q, ⟨i, q, by simp, hq⟩, by simp⟩)
      | j + 1, q =>
        exact Or.inr (Or.inr ⟨j, q, by rw [Nat.add_assoc, Nat.add_comm 1 j], by simpa using hq⟩)

theorem mem_postorderFrom {f : Forest α} {k : Nat} {p : TreePath} :
    p ∈ postorderFrom k f ↔ p ∈ preorderFrom k f := by
  induction f generalizing k p with
  | nil => simp [preorderFrom, postorderFrom]
  | cons a kids next ihk ihn =>
    simp only [preorderFrom, postorderFrom, List.mem_cons, List.mem_append, List.mem_map, ihk, ihn]
    exact or_left_comm

theorem preorderFrom_pairwise (f : Forest α) (k : Nat) : (preorderFrom k f).Pairwise (· < ·) := by
  induction f generalizing k with
  | nil => simp [preorderFrom]
  | cons a kids next ihk ihn =>
    rw [preorderFrom, List.pairwise_cons, List.pairwise_append]
    refine ⟨?_, ?_, ihn (k + 1), ?_⟩
    · intro p hp
      rcases List.mem_append.mp hp with hp | hp
      · obtain ⟨q, hq, rfl⟩ := List.mem_map.mp hp
        obtain ⟨j, r, rfl, -⟩ := mem_preorderFrom.mp hq
        exact List.cons_lt_cons_iff.mpr (Or.inr ⟨rfl, by simp⟩)
      · obtain ⟨j, q, rfl, -⟩ := mem_preorderFrom.mp hp
        exact List.cons_lt_cons_iff.mpr (Or.inl (by omega))
    · rw [List.pairwise_map]
      exact (ihk 0).imp fun h => List.cons_lt_cons_iff.mpr (Or.inr ⟨rfl, h⟩)
    · intro p hp q hq
      obtain ⟨p', -, rfl⟩ := List.mem_map.mp hp
      obtain ⟨j, q', rfl, -⟩ := mem_preorderFrom.mp hq
      exact List.cons_lt_cons_iff.mpr (Or.inl (by omega))

end Forest

/-- How two nodes stand in postorder: the first lies below the second, or they are incomparable and the
first comes first in document order. -/
def TreePath.PostLt (p q : TreePath) : Prop := p.Below q ∨ (¬ q <+: p ∧ ¬ p <+: q ∧ p < q)

namespace Forest

variable {α : Type*}

theorem postorderFrom_pairwise (f : Forest α) (k : Nat) : (postorderFrom k f).Pairwise TreePath.PostLt := by
  induction f generalizing k with
  | nil => simp [postorderFrom]
  | cons a kids next ihk ihn =>
    -- Everything under the first root is separated from everything after it by the first position.
    have hsep : ∀ p : TreePath, ∀ q ∈ postorderFrom (k + 1) next, TreePath.PostLt (k :: p) q := by
      intro p q hq
      obtain ⟨j, r, rfl, -⟩ := mem_preorderFrom.mp (mem_postorderFrom.mp hq)
      refine Or.inr ⟨?_, ?_, List.cons_lt_cons_iff.mpr (Or.inl (by omega))⟩ <;>
        · rw [List.cons_prefix_cons]
          omega
    rw [postorderFrom, List.pairwise_append, List.pairwise_map, List.pairwise_cons]
    refine ⟨(ihk 0).imp ?_, ⟨hsep [], ihn (k + 1)⟩, ?_⟩
    · intro p q hpq
      rcases hpq with ⟨hpre, hne⟩ | ⟨hqp, hpq, hlt⟩
      · exact Or.inl ⟨List.cons_prefix_cons.mpr ⟨rfl, hpre⟩, fun he => hne (List.cons.inj he).2⟩
      · refine Or.inr ⟨?_, ?_, List.cons_lt_cons_iff.mpr (Or.inr ⟨rfl, hlt⟩)⟩
        · exact fun h => hqp (List.cons_prefix_cons.mp h).2
        · exact fun h => hpq (List.cons_prefix_cons.mp h).2
    · intro p hp q hq
      obtain ⟨p', hp', rfl⟩ := List.mem_map.mp hp
      rcases List.mem_cons.mp hq with rfl | hq
      · obtain ⟨j, r, rfl, -⟩ := mem_preorderFrom.mp (mem_postorderFrom.mp hp')
        exact Or.inl ⟨List.cons_prefix_cons.mpr ⟨rfl, List.nil_prefix⟩, by simp⟩
      · exact hsep p' q hq

end Forest

/-! ### Trees -/

/-- An ordered tree: a root over a forest. -/
structure RoseTree (α : Type*) where
  root : α
  kids : Forest α
  deriving DecidableEq, Repr

namespace RoseTree

variable {α : Type*}

/-- The label at a path; the empty path is the root. -/
def get? (t : RoseTree α) : TreePath → Option α
  | [] => some t.root
  | k :: p => t.kids.get? (k :: p)

/-- The paths in document order. -/
def preorder (t : RoseTree α) : List TreePath := [] :: t.kids.preorderFrom 0

/-- The paths with every node after its subtree. -/
def postorder (t : RoseTree α) : List TreePath := t.kids.postorderFrom 0 ++ [[]]

@[simp] theorem get?_nil (t : RoseTree α) : t.get? [] = some t.root := rfl

theorem mem_preorder {t : RoseTree α} {p : TreePath} : p ∈ t.preorder ↔ (t.get? p).isSome := by
  rw [preorder, List.mem_cons, Forest.mem_preorderFrom]
  cases p with
  | nil => simp
  | cons k p => simp [get?]

theorem mem_postorder {t : RoseTree α} {p : TreePath} : p ∈ t.postorder ↔ p ∈ t.preorder := by
  rw [postorder, preorder, List.mem_append, List.mem_singleton, List.mem_cons, Forest.mem_postorderFrom]
  exact or_comm

theorem nil_mem_preorder (t : RoseTree α) : [] ∈ t.preorder := List.mem_cons_self

theorem preorder_pairwise (t : RoseTree α) : t.preorder.Pairwise (· < ·) := by
  refine List.pairwise_cons.mpr ⟨?_, Forest.preorderFrom_pairwise t.kids 0⟩
  intro p hp
  obtain ⟨j, q, rfl, -⟩ := Forest.mem_preorderFrom.mp hp
  simp

theorem preorder_nodup (t : RoseTree α) : t.preorder.Nodup :=
  t.preorder_pairwise.imp fun h => ne_of_lt h

theorem postorder_pairwise (t : RoseTree α) : t.postorder.Pairwise TreePath.PostLt := by
  refine List.pairwise_append.mpr ⟨Forest.postorderFrom_pairwise t.kids 0, List.pairwise_singleton _ _, ?_⟩
  intro p hp q hq
  obtain rfl := List.mem_singleton.mp hq
  obtain ⟨j, r, rfl, -⟩ := Forest.mem_preorderFrom.mp (Forest.mem_postorderFrom.mp hp)
  exact Or.inl (TreePath.below_nil.mpr (by simp))

theorem mem_preorder_of_prefix {t : RoseTree α} {p q : TreePath} (h : p <+: q) (hq : q ∈ t.preorder) :
    p ∈ t.preorder := by
  obtain ⟨r, rfl⟩ := h
  cases p with
  | nil => exact t.nil_mem_preorder
  | cons k p =>
    rw [mem_preorder] at hq ⊢
    exact Forest.isSome_of_append (by simp) hq

end RoseTree
