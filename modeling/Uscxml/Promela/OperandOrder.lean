import Uscxml.Promela.DataModel

/-!
# The order of operands

The two calls for the operands of an operator on integers take them from one iterator, and the compiler decides which call
comes first. The value is the one the text asks for in all orders where swapping the operands makes no difference.
-/

namespace Uscxml.Promela

open Trapping

def ArithOp.ordered (op : ArithOp) : Bool := op ∈ [minus, divide, modulo, lshift, rshift, lt, le, gt, ge]

theorem ArithOp.compute_comm {op : ArithOp} (h : op.ordered = false) (x y : Int) : op.compute x y = op.compute y x := by
  cases op with
  | plus => simp only [compute, Int.add_comm x y]
  | times => simp only [compute, Int.mul_comm x y]
  | _ => cases h

theorem ofBool_inj {a b : Bool} : Data.ofBool a = Data.ofBool b ↔ a = b := by
  constructor
  · intro h
    have hatom : (Data.ofBool a).atom = (Data.ofBool b).atom := congrArg Data.atom h
    cases a <;> cases b <;> first | rfl | exact absurd hatom (by decide)
  · exact congrArg Data.ofBool

/-- Swapping the operands of a comparison makes no difference when they are equal, and only then. -/
theorem ArithOp.compute_swap_iff_eq {op : ArithOp} (h : op ∈ [lt, le, gt, ge]) (x y : Int) :
    op.compute x y = op.compute y x ↔ x = y := by
  have hiff : ∀ p q : Prop, ∀ [Decidable p] [Decidable q],
      (.ok (.ofBool (decide p)) : Result Data) = .ok (.ofBool (decide q)) ↔ (p ↔ q) := by
    intro p q _ _
    rw [Except.ok.injEq, ofBool_inj, decide_eq_decide]
  cases op with
  | lt => exact (hiff _ _).trans (by omega)
  | le => exact (hiff _ _).trans (by omega)
  | gt => exact (hiff _ _).trans (by omega)
  | ge => exact (hiff _ _).trans (by omega)
  | _ => simp at h

/-- The operators on integers in a tree, with their operands. -/
def Expr.nodes : Expr → List (ArithOp × Expr × Expr)
  | varArray _ index => index.nodes
  | arith op lhs rhs => (op, lhs, rhs) :: (lhs.nodes ++ rhs.nodes)
  | eq lhs rhs => lhs.nodes ++ rhs.nodes
  | and lhs rhs => lhs.nodes ++ rhs.nodes
  | or lhs rhs => lhs.nodes ++ rhs.nodes
  | other _ lhs rhs => lhs.nodes ++ rhs.nodes
  | neg operand => operand.nodes
  | minus operand => operand.nodes
  | len varref => varref.nodes
  | _ => []

/-- A compiler that decides for every operator which call comes first. -/
def Config.compiled (c : Config) (leftFirst : ArithOp → Bool) : Config := { c with leftFirst }

def inOrder : ArithOp → Bool := fun _ => true

variable {c : Config} {s : Store}

/-- With every compiler, the operators whose operands have an order are evaluated to the left operand, the operator and the
right operand. -/
def RespectsOrder (c : Config) (s : Store) (e : Expr) : Prop :=
  ∀ leftFirst, ∀ node ∈ e.nodes, node.1.ordered = true → ∀ x y,
    evaluateInt (c.compiled leftFirst) s node.2.1 = .ok x → evaluateInt (c.compiled leftFirst) s node.2.2 = .ok y →
    evaluateExpr (c.compiled leftFirst) s (.arith node.1 node.2.1 node.2.2) = node.1.compute x y

/-- Swapping the operands makes no difference to any of these operators. -/
def Swaps (c : Config) (s : Store) (e : Expr) : Prop :=
  ∀ node ∈ e.nodes, node.1.ordered = true → ∀ x y,
    evaluateInt (c.compiled inOrder) s node.2.1 = .ok x → evaluateInt (c.compiled inOrder) s node.2.2 = .ok y →
    node.1.compute x y = node.1.compute y x

theorem evaluateExpr_arith {op : ArithOp} {lhs rhs : Expr} {x y : Int} (hx : evaluateInt c s lhs = .ok x)
    (hy : evaluateInt c s rhs = .ok y) :
    evaluateExpr c s (.arith op lhs rhs) = if c.leftFirst op then op.compute x y else op.compute y x := by
  change (evaluateInt c s lhs >>= fun x => evaluateInt c s rhs >>= fun y => _) = _
  rw [hx, hy]
  rfl

theorem sameValue_evaluateInt {leftFirst leftFirst' : ArithOp → Bool} {e : Expr}
    (h : SameValue (evaluateExpr (c.compiled leftFirst) s e) (evaluateExpr (c.compiled leftFirst') s e)) :
    SameValue (evaluateInt (c.compiled leftFirst) s e) (evaluateInt (c.compiled leftFirst') s e) :=
  SameValue.bind h fun _ _ => SameValue.refl _

theorem Swaps.sub {e e' : Expr} (h : Swaps c s e) (hsub : e'.nodes ⊆ e.nodes) : Swaps c s e' :=
  fun node hnode => h node (hsub hnode)

theorem RespectsOrder.sub {e e' : Expr} (h : RespectsOrder c s e) (hsub : e'.nodes ⊆ e.nodes) : RespectsOrder c s e' :=
  fun leftFirst node hnode => h leftFirst node (hsub hnode)

theorem nodes_lhs (op : ArithOp) (lhs rhs : Expr) : lhs.nodes ⊆ (Expr.arith op lhs rhs).nodes :=
  fun _ h => List.mem_cons_of_mem _ (List.mem_append_left _ h)

theorem nodes_rhs (op : ArithOp) (lhs rhs : Expr) : rhs.nodes ⊆ (Expr.arith op lhs rhs).nodes :=
  fun _ h => List.mem_cons_of_mem _ (List.mem_append_right _ h)

theorem compute_swap {op : ArithOp} {lhs rhs : Expr} (h : Swaps c s (.arith op lhs rhs)) {x y : Int}
    (hx : evaluateInt (c.compiled inOrder) s lhs = .ok x) (hy : evaluateInt (c.compiled inOrder) s rhs = .ok y) :
    op.compute x y = op.compute y x := by
  cases hordered : op.ordered with
  | false => exact ArithOp.compute_comm hordered x y
  | true => exact h (op, lhs, rhs) List.mem_cons_self hordered x y hx hy

theorem sameValue_operands {leftFirst leftFirst' : ArithOp → Bool} {lhs rhs : Expr} {f : Data → Data → Result Data}
    (hl : SameValue (evaluateExpr (c.compiled leftFirst) s lhs) (evaluateExpr (c.compiled leftFirst') s lhs))
    (hr : SameValue (evaluateExpr (c.compiled leftFirst) s rhs) (evaluateExpr (c.compiled leftFirst') s rhs)) :
    SameValue (evaluateExpr (c.compiled leftFirst) s lhs >>= fun x => evaluateExpr (c.compiled leftFirst) s rhs >>= f x)
      (evaluateExpr (c.compiled leftFirst') s lhs >>= fun x => evaluateExpr (c.compiled leftFirst') s rhs >>= f x) := by
  refine SameValue.bind hl ?_
  intro left _
  exact SameValue.bind hr fun right _ => SameValue.refl _

/-- Where swapping makes no difference, neither does the order. -/
theorem sameValue_evaluateExpr {e : Expr} (h : Swaps c s e) (leftFirst : ArithOp → Bool) :
    SameValue (evaluateExpr (c.compiled leftFirst) s e) (evaluateExpr (c.compiled inOrder) s e) := by
  induction e with
  | const value => exact SameValue.refl _
  | string value => exact SameValue.refl _
  | name value => exact SameValue.refl _
  | cmpnd name field fields => exact SameValue.refl _
  | other op lhs rhs => exact SameValue.refl _
  | len varref => exact SameValue.refl _
  | varArray name index ih =>
    refine SameValue.bind (sameValue_evaluateInt (ih h)) ?_
    intro index _
    exact SameValue.refl _
  | neg operand ih =>
    refine SameValue.bind (SameValue.bind (ih h) fun _ _ => SameValue.refl _) ?_
    intro value _
    exact SameValue.refl _
  | minus operand ih =>
    refine SameValue.bind (sameValue_evaluateInt (ih h)) ?_
    intro x _
    exact SameValue.refl _
  | eq lhs rhs ihl ihr =>
    exact sameValue_operands (ihl (h.sub (List.subset_append_left _ _))) (ihr (h.sub (List.subset_append_right _ _)))
  | and lhs rhs ihl ihr =>
    exact sameValue_operands (ihl (h.sub (List.subset_append_left _ _))) (ihr (h.sub (List.subset_append_right _ _)))
  | or lhs rhs ihl ihr =>
    exact sameValue_operands (ihl (h.sub (List.subset_append_left _ _))) (ihr (h.sub (List.subset_append_right _ _)))
  | arith op lhs rhs ihl ihr =>
    have hl := sameValue_evaluateInt (ihl (h.sub (nodes_lhs op lhs rhs)))
    have hr := sameValue_evaluateInt (ihr (h.sub (nodes_rhs op lhs rhs)))
    refine SameValue.bind hl ?_
    intro x hx
    refine SameValue.bind hr ?_
    intro y hy
    have hswap := compute_swap h ((hl x).mp hx) ((hr y).mp hy)
    change SameValue (if leftFirst op then op.compute x y else op.compute y x) (op.compute x y)
    rw [← hswap, ite_self]
    exact SameValue.refl _

/-- At one operator the orders agree only where swapping makes no difference. -/
theorem swaps_node {op : ArithOp} {lhs rhs : Expr} (h : RespectsOrder c s (.arith op lhs rhs)) (hl : Swaps c s lhs)
    (hr : Swaps c s rhs) (hordered : op.ordered = true) {x y : Int} (hx : evaluateInt (c.compiled inOrder) s lhs = .ok x)
    (hy : evaluateInt (c.compiled inOrder) s rhs = .ok y) : op.compute x y = op.compute y x := by
  -- the compiler that evaluates the right call of every operator first
  have hx' := (sameValue_evaluateInt (sameValue_evaluateExpr hl fun _ => false) x).mpr hx
  have hy' := (sameValue_evaluateInt (sameValue_evaluateExpr hr fun _ => false) y).mpr hy
  calc op.compute x y = evaluateExpr (c.compiled fun _ => false) s (.arith op lhs rhs) :=
        (h (fun _ => false) (op, lhs, rhs) List.mem_cons_self hordered x y hx' hy').symm
    _ = op.compute y x := evaluateExpr_arith hx' hy'

theorem RespectsOrder.swaps_append {e e₁ e₂ : Expr} (h : RespectsOrder c s e) (hnodes : e.nodes = e₁.nodes ++ e₂.nodes)
    (ih₁ : RespectsOrder c s e₁ → Swaps c s e₁) (ih₂ : RespectsOrder c s e₂ → Swaps c s e₂) : Swaps c s e := by
  intro node hnode
  rw [hnodes] at hnode
  rcases List.mem_append.mp hnode with hnode | hnode
  · exact ih₁ (h.sub (by rw [hnodes]; exact List.subset_append_left _ _)) node hnode
  · exact ih₂ (h.sub (by rw [hnodes]; exact List.subset_append_right _ _)) node hnode

theorem RespectsOrder.swaps {e : Expr} (h : RespectsOrder c s e) : Swaps c s e := by
  induction e with
  | varArray name index ih => exact ih h
  | neg operand ih => exact ih h
  | minus operand ih => exact ih h
  | len varref ih => exact ih h
  | eq lhs rhs ihl ihr =>
    exact h.swaps_append rfl ihl ihr
  | and lhs rhs ihl ihr =>
    exact h.swaps_append rfl ihl ihr
  | or lhs rhs ihl ihr =>
    exact h.swaps_append rfl ihl ihr
  | other op lhs rhs ihl ihr =>
    exact h.swaps_append rfl ihl ihr
  | arith op lhs rhs ihl ihr =>
    have hl := ihl (h.sub (nodes_lhs op lhs rhs))
    have hr := ihr (h.sub (nodes_rhs op lhs rhs))
    intro node hnode hordered x y hx hy
    rcases List.mem_cons.mp hnode with rfl | hnode
    · exact swaps_node h hl hr hordered hx hy
    · rcases List.mem_append.mp hnode with hnode | hnode
      · exact hl node hnode hordered x y hx hy
      · exact hr node hnode hordered x y hx hy
  | _ =>
    intro node hnode
    cases hnode

theorem subset_append_of_mem {node : ArithOp × Expr × Expr} {nodes : List (ArithOp × Expr × Expr)} {lhs rhs : Expr}
    (h : node ∈ lhs.nodes ++ rhs.nodes) (hl : node ∈ lhs.nodes → nodes ⊆ lhs.nodes) (hr : node ∈ rhs.nodes → nodes ⊆ rhs.nodes) :
    nodes ⊆ lhs.nodes ++ rhs.nodes := by
  rcases List.mem_append.mp h with h | h
  · exact List.Subset.trans (hl h) (List.subset_append_left _ _)
  · exact List.Subset.trans (hr h) (List.subset_append_right _ _)

theorem nodes_subset {e : Expr} {op : ArithOp} {lhs rhs : Expr} (h : (op, lhs, rhs) ∈ e.nodes) :
    (Expr.arith op lhs rhs).nodes ⊆ e.nodes := by
  induction e with
  | varArray name index ih => exact ih h
  | neg operand ih => exact ih h
  | minus operand ih => exact ih h
  | len varref ih => exact ih h
  | eq l r ihl ihr => exact subset_append_of_mem h ihl ihr
  | and l r ihl ihr => exact subset_append_of_mem h ihl ihr
  | or l r ihl ihr => exact subset_append_of_mem h ihl ihr
  | other o l r ihl ihr => exact subset_append_of_mem h ihl ihr
  | arith o l r ihl ihr =>
    rcases List.mem_cons.mp h with h | h
    · cases h
      exact List.Subset.refl _
    · exact List.Subset.trans (subset_append_of_mem h ihl ihr) (List.subset_cons_self _ _)
  | _ => cases h

/-- The operators are evaluated in the order of the text with every compiler if and only if swapping their operands makes no
difference to them. -/
theorem respectsOrder_iff_swaps (c : Config) (s : Store) (e : Expr) : RespectsOrder c s e ↔ Swaps c s e := by
  constructor
  · exact RespectsOrder.swaps
  · intro h leftFirst node hnode hordered x y hx hy
    obtain ⟨op, lhs, rhs⟩ := node
    have hnode' : Swaps c s (.arith op lhs rhs) := h.sub (nodes_subset hnode)
    have hx' := (sameValue_evaluateInt (sameValue_evaluateExpr (hnode'.sub (nodes_lhs op lhs rhs)) leftFirst) x).mp hx
    have hy' := (sameValue_evaluateInt (sameValue_evaluateExpr (hnode'.sub (nodes_rhs op lhs rhs)) leftFirst) y).mp hy
    rw [evaluateExpr_arith hx hy, ← compute_swap hnode' hx' hy', ite_self]

/-- `5 - 3` is `-2` with a compiler that evaluates the right call first. -/
theorem difference_not_respectsOrder :
    ¬ RespectsOrder leftToRight (fun _ => none) (.arith .minus (.const "5") (.const "3")) := by
  intro h
  have hvalue := h (fun _ => false) (.minus, .const "5", .const "3") List.mem_cons_self rfl 5 3 rfl rfl
  cases hvalue

end Uscxml.Promela
