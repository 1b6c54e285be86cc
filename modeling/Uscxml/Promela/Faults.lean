import Uscxml.Promela.DataModel

/-!
# Which evaluations trap

An evaluation in the Promela data model returns, raises an error, or ends in a fault: the condition under which there is no
fault goes along with the evaluation and looks at the three places where one can come from.
-/

namespace Uscxml.Promela

open Trapping

variable {c : Config} {s : Store}

/-! ### The condition -/

/-- An array has an element for every index below its size that is asked for. -/
def HasElement (c : Config) (s : Store) (name : String) (index : Int) : Prop :=
  ∀ declared size, s name = some declared → declared.size = some size → index < strToInt c size →
    declared.value.itemAt? index ≠ none

/-- The processor carries out an operator on the operands, which are in the order in which they were evaluated. -/
def Divides (c : Config) (op : ArithOp) (x y : Int) : Prop :=
  op = .divide ∨ op = .modulo → refusesDivision (if c.leftFirst op then x else y) (if c.leftFirst op then y else x) = false

/-- Nothing that is evaluated of an expression is an access below the size of an array that has no such element, a division
that is refused, or an operator on integers with one operand that has a value. -/
def Harmless (c : Config) (s : Store) : Expr → Prop
  | .varArray name expr => Harmless c s expr ∧ ∀ index, evaluateInt c s expr = .ok index → HasElement c s name index
  | .arith op lhs rhs =>
    Harmless c s lhs ∧ ∀ x, evaluateInt c s lhs = .ok x →
      Harmless c s rhs ∧ ∀ y, evaluateInt c s rhs = .ok y → Divides c op x y
  | .minus operand => Harmless c s operand ∧ ∀ x, evaluateInt c s operand ≠ .ok x
  | .eq lhs rhs => Harmless c s lhs ∧ ∀ left, evaluateExpr c s lhs = .ok left → Harmless c s rhs
  | .and lhs rhs => Harmless c s lhs ∧ ∀ left, evaluateExpr c s lhs = .ok left → Harmless c s rhs
  | .or lhs rhs => Harmless c s lhs ∧ ∀ left, evaluateExpr c s lhs = .ok left → Harmless c s rhs
  | .neg operand => Harmless c s operand
  | _ => True

/-- Nothing that is evaluated for a reference that is read is harmful. -/
def HarmlessRead (c : Config) (s : Store) : Expr → Prop
  | .varArray name expr => Harmless c s (.varArray name expr)
  | _ => True

/-- Nothing that is evaluated for a reference that is written is harmful; the index of what is no array is not looked at. -/
def HarmlessWrite (c : Config) (s : Store) : Expr → Prop
  | .varArray name expr =>
    ∀ declared size, s name = some declared → declared.size = some size → Harmless c s (.varArray name expr)
  | _ => True

/-- Nothing that a statement evaluates is harmful, in the variables as they then are. -/
def HarmlessStmnt (c : Config) : Stmnt → Store → Prop
  | .asgn name expr, s => Harmless c s expr ∧ ∀ value, evaluateExpr c s expr = .ok value → HarmlessWrite c s name
  | .incr name, s => HarmlessRead c s name ∧ ∀ value, getVariable c s name = .ok value → HarmlessWrite c s name
  | .decr name, s => HarmlessRead c s name ∧ ∀ value, getVariable c s name = .ok value → HarmlessWrite c s name
  | .stmnt first rest, s => HarmlessStmnt c first s ∧ ∀ s', evaluateStmnt c first s = (s', .ok ()) → HarmlessStmnt c rest s'
  | _, _ => True

/-! ### Values and reads -/

theorem not_traps_dataToInt (data : Data) : ¬ Traps (dataToInt c data) := by
  change ¬ Traps (if data.atom = toString (strToInt c data.atom) then _ else _)
  split
  · exact not_traps_ok _
  · exact not_traps_raise _

theorem not_traps_dataToBool (data : Data) : ¬ Traps (dataToBool c data) := by
  unfold dataToBool
  repeat' split
  · exact not_traps_ok _
  · exact not_traps_ok _
  · exact not_traps_ok _
  · exact not_traps_ok _
  · rw [traps_map_iff]
    exact not_traps_dataToInt data

theorem traps_evaluateInt_iff {e : Expr} : Traps (evaluateInt c s e) ↔ Traps (evaluateExpr c s e) := by
  rw [evaluateInt, traps_bind_iff]
  constructor
  · rintro (h | ⟨data, -, h⟩)
    · exact h
    · exact absurd h (not_traps_dataToInt data)
  · exact Or.inl

theorem traps_compute_iff {op : ArithOp} {x y : Int} :
    Traps (op.compute x y) ↔ (op = .divide ∨ op = .modulo) ∧ refusesDivision x y = true := by
  cases hrefuses : refusesDivision x y <;> cases op <;> simp [ArithOp.compute, hrefuses]

theorem traps_operator_iff {op : ArithOp} {x y : Int} :
    Traps (if c.leftFirst op then op.compute x y else op.compute y x) ↔ ¬ Divides c op x y := by
  cases h : c.leftFirst op <;> simp [Divides, traps_compute_iff, h]

theorem not_traps_compareData (lhs rhs : Expr) (left right : Data) : ¬ Traps (compareData c lhs rhs left right) := by
  unfold compareData
  split
  · exact not_traps_ok _
  · split
    · exact not_traps_ok _
    · refine not_traps_bind (not_traps_dataToInt left) ?_
      intro x
      exact not_traps_bind (not_traps_dataToInt right) fun y => not_traps_pure _

theorem not_traps_junction (op : Bool → Bool → Bool) (left right : Data) : ¬ Traps (junction c op left right) := by
  refine not_traps_bind (not_traps_dataToBool left) ?_
  intro truthLeft
  exact not_traps_bind (not_traps_dataToBool right) fun truthRight => not_traps_pure _

theorem not_traps_getName (name : String) : ¬ Traps (getName s name) := by
  unfold getName
  split
  · exact not_traps_raise _
  · exact not_traps_ok _

theorem not_traps_getFields (fields : List Field) : ∀ (currData : Data) (idPath : String), ¬ Traps (getFields currData idPath fields) := by
  induction fields with
  | nil =>
    intro currData idPath
    exact not_traps_ok _
  | cons field fields ih =>
    intro currData idPath
    rw [getFields]
    split
    · exact not_traps_raise _
    · exact ih _ _

theorem not_traps_getCompound (name what : Field) (fields : List Field) : ¬ Traps (getCompound c s name what fields) := by
  unfold getCompound
  split
  · split
    · split
      · exact not_traps_ok _
      · exact not_traps_raise _
    · exact not_traps_raise _
  · split
    · exact not_traps_raise _
    · exact not_traps_getFields _ _ _

theorem traps_getElement_iff {name : String} {index : Int} : Traps (getElement c s name index) ↔ ¬ HasElement c s name index := by
  unfold getElement HasElement
  cases hs : s name with
  | none => simp
  | some declared =>
    cases hsize : declared.size with
    | none => simp [hsize]
    | some size =>
      by_cases hindex : strToInt c size ≤ index
      · simp [hsize, hindex]
      · cases hitem : declared.value.itemAt? index with
        | none => simp [hsize, hindex, hitem, not_le.mp hindex]
        | some value => simp [hsize, hindex, hitem]

/-- An access traps where the index does, or where there is no such element. -/
theorem traps_access_iff {name : String} {expr : Expr} (ih : Traps (evaluateExpr c s expr) ↔ ¬ Harmless c s expr) :
    Traps (evaluateInt c s expr >>= getElement c s name) ↔ ¬ Harmless c s (.varArray name expr) := by
  rw [traps_bind_iff, traps_evaluateInt_iff, ih, Harmless, not_and_or, not_forall]
  apply or_congr Iff.rfl
  apply exists_congr
  intro index
  rw [traps_getElement_iff, Classical.not_imp]

theorem traps_operands_iff {lhs rhs : Expr} {f : Data → Data → Result Data} (hf : ∀ left right, ¬ Traps (f left right))
    (ihl : Traps (evaluateExpr c s lhs) ↔ ¬ Harmless c s lhs) (ihr : Traps (evaluateExpr c s rhs) ↔ ¬ Harmless c s rhs) :
    Traps (evaluateExpr c s lhs >>= fun left => evaluateExpr c s rhs >>= fun right => f left right) ↔
      ¬ (Harmless c s lhs ∧ ∀ left, evaluateExpr c s lhs = .ok left → Harmless c s rhs) := by
  rw [traps_bind_iff, ihl, not_and_or, not_forall]
  apply or_congr Iff.rfl
  apply exists_congr
  intro left
  rw [traps_bind_iff, ihr, Classical.not_imp]
  simp [hf]

/-- An evaluation traps where it comes to something harmful, and only there. -/
theorem traps_evaluateExpr_iff (e : Expr) : Traps (evaluateExpr c s e) ↔ ¬ Harmless c s e := by
  induction e with
  | const value => simp [evaluateExpr, Harmless]
  | string value => simp [evaluateExpr, Harmless]
  | name value => simp [evaluateExpr, Harmless, traps_map_iff, not_traps_getName]
  | varArray name expr ih => exact traps_access_iff ih
  | cmpnd name field fields => simp [evaluateExpr, Harmless, not_traps_getCompound]
  | arith op lhs rhs ihl ihr =>
    rw [evaluateExpr, Harmless]
    change Traps (evaluateInt c s lhs >>= fun x => evaluateInt c s rhs >>= fun y => _) ↔ _
    rw [traps_bind_iff, traps_evaluateInt_iff, ihl, not_and_or, not_forall]
    apply or_congr Iff.rfl
    apply exists_congr
    intro x
    rw [Classical.not_imp, traps_bind_iff, traps_evaluateInt_iff, ihr, not_and_or, not_forall]
    apply and_congr Iff.rfl
    apply or_congr Iff.rfl
    apply exists_congr
    intro y
    rw [traps_operator_iff, Classical.not_imp]
  | eq lhs rhs ihl ihr => exact traps_operands_iff (not_traps_compareData lhs rhs) ihl ihr
  | and lhs rhs ihl ihr => exact traps_operands_iff (not_traps_junction _) ihl ihr
  | or lhs rhs ihl ihr => exact traps_operands_iff (not_traps_junction _) ihl ihr
  | other op lhs rhs => simp [evaluateExpr, Harmless]
  | neg operand ih =>
    rw [evaluateExpr, Harmless, ← ih, bind_pure_comp, traps_map_iff, traps_bind_iff]
    simp [not_traps_dataToBool]
  | minus operand ih =>
    rw [evaluateExpr, Harmless, not_and_or, ← ih, ← traps_evaluateInt_iff]
    change Traps (evaluateInt c s operand >>= fun _ => _) ↔ _
    rw [traps_bind_iff]
    simp
  | len varref => simp [evaluateExpr, Harmless]

theorem traps_getVariable_iff (ast : Expr) : Traps (getVariable c s ast) ↔ ¬ HarmlessRead c s ast := by
  cases ast with
  | name value => simp [getVariable, HarmlessRead, not_traps_getName]
  | varArray name expr => exact traps_access_iff (traps_evaluateExpr_iff expr)
  | cmpnd name field fields => simp [getVariable, HarmlessRead, not_traps_getCompound]
  | _ => simp [getVariable, HarmlessRead]

/-! ### Writes -/

theorem not_traps_setName (name : String) (value : Data) : ¬ Traps (setName c s name value) := by
  unfold setName
  repeat' split
  · exact not_traps_raise _
  · exact not_traps_raise _
  · exact not_traps_ok _

theorem not_traps_setCompound (name : Field) (fields : List Field) (value : Data) : ¬ Traps (setCompound s name fields value) := by
  unfold setCompound
  repeat' split
  · exact not_traps_raise _
  · exact not_traps_raise _
  · exact not_traps_ok _

theorem harmlessWrite_of_size {name : String} {expr : Expr} {declared : Variable} {size : String} (hs : s name = some declared)
    (hsize : declared.size = some size) : HarmlessWrite c s (.varArray name expr) ↔ Harmless c s (.varArray name expr) := by
  constructor
  · intro h
    exact h declared size hs hsize
  · intro h d z hd hz
    exact h

theorem traps_setElement_iff {name : String} {expr : Expr} {value : Data} :
    Traps (setElement c s name expr value) ↔ ¬ HarmlessWrite c s (.varArray name expr) := by
  unfold setElement
  cases hs : s name with
  | none =>
    apply iff_of_false (not_traps_raise _)
    rw [not_not]
    intro d z hd
    rw [hs] at hd
    cases hd
  | some declared =>
    cases hsize : declared.size with
    | none =>
      simp only [hsize]
      apply iff_of_false (not_traps_raise _)
      rw [not_not]
      intro d z hd hz
      rw [hs] at hd
      cases hd
      rw [hsize] at hz
      cases hz
    | some size =>
      rw [harmlessWrite_of_size hs hsize, Harmless, not_and_or, not_forall]
      simp only [hsize]
      rw [traps_bind_iff, traps_evaluateInt_iff, traps_evaluateExpr_iff]
      apply or_congr Iff.rfl
      apply exists_congr
      intro index
      rw [Classical.not_imp]
      apply and_congr Iff.rfl
      rw [← traps_getElement_iff, getElement, hs]
      simp only [hsize]
      split
      · simp
      · cases declared.value.itemAt? index <;> simp

theorem traps_setVariable_iff (ast : Expr) (value : Data) : Traps (setVariable c s ast value) ↔
    ¬ (invalidAssignment ast.value = false → HarmlessWrite c s ast) := by
  unfold setVariable
  cases hinvalid : invalidAssignment ast.value with
  | true => simp
  | false =>
    rw [if_neg Bool.false_ne_true, Classical.not_imp, and_iff_right rfl]
    cases ast with
    | varArray name expr => exact traps_setElement_iff
    | name name => simp [HarmlessWrite, not_traps_setName]
    | cmpnd name field fields => simp [HarmlessWrite, not_traps_setCompound]
    | _ => simp [HarmlessWrite]

/-- Variables that are kept or given a new value trap as the update does. -/
theorem traps_commit_iff (r : Result Store) : Traps (commit s r).2 ↔ Traps r := by
  cases r with
  | ok s' => exact iff_of_false (not_traps_ok ()) (not_traps_ok s')
  | error stop => simp [commit, Traps]

theorem harmlessWrite_of_invalid {ast : Expr} (h : invalidAssignment ast.value = true) : HarmlessWrite c s ast := by
  cases ast with
  | varArray name expr => cases h
  | _ => exact trivial

theorem traps_setVariable_iff_write (ast : Expr) (value : Data) : Traps (setVariable c s ast value) ↔ ¬ HarmlessWrite c s ast := by
  rw [traps_setVariable_iff]
  apply not_congr
  constructor
  · intro h
    cases hinvalid : invalidAssignment ast.value with
    | true => exact harmlessWrite_of_invalid hinvalid
    | false => exact h hinvalid
  · intro h _
    exact h

theorem traps_assignment_iff {lhs rhs : Expr} : Traps (assignment c s lhs rhs) ↔
    ¬ (Harmless c s rhs ∧ ∀ value, evaluateExpr c s rhs = .ok value → HarmlessWrite c s lhs) := by
  rw [assignment, traps_bind_iff, traps_evaluateExpr_iff, not_and_or, not_forall]
  apply or_congr Iff.rfl
  apply exists_congr
  intro value
  rw [traps_setVariable_iff_write, Classical.not_imp]

theorem traps_increment_iff {name : Expr} {amount : Int} : Traps (increment c s name amount) ↔
    ¬ (HarmlessRead c s name ∧ ∀ value, getVariable c s name = .ok value → HarmlessWrite c s name) := by
  rw [increment, traps_bind_iff, traps_getVariable_iff, not_and_or, not_forall]
  apply or_congr Iff.rfl
  apply exists_congr
  intro value
  rw [traps_setVariable_iff_write, Classical.not_imp]

/-- The statements behind one that stops are not evaluated. -/
theorem traps_stmnt_iff {first rest : Stmnt} : Traps (evaluateStmnt c (.stmnt first rest) s).2 ↔
    Traps (evaluateStmnt c first s).2 ∨
      ∃ s', evaluateStmnt c first s = (s', .ok ()) ∧ Traps (evaluateStmnt c rest s').2 := by
  rw [evaluateStmnt]
  obtain ⟨s', r⟩ := evaluateStmnt c first s
  cases r with
  | ok u => simp
  | error stop => simp [Traps]

/-- A statement traps where it comes to something harmful, and only there. -/
theorem traps_evaluateStmnt_iff (ast : Stmnt) : ∀ s, Traps (evaluateStmnt c ast s).2 ↔ ¬ HarmlessStmnt c ast s := by
  induction ast with
  | asgn name expr => exact fun s => (traps_commit_iff _).trans traps_assignment_iff
  | incr name => exact fun s => (traps_commit_iff _).trans traps_increment_iff
  | decr name => exact fun s => (traps_commit_iff _).trans traps_increment_iff
  | stmnt first rest ihf ihr =>
    intro s
    rw [traps_stmnt_iff, ihf, HarmlessStmnt, not_and_or, not_forall]
    apply or_congr Iff.rfl
    apply exists_congr
    intro s'
    rw [ihr, Classical.not_imp]
  | print => exact fun s => iff_of_false (not_traps_raise _) (not_not.mpr trivial)
  | assert => exact fun s => iff_of_false (not_traps_raise _) (not_not.mpr trivial)
  | expr e => exact fun s => iff_of_false (not_traps_raise _) (not_not.mpr trivial)

/-! ### All calls -/

inductive Call where
  | evaluateExpr (ast : Stmnt)
  | evaluateStmnt (ast : Stmnt)
  | getVariable (ast : Stmnt)
  | setVariable (ast : Stmnt) (value : Data)

def returning (data : Data) (update : Store × Result Unit) : Store × Result Data := (update.1, (fun _ => data) <$> update.2)

/-- What a call results in, with the variables behind it. `evaluateExpr` also knows assignments. -/
def Call.run (c : Config) (s : Store) : Call → Store × Result Data
  | .evaluateExpr (.expr e) => (s, Promela.evaluateExpr c s e)
  | .evaluateExpr (.asgn lhs rhs) => returning (.ofInt 0) (commit s (assignment c s lhs rhs))
  | .evaluateExpr ast => (s, raise ("Support for " ++ ast.typeToDesc ++ " expressions not implemented"))
  | .evaluateStmnt ast => returning .empty (Promela.evaluateStmnt c ast s)
  | .getVariable (.expr e) => (s, Promela.getVariable c s e)
  | .getVariable ast => (s, raise ("Retrieving value of " ++ ast.typeToDesc ++ " variable not implemented"))
  | .setVariable (.expr e) value => returning .empty (commit s (Promela.setVariable c s e value))
  | .setVariable ast _ => (s, raise ("No support for " ++ ast.typeToDesc ++ " variables implemented"))

def Call.access : Call → Option (String × Expr)
  | .evaluateExpr (.expr (.varArray name expr)) => some (name, expr)
  | .evaluateExpr (.asgn (.varArray name expr) _) => some (name, expr)
  | .evaluateStmnt (.asgn (.varArray name expr) _) => some (name, expr)
  | .evaluateStmnt (.incr (.varArray name expr)) => some (name, expr)
  | .evaluateStmnt (.decr (.varArray name expr)) => some (name, expr)
  | .getVariable (.expr (.varArray name expr)) => some (name, expr)
  | .setVariable (.expr (.varArray name expr)) _ => some (name, expr)
  | _ => none

/-- An access to an array with an index that is no index of its elements. -/
def Call.OutOfRange (c : Config) (s : Store) (call : Call) : Prop :=
  ∃ name expr index declared size, call.access = some (name, expr) ∧ evaluateInt c s expr = .ok index ∧
    s name = some declared ∧ declared.size = some size ∧ (index < 0 ∨ strToInt c size ≤ index)

/-- A call returns or raises an error, and an access out of range raises an error and leaves the variables. -/
def Call.Meets (c : Config) (s : Store) (call : Call) : Prop :=
  ¬ Traps (call.run c s).2 ∧ (call.OutOfRange c s → (call.run c s).1 = s ∧ Raises (call.run c s).2)

def Call.Harmless (c : Config) (s : Store) : Call → Prop
  | .evaluateExpr (.expr e) => Promela.Harmless c s e
  | .evaluateExpr (.asgn lhs rhs) => HarmlessStmnt c (.asgn lhs rhs) s
  | .evaluateExpr _ => True
  | .evaluateStmnt ast => HarmlessStmnt c ast s
  | .getVariable (.expr e) => HarmlessRead c s e
  | .getVariable _ => True
  | .setVariable (.expr e) _ => HarmlessWrite c s e
  | .setVariable _ _ => True

theorem traps_returning_iff {data : Data} {update : Store × Result Unit} :
    Traps (returning data update).2 ↔ Traps update.2 := traps_map_iff

theorem Call.traps_run_iff (call : Call) : Traps (call.run c s).2 ↔ ¬ call.Harmless c s := by
  cases call with
  | evaluateExpr ast =>
    cases ast with
    | expr e => exact traps_evaluateExpr_iff e
    | asgn lhs rhs => exact traps_returning_iff.trans ((traps_commit_iff _).trans traps_assignment_iff)
    | _ => exact iff_of_false (not_traps_raise _) (not_not.mpr trivial)
  | evaluateStmnt ast => exact traps_returning_iff.trans (traps_evaluateStmnt_iff ast s)
  | getVariable ast =>
    cases ast with
    | expr e => exact traps_getVariable_iff e
    | _ => exact iff_of_false (not_traps_raise _) (not_not.mpr trivial)
  | setVariable ast value =>
    cases ast with
    | expr e => exact traps_returning_iff.trans ((traps_commit_iff _).trans (traps_setVariable_iff_write e value))
    | _ => exact iff_of_false (not_traps_raise _) (not_not.mpr trivial)

/-! ### Accesses out of range -/

theorem itemAt?_of_neg {data : Data} {index : Int} (h : index < 0) : data.itemAt? index = none := by
  rw [Data.itemAt?, Option.map_eq_none_iff, List.find?_eq_none]
  intro item _ hitem
  have hkey : (item.1 : Int) = index := of_decide_eq_true hitem
  omega

section

variable {name : String} {expr : Expr} {index : Int} {declared : Variable} {size : String}
  (hindex : evaluateInt c s expr = .ok index) (hs : s name = some declared) (hsize : declared.size = some size)
  (hout : index < 0 ∨ strToInt c size ≤ index)

include hs hsize hout in
theorem getElement_ne_ok (value : Data) : getElement c s name index ≠ .ok value := by
  rw [getElement, hs]
  simp only [hsize]
  split
  · intro h
    cases h
  · rename_i hle
    rw [itemAt?_of_neg (hout.resolve_right hle)]
    intro h
    cases h

include hindex hs hsize hout in
theorem access_ne_ok (value : Data) : (evaluateInt c s expr >>= getElement c s name) ≠ .ok value := by
  rw [hindex]
  exact getElement_ne_ok hs hsize hout value

include hindex hs hsize hout in
theorem setVariable_ne_ok (value : Data) (s' : Store) : setVariable c s (.varArray name expr) value ≠ .ok s' := by
  have hset : setVariable c s (.varArray name expr) value = setElement c s name expr value := rfl
  rw [hset, setElement, hs]
  simp only [hsize]
  rw [hindex]
  change (if strToInt c size ≤ index then _ else _) ≠ _
  split
  · intro h
    cases h
  · rename_i hle
    rw [itemAt?_of_neg (hout.resolve_right hle)]
    intro h
    cases h

include hindex hs hsize hout in
theorem assignment_ne_ok (rhs : Expr) (s' : Store) : assignment c s (.varArray name expr) rhs ≠ .ok s' := by
  intro h
  obtain ⟨value, -, hset⟩ := bind_eq_ok_iff.mp h
  exact setVariable_ne_ok hindex hs hsize hout value s' hset

include hindex hs hsize hout in
theorem increment_ne_ok (amount : Int) (s' : Store) : increment c s (.varArray name expr) amount ≠ .ok s' := by
  intro h
  obtain ⟨value, hget, -⟩ := bind_eq_ok_iff.mp h
  exact access_ne_ok hindex hs hsize hout value hget

end

/-- An update that is not made leaves the variables, and nothing is returned. -/
theorem returning_commit {r : Result Store} (h : ∀ s', r ≠ .ok s') (data : Data) :
    (returning data (commit s r)).1 = s ∧ ∀ d, (returning data (commit s r)).2 ≠ .ok d := by
  cases r with
  | ok s' => exact absurd rfl (h s')
  | error stop =>
    refine ⟨rfl, ?_⟩
    intro d hd
    cases hd

theorem Call.run_of_outOfRange {call : Call} (h : call.OutOfRange c s) :
    (call.run c s).1 = s ∧ ∀ d, (call.run c s).2 ≠ .ok d := by
  obtain ⟨name, expr, index, declared, size, haccess, hindex, hs, hsize, hout⟩ := h
  unfold Call.access at haccess
  split at haccess
  all_goals cases haccess
  · exact ⟨rfl, access_ne_ok hindex hs hsize hout⟩
  · exact returning_commit (assignment_ne_ok hindex hs hsize hout _) _
  · exact returning_commit (assignment_ne_ok hindex hs hsize hout _) _
  · exact returning_commit (increment_ne_ok hindex hs hsize hout _) _
  · exact returning_commit (increment_ne_ok hindex hs hsize hout _) _
  · exact ⟨rfl, access_ne_ok hindex hs hsize hout⟩
  · exact returning_commit (setVariable_ne_ok hindex hs hsize hout _) _

/-- A call meets what is promised of it where it evaluates nothing harmful, and only there. -/
theorem Call.meets_iff_harmless (c : Config) (s : Store) (call : Call) : call.Meets c s ↔ call.Harmless c s := by
  have htraps : ¬ Traps (call.run c s).2 ↔ call.Harmless c s := by rw [Call.traps_run_iff, not_not]
  constructor
  · intro h
    exact htraps.mp h.1
  · intro h
    refine ⟨htraps.mpr h, ?_⟩
    intro hout
    obtain ⟨hstore, hok⟩ := Call.run_of_outOfRange hout
    rcases raises_or_ok_of_not_traps (htraps.mpr h) with hraises | ⟨d, hd⟩
    · exact ⟨hstore, hraises⟩
    · exact absurd hd (hok d)

def twoElements : Store := fun name =>
  if name = "a" then some { size := some "2", value := Data.mk "" false [] [(0, .ofInt 0), (1, .ofInt 0)] } else none

/-- `1 / 0` and `a[0 - 1]` are not evaluated without a fault. -/
theorem division_and_index_trap :
    ¬ (Call.evaluateExpr (.expr (.arith .divide (.const "1") (.const "0")))).Meets leftToRight twoElements ∧
    ¬ (Call.evaluateExpr (.expr (.varArray "a" (.arith .minus (.const "0") (.const "1"))))).Meets leftToRight twoElements := by
  constructor
  · rintro ⟨h, -⟩
    exact h ⟨.division, rfl⟩
  · rintro ⟨h, -⟩
    exact h ⟨.outOfRange, rfl⟩

end Uscxml.Promela
