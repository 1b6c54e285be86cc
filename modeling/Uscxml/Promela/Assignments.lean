import Uscxml.Promela.DataModel
import Uscxml.Messages.RoundTrip

/-!
# Reading what was assigned

A name reads as a text: as its atom where that is a number, else as the JSON of its value. A number is therefore read back
as it was assigned, and a text in quotes that were not assigned.
-/

namespace Uscxml

open Trapping

namespace Data

theorem toValue_atom (d : Data) : d.toValue.atom = d.atom := by
  obtain ⟨atom, verbatim, compound, array⟩ := d
  rfl

theorem atom_eq_of_eq {d other : Data} (h : d.eq other = true) : d.atom = other.atom := by
  have hvalue : d.toValue = other.toValue := (DataValue.eqBy_iff DataValue.orders_lt trivial trivial).mp h
  rw [← toValue_atom d, hvalue, toValue_atom]

theorem isNumeric_cons (c : Char) (text : List Char) :
    isNumeric (c :: text) = (decide (c ∈ ".-0123456789".toList) && isNumeric text) := rfl

theorem isNumeric_not_nul {text : List Char} (h : isNumeric text = true) : cString text = text := by
  rw [cString, List.takeWhile_eq_self_iff]
  intro c hc
  rw [isNumeric, List.all_eq_true] at h
  have hmem : c ∈ ".-0123456789".toList := of_decide_eq_true (h c hc)
  rw [decide_eq_true_iff]
  rintro rfl
  exact absurd hmem (by decide +kernel)

theorem toJSON_numeric {d : Data} (h : isNumeric d.toJSON = true) : d.atom ≠ "" ∧ d.toJSON = d.atom.toList := by
  have hhead : ∀ c ∈ ['\x7b', '\n', '"', 'n'], ∀ text, isNumeric (c :: text) ≠ true := by
    intro c hc text
    have hno : decide (c ∈ ".-0123456789".toList) = false := by
      rcases List.mem_cons.mp hc with rfl | hc
      · decide +kernel
      rcases List.mem_cons.mp hc with rfl | hc
      · decide +kernel
      rcases List.mem_cons.mp hc with rfl | hc
      · decide +kernel
      rw [List.mem_singleton.mp hc]
      decide +kernel
    rw [isNumeric_cons, hno]
    exact Bool.false_ne_true
  obtain ⟨atom, verbatim, compound, array⟩ := d
  rw [toJSON, toText] at h ⊢
  split at h
  · exact absurd h (hhead _ (by simp) _)
  · split at h
    · exact absurd h (hhead _ (by simp) _)
    · split at h
      · rename_i hcompound harray hatom
        split at h
        · exact absurd h (hhead _ (by simp) _)
        · rename_i hverbatim
          rw [if_neg hcompound, if_neg harray, if_pos hatom, if_neg hverbatim]
          exact ⟨hatom, rfl⟩
      · split at h
        · exact absurd h (hhead _ (by simp) _)
        · exact absurd h (hhead _ (by simp) _)

theorem mem_numeric_of_isDigit {c : Char} (h : c.isDigit = true) : c ∈ ".-0123456789".toList := by
  have hlow : 48 ≤ c.toNat := (Char.isDigit_iff_toNat.mp h).1
  have hhigh : c.toNat ≤ 57 := (Char.isDigit_iff_toNat.mp h).2
  have hall : ∀ n : Nat, n < 10 → decide (Char.ofNat (48 + n) ∈ ".-0123456789".toList) = true := by decide +kernel
  have hchar : Char.ofNat (48 + (c.toNat - 48)) = c := by
    rw [Nat.add_sub_cancel' hlow, Char.ofNat_toNat]
  have hlt : c.toNat - 48 < 10 := Nat.sub_lt_left_of_lt_add hlow (Nat.lt_succ_of_le hhigh)
  rw [← hchar]
  exact of_decide_eq_true (hall _ hlt)

theorem isNumeric_repr (n : Nat) : isNumeric n.repr.toList = true := by
  rw [Nat.toList_repr, isNumeric, List.all_eq_true]
  intro c hc
  exact decide_eq_true (mem_numeric_of_isDigit (Nat.isDigit_of_mem_toDigits (by decide) (by decide) hc))

theorem isNumeric_toString (n : Int) : toString n ≠ "" ∧ isNumeric (toString n).toList = true := by
  cases n with
  | ofNat m =>
    change m.repr ≠ "" ∧ isNumeric m.repr.toList = true
    refine ⟨?_, isNumeric_repr m⟩
    intro h
    have hnil : Nat.toDigits 10 m = [] := by
      rw [← Nat.toList_repr, h]
      rfl
    exact Nat.toDigits_ne_nil hnil
  | negSucc m =>
    have htext : ("-" ++ (m + 1).repr).toList = '-' :: (m + 1).repr.toList := by
      rw [String.toList_append]
      rfl
    change "-" ++ (m + 1).repr ≠ "" ∧ isNumeric ("-" ++ (m + 1).repr).toList = true
    constructor
    · intro h
      rw [h] at htext
      cases htext
    · rw [htext, isNumeric_cons, isNumeric_repr, Bool.and_true]
      decide +kernel

end Data

namespace Promela

variable {c : Config} {s : Store}

/-! ### Comparisons -/

theorem dataToInt_eq_ok_iff {d : Data} {n : Int} : dataToInt c d = .ok n ↔ strToInt c d.atom = n ∧ d.atom = toString n := by
  change (if d.atom = toString (strToInt c d.atom) then _ else _) = _ ↔ _
  split
  · rename_i hatom
    constructor
    · intro h
      cases h
      exact ⟨rfl, hatom⟩
    · rintro ⟨rfl, -⟩
      rfl
  · rename_i hatom
    apply iff_of_false
    · intro h
      cases h
    · rintro ⟨rfl, h⟩
      exact hatom h

theorem dataToInt_congr {d other : Data} (h : d.atom = other.atom) : dataToInt c d = dataToInt c other := by
  unfold dataToInt
  rw [h]

theorem dataToInt_eq_iff {d other : Data} {n : Int} (h : dataToInt c d = .ok n) :
    dataToInt c other = .ok n ↔ d.atom = other.atom := by
  constructor
  · intro hother
    rw [(dataToInt_eq_ok_iff.mp h).2, (dataToInt_eq_ok_iff.mp hother).2]
  · intro hatom
    rw [← dataToInt_congr hatom, h]

def Holds (r : Result Data) : Prop := ∃ d, r = .ok d ∧ d.atom ≠ "false" ∧ d.atom ≠ "0"

theorem evalAsBool_iff {e : Expr} : evalAsBool c s e = .ok true ↔ Holds (evaluateExpr c s e) := by
  rw [evalAsBool, bind_eq_ok_iff]
  apply exists_congr
  intro d
  apply and_congr_right
  intro _
  change Except.ok (decide _) = Except.ok true ↔ _
  rw [Except.ok.injEq, decide_eq_true_iff]

theorem holds_ofBool {b : Bool} : Holds (.ok (.ofBool b)) ↔ b = true := by
  constructor
  · rintro ⟨d, hd, -, hzero⟩
    cases hd
    cases b with
    | false => exact absurd rfl hzero
    | true => rfl
  · rintro rfl
    exact ⟨_, rfl, by decide, by decide⟩

/-- The comparison of a text with what is a text or with what is an integer when the text is one. -/
theorem holds_compareData {lhs rhs : Expr} {text : String} {right : Data}
    (h : rhs.isString = true ∨ right.verbatim = true ∨ ∃ n, dataToInt c (.ofText text) = .ok n) :
    Holds (compareData c lhs rhs (.ofText text) right) ↔ text = right.atom := by
  have hatom : (Data.ofText text).atom = text := rfl
  have hverbatim : (Data.ofText text).verbatim = true := rfl
  unfold compareData
  split
  · rename_i heq
    exact iff_of_true (holds_ofBool.mpr rfl) (Data.atom_eq_of_eq heq)
  · split
    · rw [holds_ofBool, decide_eq_true_iff, hatom]
    · rename_i hstrings
      obtain ⟨n, hn⟩ : ∃ n, dataToInt c (.ofText text) = .ok n := by
        rcases h with h | h | h
        · exact absurd (by simp [h]) hstrings
        · exact absurd (by rw [h, hverbatim, Bool.and_true, Bool.or_true]) hstrings
        · exact h
      rw [equalInts, hn, ← hatom, ← dataToInt_eq_iff hn]
      change Holds (dataToInt c right >>= fun y => .ok (.ofBool (decide (n = y)))) ↔ _
      cases hright : dataToInt c right with
      | error stop =>
        apply iff_of_false
        · rintro ⟨d, hd, -⟩
          cases hd
        · intro h
          cases h
      | ok m =>
        change Holds (.ok (.ofBool (decide (n = m)))) ↔ _
        rw [holds_ofBool, decide_eq_true_iff, Except.ok.injEq]
        exact eq_comm

/-! ### Names -/

def nameText (d : Data) : String := (nameData d).atom

theorem nameText_eq (d : Data) : nameText d =
    if d.atom ≠ "" ∧ Data.isNumeric (Data.cString d.atom.toList) then d.atom else String.ofList d.toJSON := by
  unfold nameText nameData
  split <;> rfl

theorem nameData_eq (d : Data) : nameData d = .ofText (nameText d) := by
  rw [nameText_eq, nameData]
  split <;> rfl

theorem nameText_numeric_iff {d : Data} {text : String} (h : Data.isNumeric text.toList = true) (hne : text ≠ "") :
    nameText d = text ↔ d.atom = text := by
  rw [nameText_eq]
  split
  · exact Iff.rfl
  · rename_i hother
    apply iff_of_false
    · intro hjson
      have htext : d.toJSON = text.toList := by rw [← hjson, String.toList_ofList]
      obtain ⟨hatom, htoJSON⟩ := Data.toJSON_numeric (by rw [htext]; exact h)
      have hnumeric : Data.isNumeric d.atom.toList = true := by rw [← htoJSON, htext]; exact h
      exact hother ⟨hatom, by rw [Data.isNumeric_not_nul hnumeric]; exact hnumeric⟩
    · rintro rfl
      exact hother ⟨hne, by rw [Data.isNumeric_not_nul h]; exact h⟩

/-- A text reads as itself where it is a number, and in quotes elsewhere. -/
theorem nameText_ofText_iff {text : String} :
    nameText (.ofText text) = text ↔ text ≠ "" ∧ Data.isNumeric (Data.cString text.toList) = true := by
  have hatom : (Data.ofText text).atom = text := rfl
  constructor
  · intro h
    by_contra hother
    rw [nameText_eq, hatom, if_neg hother] at h
    have hlength := congrArg (fun t : String => t.toList.length) h
    have hjson : (Data.ofText text).toJSON = '"' :: (Data.jsonEscape text.toList ++ ['"']) := Data.coreText_text 1 text
    have hescape := Data.length_jsonEscape text.toList
    simp only [String.toList_ofList, hjson, List.length_cons, List.length_append, List.length_nil] at hlength
    omega
  · intro h
    rw [nameText_eq, hatom, if_pos h]

theorem evaluateExpr_name {name : String} {declared : Variable} (h : s name = some declared) :
    evaluateExpr c s (.name name) = .ok (.ofText (nameText declared.value)) := by
  rw [← nameData_eq, evaluateExpr, getName, h]
  rfl

/-- A comparison of a name with something that has a value. -/
theorem evaluateExpr_eq_name {name : String} {e : Expr} {declared : Variable} (h : s name = some declared) :
    evaluateExpr c s (.eq (.name name) e) =
      evaluateExpr c s e >>= fun right => compareData c (.name name) e (.ofText (nameText declared.value)) right := by
  rw [evaluateExpr, evaluateExpr_name h]
  rfl

/-! ### Expressions that do not read a variable -/

/-- The variables whose values an expression may read. -/
def Expr.reads : Expr → List String
  | name value => [value]
  | varArray array index => array :: index.reads
  | cmpnd compound _ _ => [compound.value]
  | arith _ lhs rhs => lhs.reads ++ rhs.reads
  | eq lhs rhs => lhs.reads ++ rhs.reads
  | and lhs rhs => lhs.reads ++ rhs.reads
  | or lhs rhs => lhs.reads ++ rhs.reads
  | neg operand => operand.reads
  | minus operand => operand.reads
  | _ => []

/-- An expression has one value in variables that agree on what it reads. -/
theorem evaluateExpr_congr {s' : Store} {e : Expr} (h : ∀ name ∈ e.reads, s name = s' name) :
    evaluateExpr c s e = evaluateExpr c s' e := by
  induction e with
  | const value => rfl
  | string value => rfl
  | other op lhs rhs => rfl
  | len varref => rfl
  | name value => rw [evaluateExpr, evaluateExpr, getName, getName, h value List.mem_cons_self]
  | cmpnd name field fields =>
    rw [evaluateExpr, evaluateExpr]
    unfold getCompound
    rw [h name.value List.mem_cons_self]
  | varArray array index ih =>
    have hindex := ih fun name hname => h name (List.mem_cons_of_mem _ hname)
    have helement : getElement c s array = getElement c s' array := by
      funext index
      rw [getElement, getElement, h array List.mem_cons_self]
    rw [evaluateExpr, evaluateExpr, hindex, helement]
  | neg operand ih => rw [evaluateExpr, evaluateExpr, ih h]
  | minus operand ih => rw [evaluateExpr, evaluateExpr, ih h]
  | arith op lhs rhs ihl ihr =>
    obtain ⟨hl, hr⟩ := List.forall_mem_append.mp h
    rw [evaluateExpr, evaluateExpr, ihl hl, ihr hr]
  | eq lhs rhs ihl ihr =>
    obtain ⟨hl, hr⟩ := List.forall_mem_append.mp h
    rw [evaluateExpr, evaluateExpr, ihl hl, ihr hr]
  | and lhs rhs ihl ihr =>
    obtain ⟨hl, hr⟩ := List.forall_mem_append.mp h
    rw [evaluateExpr, evaluateExpr, ihl hl, ihr hr]
  | or lhs rhs ihl ihr =>
    obtain ⟨hl, hr⟩ := List.forall_mem_append.mp h
    rw [evaluateExpr, evaluateExpr, ihl hl, ihr hr]

/-! ### Assignments -/

/-- An assignment of a string literal or an integer expression to a declared scalar. -/
structure Assigned (c : Config) where
  before : Store
  name : String
  expr : Expr
  declared : Variable
  isDeclared : before name = some declared
  isScalar : declared.size = none
  hasType : (∃ literal, expr = .string literal) ∨ ∃ n, evaluateInt c before expr = .ok n
  after : Store
  isAssigned : assignment c before (.name name) expr = .ok after

/-- After `x = e`, the condition `x == e` is true. -/
def Assigned.ReadsBack (a : Assigned c) : Prop := evalAsBool c a.after (.eq (.name a.name) a.expr) = .ok true

/-- A literal is a number in quotes; an integer expression has the same value when the variable has taken it. -/
def Assigned.Keeps (a : Assigned c) : Prop :=
  match a.expr with
  | .string literal => stripped literal ≠ "" ∧ Data.isNumeric (Data.cString (stripped literal).toList) = true
  | e => evaluateInt c a.after e = evaluateInt c a.before e

theorem assignment_eq_ok {name : String} {e : Expr} {declared : Variable} {s' : Store} (hs : s name = some declared)
    (hscalar : declared.size = none) (h : assignment c s (.name name) e = .ok s') :
    ∃ d, evaluateExpr c s e = .ok d ∧ s' = Function.update s name (some { declared with value := d }) := by
  obtain ⟨d, hd, hset⟩ := bind_eq_ok_iff.mp h
  refine ⟨d, hd, ?_⟩
  rw [setVariable] at hset
  split at hset
  · cases hset
  · have hname : setName c s name d = .ok (Function.update s name (some { declared with value := d })) := by
      rw [setName, hs]
      simp only [hscalar]
      rfl
    exact (Except.ok.inj (hname.symm.trans hset)).symm

theorem nameText_eq_atom {d : Data} {n : Int} (h : dataToInt c d = .ok n) : nameText d = d.atom := by
  have hatom := (dataToInt_eq_ok_iff.mp h).2
  obtain ⟨hne, hnumeric⟩ := Data.isNumeric_toString n
  rw [← hatom] at hne hnumeric
  exact (nameText_numeric_iff hnumeric hne).mpr rfl

/-- A comparison of a name with an integer expression is true where the expression has the value of the name. -/
theorem holds_eq_name_iff {name : String} {e : Expr} {declared : Variable} {n : Int} (hs : s name = some declared)
    (hn : dataToInt c declared.value = .ok n) : Holds (evaluateExpr c s (.eq (.name name) e)) ↔ evaluateInt c s e = .ok n := by
  have htext : nameText declared.value = declared.value.atom := nameText_eq_atom hn
  have hint : dataToInt c (.ofText (nameText declared.value)) = .ok n := by
    rw [← hn]
    exact dataToInt_congr htext
  rw [evaluateExpr_eq_name hs, evaluateInt]
  cases he : evaluateExpr c s e with
  | error stop =>
    apply iff_of_false
    · rintro ⟨d, hd, -⟩
      cases hd
    · intro h
      cases h
  | ok right =>
    rw [ok_bind, ok_bind, holds_compareData (Or.inr (Or.inr ⟨n, hint⟩)), dataToInt_eq_iff hint]
    rfl

theorem Assigned.readsBack_integer (a : Assigned c) {n : Int} (hn : evaluateInt c a.before a.expr = .ok n) :
    a.ReadsBack ↔ evaluateInt c a.after a.expr = evaluateInt c a.before a.expr := by
  obtain ⟨d, hd, hafter⟩ := assignment_eq_ok a.isDeclared a.isScalar a.isAssigned
  have hint : dataToInt c d = .ok n := by
    rw [evaluateInt, hd] at hn
    exact hn
  have hs : a.after a.name = some { a.declared with value := d } := by
    rw [hafter]
    exact Function.update_self _ _ _
  rw [Assigned.ReadsBack, evalAsBool_iff, holds_eq_name_iff hs hint, hn]

theorem Assigned.readsBack_string (a : Assigned c) {literal : String} (hexpr : a.expr = .string literal) :
    a.ReadsBack ↔ stripped literal ≠ "" ∧ Data.isNumeric (Data.cString (stripped literal).toList) = true := by
  obtain ⟨d, hd, hafter⟩ := assignment_eq_ok a.isDeclared a.isScalar a.isAssigned
  rw [hexpr] at hd
  obtain rfl : Data.ofText (stripped literal) = d := Except.ok.inj hd
  have hs : a.after a.name = some { a.declared with value := .ofText (stripped literal) } := by
    rw [hafter]
    exact Function.update_self _ _ _
  have hright : evaluateExpr c a.after (.string literal) = .ok (.ofText (stripped literal)) := rfl
  rw [Assigned.ReadsBack, evalAsBool_iff, evaluateExpr_eq_name hs, hexpr, hright, ok_bind, holds_compareData (Or.inl rfl)]
  exact nameText_ofText_iff

theorem Assigned.readsBack_iff_keeps (a : Assigned c) : a.ReadsBack ↔ a.Keeps := by
  unfold Assigned.Keeps
  split
  · rename_i literal hexpr
    exact a.readsBack_string hexpr
  · rename_i e hother
    rcases a.hasType with ⟨literal, hexpr⟩ | ⟨n, hn⟩
    · exact absurd hexpr (hother literal)
    · exact a.readsBack_integer hn

/-- An integer expression that does not read the variable keeps its value. -/
theorem Assigned.keeps_of_not_reads (a : Assigned c) (hreads : a.name ∉ a.expr.reads) (hexpr : a.expr.isString = false) :
    a.Keeps := by
  obtain ⟨d, -, hafter⟩ := assignment_eq_ok a.isDeclared a.isScalar a.isAssigned
  have hsame : evaluateInt c a.after a.expr = evaluateInt c a.before a.expr := by
    rw [evaluateInt, evaluateInt]
    congr 1
    apply evaluateExpr_congr
    intro name hname
    rw [hafter]
    refine Function.update_of_ne ?_ _ _
    rintro rfl
    exact hreads hname
  unfold Assigned.Keeps
  split
  · rename_i literal hliteral
    rw [hliteral] at hexpr
    cases hexpr
  · exact hsame

structure AssignedTwice (c : Config) extends Assigned c where
  other : String
  isOther : other ≠ name
  otherDeclared : Variable
  isOtherDeclared : after other = some otherDeclared
  isOtherScalar : otherDeclared.size = none
  final : Store
  isAssignedAgain : assignment c after (.name other) expr = .ok final

def AssignedTwice.Agree (a : AssignedTwice c) : Prop := evalAsBool c a.final (.eq (.name a.name) (.name a.other)) = .ok true

/-- An integer expression has the same value when the first variable has taken it. -/
def AssignedTwice.Keeps (a : AssignedTwice c) : Prop :=
  match a.expr with
  | .string _ => True
  | e => evaluateInt c a.after e = evaluateInt c a.before e

theorem holds_eq_names_iff {name other : String} {declared otherDeclared : Variable} (hs : s name = some declared)
    (hother : s other = some otherDeclared) :
    Holds (evaluateExpr c s (.eq (.name name) (.name other))) ↔ nameText declared.value = nameText otherDeclared.value := by
  rw [evaluateExpr_eq_name hs, evaluateExpr_name hother]
  exact holds_compareData (Or.inr (Or.inl rfl))

theorem AssignedTwice.agree_iff_keeps (a : AssignedTwice c) : a.Agree ↔ a.Keeps := by
  obtain ⟨d, hd, hafter⟩ := assignment_eq_ok a.isDeclared a.isScalar a.isAssigned
  obtain ⟨d', hd', hfinal⟩ := assignment_eq_ok a.isOtherDeclared a.isOtherScalar a.isAssignedAgain
  have hs : a.final a.name = some { a.declared with value := d } := by
    rw [hfinal, Function.update_of_ne a.isOther.symm, hafter]
    exact Function.update_self _ _ _
  have hother : a.final a.other = some { a.otherDeclared with value := d' } := by
    rw [hfinal]
    exact Function.update_self _ _ _
  rw [AssignedTwice.Agree, evalAsBool_iff, holds_eq_names_iff hs hother, AssignedTwice.Keeps]
  split
  · rename_i literal hexpr
    rw [hexpr] at hd hd'
    obtain rfl : d = d' := Except.ok.inj (hd.symm.trans hd')
    exact iff_of_true rfl trivial
  · rename_i e hnot
    rcases a.hasType with ⟨literal, hexpr⟩ | ⟨n, hn⟩
    · exact absurd hexpr (hnot literal)
    · have hint : dataToInt c d = .ok n := by
        rw [evaluateInt, hd] at hn
        exact hn
      have hatom := (dataToInt_eq_ok_iff.mp hint).2
      obtain ⟨hne, hnumeric⟩ := Data.isNumeric_toString n
      rw [← hatom] at hne hnumeric
      have hagain : evaluateInt c a.after a.expr = dataToInt c d' := by
        rw [evaluateInt, hd']
        rfl
      change nameText d = nameText d' ↔ _
      rw [nameText_eq_atom hint, hn, hagain, dataToInt_eq_iff hint, eq_comm, nameText_numeric_iff hnumeric hne, eq_comm]

end Promela

end Uscxml
