import Uscxml.Promela.Assignments
import Uscxml.Lib.Fold

/-!
# The elements of arrays

An array is declared with the elements `0` to `n - 1`. An assignment to an element keeps them, and one to the array as a
whole puts the elements of another value in their place, of which no more is checked than that there are not too many.
-/

namespace Uscxml

open Trapping

namespace Data

def isEmpty (d : Data) : Bool := d.atom = "" ∧ d.compound.length = 0 ∧ d.array.length = 0

theorem keys_alter {key : Nat} {f : Data → Data} {array : List (Nat × Data)} (hsorted : (array.map (·.1)).Pairwise (· < ·))
    (hkey : key ∈ array.map (·.1)) : (alter key f array).map (·.1) = array.map (·.1) := by
  induction array with
  | nil => cases hkey
  | cons item array ih =>
    obtain ⟨k, d⟩ := item
    rw [List.map_cons, List.pairwise_cons] at hsorted
    rw [alter]
    rcases List.mem_cons.mp hkey with hkey | hkey
    · have hk : key = k := hkey
      rw [if_neg (by omega), if_pos hk]
      rfl
    · have hlt : k < key := hsorted.1 key hkey
      rw [if_neg (by omega), if_neg (by omega), List.map_cons, ih hsorted.2 hkey]
      rfl

theorem itemAt?_ne_none {d : Data} {index : Int} (h : d.itemAt? index ≠ none) : index.toNat ∈ d.array.map (·.1) := by
  rw [itemAt?, Ne, Option.map_eq_none_iff, List.find?_eq_none] at h
  push Not at h
  obtain ⟨item, hitem, hkey⟩ := h
  have hindex : (item.1 : Int) = index := of_decide_eq_true hkey
  have hnat : item.1 = index.toNat := by omega
  rw [← hnat]
  exact List.mem_map_of_mem hitem

end Data

namespace Promela

variable {c : Config} {s : Store} {name : String}

/-! ### Steps -/

/-- The elements of a new array. -/
def zeros (size : Nat) : List (Nat × Data) := (List.range size).map fun i => (i, .ofInt 0)

/-- `evaluateDecl` of a `PML_VAR_ARRAY`. -/
def evaluateDecl (c : Config) (s : Store) (name : String) (expr : Expr) : Result Store := do
  let size ← evaluateInt c s expr
  return Function.update s name (some { size := some (toString size), value := Data.mk "" false [] (zeros size.toNat) })

/-- The variables behind an update. -/
def after (s : Store) (update : Result Store) : Store := (commit s update).1

/-- `PromelaDataModel::init` of an array. Whatever is thrown leaves the variables as they then are. -/
def init (c : Config) (s : Store) (name : String) (size : Expr) (data : Data) : Store :=
  match evaluateDecl c s name size with
  | .error _ => s
  | .ok s₁ =>
    if data.atom ≠ "" ∧ data.verbatim = false then
      match Data.fromJSON data.atom.toList with
      | .error _ => s₁
      | .ok d =>
        if d.isEmpty then after s₁ (setVariable c s₁ (.name name) data)
        else
          match setVariable c s₁ (.name name) d with
          | .error _ => s₁
          | .ok s₂ => after s₂ (setVariable c s₂ (.name name) data)
    else after s₁ (setVariable c s₁ (.name name) data)

inductive ArrayStep where
  | init (size : Expr) (data : Data)
  | element (index : Expr) (value : Data)
  | whole (value : Data)

def ArrayStep.run (c : Config) (name : String) (s : Store) : ArrayStep → Store
  | init size data => Promela.init c s name size data
  | element index value => after s (setVariable c s (.varArray name index) value)
  | whole value => after s (setVariable c s (.name name) value)

/-! ### The shape of an array -/

/-- An array has exactly the keys from 0 on, as many as its size is. -/
def HasShape (c : Config) (name : String) (s : Store) : Prop :=
  ∀ declared size, s name = some declared → declared.size = some size →
    declared.value.array.map (·.1) = List.range (strToInt c size).toNat

/-- A value that is refused for an array as a whole, or has the keys of the array. -/
def Fits (c : Config) (name size : String) (value : Data) : Prop :=
  arrayError c name size value ≠ none ∨ value.array.map (·.1) = List.range (strToInt c size).toNat

/-- The values of a step that are assigned to the array as a whole fit. -/
def ArrayStep.Fits (c : Config) (name : String) (s : Store) : ArrayStep → Prop
  | element _ _ => True
  | whole value => invalidAssignment name = false →
    ∀ declared size, s name = some declared → declared.size = some size → Promela.Fits c name size value
  | init expr data => invalidAssignment name = false → ∀ size, evaluateInt c s expr = .ok size →
    if data.atom ≠ "" ∧ data.verbatim = false then
      ∀ d, Data.fromJSON data.atom.toList = .ok d → d.isEmpty = false → Promela.Fits c name (toString size) d
    else Promela.Fits c name (toString size) data

theorem hasShape_update {declaredSize : Option String} {size : String} {value : Data} (hsize : declaredSize = some size) :
    HasShape c name (Function.update s name (some { size := declaredSize, value := value })) ↔
      value.array.map (·.1) = List.range (strToInt c size).toNat := by
  constructor
  · intro h
    exact h { size := declaredSize, value := value } size (Function.update_self name _ s) hsize
  · intro h d z hd hz
    obtain rfl := Option.some.inj ((Function.update_self name _ s).symm.trans hd)
    obtain rfl : size = z := Option.some.inj (hsize.symm.trans hz)
    exact h

theorem setVariable_invalid {value : Data} (h : invalidAssignment name = true) :
    setVariable c s (.name name) value = raise ("Cannot assign to " ++ name) := if_pos h

theorem setVariable_name {value : Data} (h : invalidAssignment name = false) :
    setVariable c s (.name name) value = setName c s name value := by
  have hnot : ¬ invalidAssignment (Expr.name name).value = true := by
    change ¬ invalidAssignment name = true
    rw [h]
    exact Bool.false_ne_true
  exact if_neg hnot

theorem setName_array {declared : Variable} {size : String} {value : Data} (hs : s name = some declared)
    (hsize : declared.size = some size) : setName c s name value =
      match arrayError c name size value with
      | some cause => raise cause
      | none => .ok (Function.update s name (some { declared with value })) := by
  rw [setName, hs]
  simp only [hsize]
  rfl

/-- An assignment to an array as a whole keeps the shape where the value fits, and only there. -/
theorem hasShape_whole_iff {declared : Variable} {size : String} {value : Data} (hvalid : invalidAssignment name = false)
    (hs : s name = some declared) (hsize : declared.size = some size) (h : HasShape c name s) :
    HasShape c name (after s (setVariable c s (.name name) value)) ↔ Fits c name size value := by
  rw [setVariable_name hvalid, setName_array hs hsize, Fits]
  cases herror : arrayError c name size value with
  | some cause => exact iff_of_true h (Or.inl (Option.some_ne_none cause))
  | none =>
    change HasShape c name (Function.update s name (some { size := declared.size, value := value })) ↔ _
    rw [hasShape_update hsize]
    simp

theorem hasShape_whole {value : Data} (h : HasShape c name s) :
    HasShape c name (after s (setVariable c s (.name name) value)) ↔ (ArrayStep.whole value).Fits c name s := by
  cases hvalid : invalidAssignment name with
  | true =>
    rw [setVariable_invalid hvalid]
    apply iff_of_true h
    intro hfalse
    rw [hvalid] at hfalse
    cases hfalse
  | false =>
    cases hs : s name with
    | none =>
      have hraise : setName c s name value = raise ("Variable " ++ name ++ " is undeclared") := by rw [setName, hs]
      rw [setVariable_name hvalid, hraise]
      apply iff_of_true h
      intro _ d z hd
      rw [hs] at hd
      cases hd
    | some declared =>
      cases hsize : declared.size with
      | some size =>
        rw [hasShape_whole_iff hvalid hs hsize h]
        constructor
        · intro hfits _ d z hd hz
          obtain rfl : declared = d := Option.some.inj (hs.symm.trans hd)
          obtain rfl : size = z := Option.some.inj (hsize.symm.trans hz)
          exact hfits
        · intro hfits
          exact hfits hvalid declared size hs hsize
      | none =>
        have hset : setName c s name value = .ok (Function.update s name (some { declared with value })) := by
          rw [setName, hs]
          simp only [hsize]
          rfl
        rw [setVariable_name hvalid, hset]
        apply iff_of_true
        · intro d z hd hz
          obtain rfl := Option.some.inj ((Function.update_self name _ s).symm.trans hd)
          rw [hsize] at hz
          cases hz
        · intro _ d z hd hz
          obtain rfl : declared = d := Option.some.inj (hs.symm.trans hd)
          rw [hsize] at hz
          cases hz

theorem hasShape_element {index : Expr} {value : Data} (h : HasShape c name s) :
    HasShape c name (after s (setVariable c s (.varArray name index) value)) := by
  have hset : setVariable c s (.varArray name index) value = setElement c s name index value := rfl
  rw [hset]
  cases hresult : setElement c s name index value with
  | error stop => exact h
  | ok s' =>
    change HasShape c name s'
    rw [setElement] at hresult
    cases hs : s name with
    | none =>
      rw [hs] at hresult
      cases hresult
    | some declared =>
      rw [hs] at hresult
      cases hsize : declared.size with
      | none =>
        simp only [hsize] at hresult
        cases hresult
      | some size =>
        simp only [hsize] at hresult
        obtain ⟨k, -, hk⟩ := bind_eq_ok_iff.mp hresult
        split at hk
        · cases hk
        · split at hk
          · cases hk
          · rename_i item hitem
            have hkeys := h declared size hs hsize
            have hmem : k.toNat ∈ declared.value.array.map (·.1) := by
              apply Data.itemAt?_ne_none
              rw [hitem]
              exact Option.some_ne_none item
            have hsorted : (declared.value.array.map (·.1)).Pairwise (· < ·) := by
              rw [hkeys]
              exact List.pairwise_lt_range
            obtain rfl := Except.ok.inj hk
            rw [hasShape_update rfl]
            obtain ⟨dsize, atom, verbatim, compound, array⟩ := declared
            exact (Data.keys_alter hsorted hmem).trans hkeys

theorem keys_zeros (size : Nat) : (zeros size).map (·.1) = List.range size := by
  rw [zeros, List.map_map]
  exact List.map_id _

theorem strToInt_toString {expr : Expr} {size : Int} (h : evaluateInt c s expr = .ok size) : strToInt c (toString size) = size := by
  obtain ⟨d, -, hd⟩ := bind_eq_ok_iff.mp h
  obtain ⟨hvalue, hatom⟩ := dataToInt_eq_ok_iff.mp hd
  rw [← hatom]
  exact hvalue

def declaredStore (s : Store) (name : String) (size : Int) : Store :=
  Function.update s name (some { size := some (toString size), value := Data.mk "" false [] (zeros size.toNat) })

theorem evaluateDecl_eq {expr : Expr} {size : Int} (h : evaluateInt c s expr = .ok size) :
    evaluateDecl c s name expr = .ok (declaredStore s name size) := by
  rw [evaluateDecl, h]
  rfl

theorem hasShape_declared {expr : Expr} {size : Int} (h : evaluateInt c s expr = .ok size) :
    HasShape c name (declaredStore s name size) := by
  rw [declaredStore, hasShape_update rfl, strToInt_toString h]
  exact keys_zeros size.toNat

theorem after_atom {declared : Variable} {size : String} {value : Data} (hs : s name = some declared)
    (hsize : declared.size = some size) (hatom : value.atom ≠ "") : after s (setVariable c s (.name name) value) = s := by
  cases hvalid : invalidAssignment name with
  | true =>
    rw [setVariable_invalid hvalid]
    rfl
  | false =>
    have herror : arrayError c name size value = some ("Variable " ++ name ++ " is an array") := if_pos (Or.inr hatom)
    rw [setVariable_name hvalid, setName_array hs hsize, herror]
    rfl

/-- A value that is assigned to an array leaves an array of this size. -/
theorem setVariable_size {declared : Variable} {size : String} {value : Data} {s' : Store} (hs : s name = some declared)
    (hsize : declared.size = some size) (h : setVariable c s (.name name) value = .ok s') :
    ∃ d, s' name = some d ∧ d.size = some size := by
  cases hvalid : invalidAssignment name with
  | true =>
    rw [setVariable_invalid hvalid] at h
    cases h
  | false =>
    rw [setVariable_name hvalid, setName_array hs hsize] at h
    cases herror : arrayError c name size value with
    | some cause =>
      rw [herror] at h
      cases h
    | none =>
      rw [herror] at h
      obtain rfl := Except.ok.inj h
      exact ⟨_, Function.update_self name _ s, hsize⟩

/-- The value that an initialisation reads from a text is assigned; the text itself is then refused. -/
theorem init_text {expr : Expr} {size : Int} {data d : Data} (hsize : evaluateInt c s expr = .ok size)
    (hdata : data.atom ≠ "" ∧ data.verbatim = false) (hjson : Data.fromJSON data.atom.toList = .ok d) :
    init c s name expr data =
      if d.isEmpty then declaredStore s name size
      else after (declaredStore s name size) (setVariable c (declaredStore s name size) (.name name) d) := by
  have hdeclared : declaredStore s name size name = some _ := Function.update_self name _ s
  rw [init, evaluateDecl_eq hsize]
  simp only [hjson]
  rw [if_pos hdata]
  split
  · exact after_atom hdeclared rfl hdata.1
  · cases hset : setVariable c (declaredStore s name size) (.name name) d with
    | error stop => rfl
    | ok s' =>
      obtain ⟨d', hd', hsize'⟩ := setVariable_size hdeclared rfl hset
      exact after_atom hd' hsize' hdata.1

/-- An initialisation keeps the shape where the value it assigns fits, and only there. -/
theorem hasShape_init_iff {expr : Expr} {data : Data} (h : HasShape c name s) :
    HasShape c name (init c s name expr data) ↔ (ArrayStep.init expr data).Fits c name s := by
  cases hsize : evaluateInt c s expr with
  | error stop =>
    have hdecl : evaluateDecl c s name expr = .error stop := by
      rw [evaluateDecl, hsize]
      rfl
    rw [init, hdecl]
    apply iff_of_true h
    intro _ size hok
    rw [hsize] at hok
    cases hok
  | ok size =>
    have hshape : HasShape c name (declaredStore s name size) := hasShape_declared hsize
    have hdeclared : declaredStore s name size name = some _ := Function.update_self name _ s
    have hwhole : ∀ value, HasShape c name (after (declaredStore s name size)
        (setVariable c (declaredStore s name size) (.name name) value)) ↔
        (invalidAssignment name = false → Fits c name (toString size) value) := by
      intro value
      rw [hasShape_whole hshape]
      constructor
      · intro hfits hvalid
        exact hfits hvalid _ _ hdeclared rfl
      · intro hfits hvalid d z hd hz
        obtain rfl := Option.some.inj (hdeclared.symm.trans hd)
        obtain rfl : toString size = z := Option.some.inj hz
        exact hfits hvalid
    have hiff : (ArrayStep.init expr data).Fits c name s ↔ (invalidAssignment name = false →
        if data.atom ≠ "" ∧ data.verbatim = false then
          ∀ d, Data.fromJSON data.atom.toList = .ok d → d.isEmpty = false → Fits c name (toString size) d
        else Fits c name (toString size) data) := by
      constructor
      · intro hfits hvalid
        exact hfits hvalid size hsize
      · intro hfits hvalid z hz
        obtain rfl : size = z := Except.ok.inj (hsize.symm.trans hz)
        exact hfits hvalid
    rw [hiff]
    by_cases hdata : data.atom ≠ "" ∧ data.verbatim = false
    · rw [if_pos hdata]
      cases hjson : Data.fromJSON data.atom.toList with
      | error fault =>
        have hinit : init c s name expr data = declaredStore s name size := by
          rw [init, evaluateDecl_eq hsize]
          simp only [hjson]
          rw [if_pos hdata]
        rw [hinit]
        apply iff_of_true hshape
        intro _ d hd
        cases hd
      | ok d =>
        rw [init_text hsize hdata hjson]
        cases hempty : d.isEmpty with
        | true =>
          rw [if_pos rfl]
          apply iff_of_true hshape
          intro _ d' hd' hnot
          cases hd'
          rw [hempty] at hnot
          cases hnot
        | false =>
          rw [if_neg Bool.false_ne_true, hwhole]
          constructor
          · intro hfits hvalid d' hd' _
            cases hd'
            exact hfits hvalid
          · intro hfits hvalid
            exact hfits hvalid d rfl hempty
    · have hinit : init c s name expr data =
          after (declaredStore s name size) (setVariable c (declaredStore s name size) (.name name) data) := by
        rw [init, evaluateDecl_eq hsize]
        exact if_neg hdata
      rw [if_neg hdata, hinit, hwhole]

/-- A step keeps the shape where its values fit, and only there. -/
theorem hasShape_run_iff (step : ArrayStep) (h : HasShape c name s) : HasShape c name (step.run c name s) ↔ step.Fits c name s := by
  cases step with
  | init size data => exact hasShape_init_iff h
  | element index value => exact iff_of_true (hasShape_element h) trivial
  | whole value => exact hasShape_whole h

/-! ### Runs -/

/-- Steps from variables in which the array, where it is declared, has its shape. -/
structure ArrayRun (c : Config) where
  name : String
  start : Store
  hasShape : HasShape c name start
  steps : List ArrayStep

def runSteps (c : Config) (name : String) (s : Store) (steps : List ArrayStep) : Store := steps.foldl (ArrayStep.run c name) s

def ArrayRun.KeepsShape (r : ArrayRun c) : Prop := ∀ done, done <+: r.steps → HasShape c r.name (runSteps c r.name r.start done)

def ArrayRun.Fits (r : ArrayRun c) : Prop :=
  ∀ done step, done ++ [step] <+: r.steps → step.Fits c r.name (runSteps c r.name r.start done)

theorem ArrayRun.keepsShape_iff_fits (r : ArrayRun c) : r.KeepsShape ↔ r.Fits :=
  List.foldl_keeps_iff r.hasShape fun _ step h => hasShape_run_iff step h

/-! ### What was assigned is read -/

/-- What is assigned is read back where a literal is a number or an integer expression keeps its value, and only there, and
two variables that are assigned the same are equal under the same condition, which every literal meets; an array has its
keys all the time where the values that are assigned to it as a whole fit, and only there. -/
theorem assigned_is_read_iff (c : Config) :
    (∀ a : Assigned c, a.ReadsBack ↔ a.Keeps) ∧ (∀ a : AssignedTwice c, a.Agree ↔ a.Keeps) ∧
      ∀ r : ArrayRun c, r.KeepsShape ↔ r.Fits :=
  ⟨Assigned.readsBack_iff_keeps, AssignedTwice.agree_iff_keeps, ArrayRun.keepsShape_iff_fits⟩

/-- `x = 'abc'`. -/
def assignedText : Assigned leftToRight where
  before name := if name = "x" then some {} else none
  name := "x"
  expr := .string "'abc'"
  declared := {}
  isDeclared := rfl
  isScalar := rfl
  hasType := Or.inl ⟨"'abc'", rfl⟩
  after := Function.update (fun name => if name = "x" then some {} else none) "x" (some { value := .ofText "abc" })
  isAssigned := rfl

/-- `int a[3]` without an initial value. -/
def emptyArray : ArrayRun leftToRight where
  name := "a"
  start _ := none
  hasShape := by
    intro declared size h
    cases h
  steps := [.init (.const "3") .empty]

/-- `x == 'abc'` is false after `x = 'abc'`, and an array without an initial value has no elements. -/
theorem text_and_empty_array_differ : ¬ assignedText.ReadsBack ∧ ¬ emptyArray.KeepsShape := by
  constructor
  · intro h
    cases h
  · intro h
    have hkeys := h [.init (.const "3") .empty] (List.prefix_refl _) { size := some "3" } "3" rfl rfl
    cases hkeys

end Promela

end Uscxml
