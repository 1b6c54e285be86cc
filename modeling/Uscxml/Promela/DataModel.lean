import Uscxml.Lib.Trap
import Uscxml.Messages.DataOrder
import Uscxml.Messages.EventData
import Mathlib.Logic.Function.Basic
import Mathlib.Algebra.Group.Int.Defs

/-!
# The Promela data model

`PromelaDataModel` and the trees of `parser/promela.ypp`. The variables are a map from names; of the members of a variable,
the model has those that are read: `size`, which only arrays have, and `value`, where an absent one reads as an empty one.
Machine integers wrap and the amounts of shifts are masked.
-/

namespace Uscxml

open Trapping

namespace Data

def ofInt (value : Int) : Data := mk (toString value) false [] []

/-- `Data(value)` of a `bool`, which is printed as a number. -/
def ofBool (value : Bool) : Data := ofInt (if value then 1 else 0)

/-- `array.find(index)`. -/
def itemAt? (data : Data) (index : Int) : Option Data := (data.array.find? fun item => (item.1 : Int) = index).map (·.2)

mutual

/-- A `Data` with the members that have no counterpart here empty. -/
def toValue : Data → DataValue Unit Unit
  | mk atom verbatim compound array =>
    .mk () (membersToValue compound) (itemsToValue array) atom () (if verbatim then .verbatim else .interpreted)

def membersToValue : List (String × Data) → List (String × DataValue Unit Unit)
  | [] => []
  | (key, value) :: rest => (key, value.toValue) :: membersToValue rest

def itemsToValue : List (Nat × Data) → List (Int × DataValue Unit Unit)
  | [] => []
  | (index, value) :: rest => (index, value.toValue) :: itemsToValue rest

end

/-- `operator==`. -/
def eq (data other : Data) : Bool := data.toValue.eq other.toValue

end Data

/-! ### Trees -/

namespace Promela

inductive ArithOp where
  | plus | minus | times | divide | modulo | lt | le | gt | ge | lshift | rshift
  deriving DecidableEq, Repr

/-- The operators that are parsed and have no evaluation. -/
inductive OtherOp where
  | bitand | bitxor | bitor | ne
  deriving DecidableEq, Repr

/-- A part of a compound. An index there is never evaluated; what is read of it is its text and whether it is a string. -/
inductive Field where
  | name (value : String)
  | varArray (arrName : String) (index : String) (isString : Bool)
  deriving DecidableEq, Repr

/-- The `value` of the node of a field; the node of an array access has none. -/
def Field.value : Field → String
  | name value => value
  | varArray _ _ _ => ""

inductive Expr where
  | const (value : String)
  | string (value : String)
  | name (value : String)
  | varArray (name : String) (index : Expr)
  | cmpnd (name field : Field) (fields : List Field)
  | arith (op : ArithOp) (lhs rhs : Expr)
  | eq (lhs rhs : Expr)
  | and (lhs rhs : Expr)
  | or (lhs rhs : Expr)
  | other (op : OtherOp) (lhs rhs : Expr)
  | neg (operand : Expr)
  | minus (operand : Expr)
  | len (varref : Expr)
  deriving Repr

/-- The trees of `stmnt_lst`. What is printed or asserted is never looked at. -/
inductive Stmnt where
  | asgn (lhs rhs : Expr)
  | incr (name : Expr)
  | decr (name : Expr)
  | print
  | assert
  | expr (e : Expr)
  | stmnt (first rest : Stmnt)
  deriving Repr

def ArithOp.typeToDesc : ArithOp → String
  | plus => "PLUS"
  | minus => "MINUS"
  | times => "TIMES"
  | divide => "DIVIDE"
  | modulo => "MODULO"
  | lt => "LT"
  | le => "LE"
  | gt => "GT"
  | ge => "GE"
  | lshift => "LSHIFT"
  | rshift => "RSHIFT"

def OtherOp.typeToDesc : OtherOp → String
  | bitand => "BITAND"
  | bitxor => "BITXOR"
  | bitor => "BITOR"
  | ne => "NE"

/-- `PML_LEN` has no description, but a number. -/
def Expr.typeToDesc : Expr → String
  | const _ => "CONST"
  | string _ => "STRING"
  | name _ => "NAME"
  | varArray _ _ => "VAR_ARRAY"
  | cmpnd _ _ _ => "CMPND"
  | arith op _ _ => op.typeToDesc
  | eq _ _ => "EQ"
  | and _ _ => "AND"
  | or _ _ => "OR"
  | other op _ _ => op.typeToDesc
  | neg _ => "NEG"
  | minus _ => "MINUS"
  | len _ => "UNK(269)"

def Stmnt.typeToDesc : Stmnt → String
  | asgn _ _ => "ASGN"
  | incr _ => "INCR"
  | decr _ => "DECR"
  | print => "PRINT"
  | assert => "ASSERT"
  | expr e => e.typeToDesc
  | stmnt _ _ => "STMNT"

def Expr.value : Expr → String
  | const value => value
  | string value => value
  | name value => value
  | _ => ""

/-- `type == PML_STRING`. -/
def Expr.isString : Expr → Bool
  | string _ => true
  | _ => false

/-! ### Values -/

/-- How an evaluation ends when not by a value or an `error.execution`: by a division the processor refuses, by the
`std::out_of_range` of `array.at`, or by taking an operand that is not there. -/
inductive Fault where
  | division
  | outOfRange
  | noOperand
  deriving DecidableEq, Repr

/-- What an evaluation results in; an error is an `error.execution` with its cause. -/
abbrev Result := Trapping String Fault

/-- What the compiler and the interpreter decide: whether of the two calls for the operands of an operator the left one comes
first, which states are active, and what is left of a number that no text was read into. -/
structure Config where
  leftFirst : ArithOp → Bool
  isInState : String → Bool
  uninitialized : Int

/-- A compiler that evaluates the left call first, while no state is active. -/
def leftToRight : Config where
  leftFirst _ := true
  isInState _ := false
  uninitialized := 0

/-- The sign and the digits that `operator>>` finds in a text; in a blank one it finds nothing. -/
def readNumber (text : String) : Option (Bool × Nat) :=
  match text.toList.dropWhile Data.isSpace with
  | [] => none
  | c :: rest =>
    let digits := (if c = '-' ∨ c = '+' then rest else c :: rest).takeWhile Char.isDigit
    some (c = '-', digits.foldl (fun n d => 10 * n + (d.toNat - '0'.toNat)) 0)

/-- What `operator>>` leaves in a number from `least` to `greatest`. -/
def strTo (least greatest uninitialized : Int) (text : String) : Int :=
  match readNumber text with
  | none => uninitialized
  | some (negative, magnitude) => max least (min greatest (if negative then -magnitude else magnitude))

def strToInt (c : Config) (text : String) : Int := strTo (-2 ^ 31) (2 ^ 31 - 1) c.uninitialized text

def strToLong (c : Config) (text : String) : Int := strTo (-2 ^ 63) (2 ^ 63 - 1) c.uninitialized text

def strToSize (c : Config) (text : String) : Nat :=
  match readNumber text with
  | none => (c.uninitialized % 2 ^ 64).toNat
  | some (negative, magnitude) =>
    if 2 ^ 64 ≤ magnitude then 2 ^ 64 - 1 else if negative then (2 ^ 64 - magnitude) % 2 ^ 64 else magnitude

def dataToInt (c : Config) (data : Data) : Result Int :=
  let value := strToInt c data.atom
  if data.atom = toString value then .ok value else raise "Operand is not integer"

def dataToBool (c : Config) (data : Data) : Result Bool :=
  if data.atom = "" then .ok false
  else if data.verbatim then .ok true
  else if data.atom = "true" then .ok true
  else if data.atom = "false" then .ok false
  else (fun value => decide (value ≠ 0)) <$> dataToInt c data

/-- The `int` with the low bits of a number. -/
def int32 (value : Int) : Int := value.bmod (2 ^ 32)

/-- Where `idiv` traps. -/
def refusesDivision (x y : Int) : Bool := y = 0 ∨ (x = -2 ^ 31 ∧ y = -1)

def ArithOp.compute : ArithOp → Int → Int → Result Data
  | plus, x, y => .ok (.ofInt (int32 (x + y)))
  | minus, x, y => .ok (.ofInt (int32 (x - y)))
  | times, x, y => .ok (.ofInt (int32 (x * y)))
  | divide, x, y => if refusesDivision x y then trap .division else .ok (.ofInt (x.tdiv y))
  | modulo, x, y => if refusesDivision x y then trap .division else .ok (.ofInt (x.tmod y))
  | lt, x, y => .ok (.ofBool (x < y))
  | le, x, y => .ok (.ofBool (x ≤ y))
  | gt, x, y => .ok (.ofBool (y < x))
  | ge, x, y => .ok (.ofBool (y ≤ x))
  | lshift, x, y => .ok (.ofInt (int32 (x * 2 ^ (y % 32).toNat)))
  | rshift, x, y => .ok (.ofInt (x / 2 ^ (y % 32).toNat))

/-! ### Reading -/

structure Variable where
  size : Option String := none
  value : Data := .empty

/-- `_variables`. -/
abbrev Store := String → Option Variable

/-- The value of a `PML_CONST`. -/
def constant (c : Config) (value : String) : Data :=
  if Convenience.iequals value.toList "false".toList then .ofBool false
  else if Convenience.iequals value.toList "true".toList then .ofBool true
  else .ofInt (strToInt c value)

/-- A literal without its quotes. -/
def stripped (literal : String) : String := String.ofList ((literal.toList.drop 1).take (literal.length - 2))

/-- What `evaluateExpr` makes of the value of a name. -/
def nameData (d : Data) : Data :=
  if d.atom ≠ "" ∧ Data.isNumeric (Data.cString d.atom.toList) then .ofText d.atom else .ofText (String.ofList d.toJSON)

/-- `getVariable` of a `PML_NAME`. -/
def getName (s : Store) (name : String) : Result Data :=
  match s name with
  | none => raise ("No variable " ++ name ++ " was declared")
  | some declared => .ok declared.value

def outOfBounds (name size : String) (index : Int) : String :=
  "Index " ++ toString index ++ " in array " ++ name ++ "[" ++ size ++ "] is out of bounds"

/-- `getVariable` of a `PML_VAR_ARRAY`, behind the evaluation of the index. -/
def getElement (c : Config) (s : Store) (name : String) (index : Int) : Result Data :=
  match s name with
  | none => raise ("No variable " ++ name ++ " was declared")
  | some declared =>
    match declared.size with
    | none => raise ("Variable " ++ name ++ " is no array")
    | some size =>
      if strToInt c size ≤ index then raise (outOfBounds name size index)
      else
        match declared.value.itemAt? index with
        | none => trap .outOfRange
        | some value => .ok value

/-- The loop over the fields of a compound. -/
def getFields (currData : Data) (idPath : String) : List Field → Result Data
  | [] => .ok currData
  | field :: fields =>
    let idPath := idPath ++ "." ++ field.value
    match currData.at? field.value with
    | none => raise ("No variable " ++ idPath ++ " was declared")
    | some tmp => getFields tmp idPath fields

/-- `getVariable` of a `PML_CMPND`. -/
def getCompound (c : Config) (s : Store) (name what : Field) (fields : List Field) : Result Data :=
  if name.value = "_x" then
    match what with
    | .varArray arrName index isString =>
      if arrName = "states" then .ok (.ofBool (c.isInState (if isString then stripped index else index)))
      else raise ("No variable " ++ name.value ++ " was declared")
    | .name _ => raise ("No variable " ++ name.value ++ " was declared")
  else
    match s name.value with
    | none => raise ("No variable " ++ name.value ++ " was declared")
    | some declared => getFields declared.value name.value (what :: fields)

/-- The last comparison of `PML_EQ`. -/
def equalInts (c : Config) (left right : Data) : Result Data := do
  let x ← dataToInt c left
  let y ← dataToInt c right
  return .ofBool (x = y)

/-- `PML_EQ` behind the evaluation of its operands. -/
def compareData (c : Config) (lhs rhs : Expr) (left right : Data) : Result Data :=
  if left.eq right then .ok (.ofBool true)
  else if (lhs.isString || rhs.isString) || (left.verbatim && right.verbatim) then
    .ok (.ofBool (left.atom = right.atom))
  else equalInts c left right

/-- `PML_AND` and `PML_OR` behind the evaluation of their operands. -/
def junction (c : Config) (op : Bool → Bool → Bool) (left right : Data) : Result Data := do
  let truthLeft ← dataToBool c left
  let truthRight ← dataToBool c right
  return .ofBool (op truthLeft truthRight)

/-- `PromelaDataModel::evaluateExpr` of an expression. Both operands of an operator on integers are taken from one iterator,
so that the call that comes first gets the left one, and the operator then has it on the side of that call. The operator that
is given one operand takes a second one from behind the end. -/
def evaluateExpr (c : Config) (s : Store) : Expr → Result Data
  | .const value => .ok (constant c value)
  | .name value => nameData <$> getName s value
  | .varArray name expr => do
    let index ← evaluateExpr c s expr >>= dataToInt c
    getElement c s name index
  | .cmpnd name field fields => getCompound c s name field fields
  | .string value => .ok (.ofText (stripped value))
  | .arith op lhs rhs => do
    let x ← evaluateExpr c s lhs >>= dataToInt c
    let y ← evaluateExpr c s rhs >>= dataToInt c
    if c.leftFirst op then op.compute x y else op.compute y x
  | .minus operand => do
    let _ ← evaluateExpr c s operand >>= dataToInt c
    trap .noOperand
  | .eq lhs rhs => do
    let left ← evaluateExpr c s lhs
    let right ← evaluateExpr c s rhs
    compareData c lhs rhs left right
  | .neg operand => do
    let value ← evaluateExpr c s operand >>= dataToBool c
    return .ofBool (!value)
  | .and lhs rhs => do
    let left ← evaluateExpr c s lhs
    let right ← evaluateExpr c s rhs
    junction c (· && ·) left right
  | .or lhs rhs => do
    let left ← evaluateExpr c s lhs
    let right ← evaluateExpr c s rhs
    junction c (· || ·) left right
  | .other op _ _ => raise ("Support for " ++ op.typeToDesc ++ " expressions not implemented")
  | .len varref => raise ("Support for " ++ (Expr.len varref).typeToDesc ++ " expressions not implemented")

/-- `dataToInt` of the value of an expression. -/
def evaluateInt (c : Config) (s : Store) (e : Expr) : Result Int := evaluateExpr c s e >>= dataToInt c

def evalAsBool (c : Config) (s : Store) (e : Expr) : Result Bool := do
  let tmp ← evaluateExpr c s e
  return tmp.atom ≠ "false" ∧ tmp.atom ≠ "0"

def getVariable (c : Config) (s : Store) : Expr → Result Data
  | .name value => getName s value
  | .varArray name expr => do
    let index ← evaluateInt c s expr
    getElement c s name index
  | .cmpnd name field fields => getCompound c s name field fields
  | ast => raise ("Retrieving value of " ++ ast.typeToDesc ++ " variable not implemented")

/-! ### Writing -/

def invalidAssignment (name : String) : Bool := name ∈ ["_sessionid", "_name", "_ioprocessors", "_event"]

/-- `setVariable` of a `PML_VAR_ARRAY`. -/
def setElement (c : Config) (s : Store) (name : String) (expr : Expr) (value : Data) : Result Store :=
  match s name with
  | none => raise ("Variable " ++ name ++ " is undeclared")
  | some declared =>
    match declared.size with
    | none => raise ("Variable " ++ name ++ " is no array")
    | some size => do
      let index ← evaluateInt c s expr
      if strToInt c size ≤ index then raise (outOfBounds name size index)
      else
        match declared.value.itemAt? index with
        | none => trap .outOfRange
        | some _ =>
          let array := Data.alterAt (fun _ => value) (.item index.toNat) declared.value
          .ok (Function.update s name (some { declared with value := array }))

/-- What is wrong with a value for an array as a whole. -/
def arrayError (c : Config) (name size : String) (value : Data) : Option String :=
  if value.compound ≠ [] ∨ value.atom ≠ "" then some ("Variable " ++ name ++ " is an array")
  else if strToSize c size < value.array.length then some ("Array assigned to " ++ name ++ " is too large")
  else none

/-- `setVariable` of a `PML_NAME`. -/
def setName (c : Config) (s : Store) (name : String) (value : Data) : Result Store :=
  match s name with
  | none => raise ("Variable " ++ name ++ " is undeclared")
  | some declared =>
    match declared.size.bind fun size => arrayError c name size value with
    | some cause => raise cause
    | none => .ok (Function.update s name (some { declared with value }))

/-- `setVariable` of a `PML_CMPND`. -/
def setCompound (s : Store) (name : Field) (fields : List Field) (value : Data) : Result Store :=
  match s name.value with
  | none => raise ("Variable " ++ name.value ++ " is undeclared")
  | some declared =>
    match declared.size with
    | some _ => raise ("Variable " ++ name.value ++ " is an array")
    | none =>
      let var := Data.put "vis" (.ofText "") (Data.put "type" (.ofText "compound") declared.value)
      let var := Data.modify (fun _ => value) (fields.map fun field => .key field.value) var
      .ok (Function.update s name.value (some { declared with value := var }))

def setVariable (c : Config) (s : Store) (ast : Expr) (value : Data) : Result Store :=
  if invalidAssignment ast.value then raise ("Cannot assign to " ++ ast.value)
  else
    match ast with
    | .varArray name expr => setElement c s name expr value
    | .name name => setName c s name value
    | .cmpnd name field fields => setCompound s name (field :: fields) value
    | ast => raise ("No support for " ++ ast.typeToDesc ++ " variables implemented")

/-- The variables behind an update, with how it ended. -/
def commit (s : Store) : Result Store → Store × Result Unit
  | .ok s' => (s', .ok ())
  | .error stop => (s, .error stop)

/-- `setVariable(lhs, evaluateExpr(rhs))`. -/
def assignment (c : Config) (s : Store) (lhs rhs : Expr) : Result Store := do
  let value ← evaluateExpr c s rhs
  setVariable c s lhs value

/-- `PromelaDataModel::assign`, with the parser of expressions. -/
def assign (c : Config) (parse : String → Result Expr) (s : Store) (location : String) (data : Data) : Result Store := do
  let ast ← parse location
  if data.atom ≠ "" ∧ data.verbatim = false then
    let value ← parse data.atom >>= evaluateExpr c s
    setVariable c s ast value
  else setVariable c s ast data

/-- `setVariable(name, Data(strTo<long>(getVariable(name)) + amount))`. -/
def increment (c : Config) (s : Store) (name : Expr) (amount : Int) : Result Store := do
  let value ← getVariable c s name
  setVariable c s name (.ofInt ((strToLong c value.atom + amount).bmod (2 ^ 64)))

def evaluateStmnt (c : Config) : Stmnt → Store → Store × Result Unit
  | .asgn name expr, s => commit s (assignment c s name expr)
  | .stmnt first rest, s =>
    match evaluateStmnt c first s with
    | (s', .ok ()) => evaluateStmnt c rest s'
    | (s', .error stop) => (s', .error stop)
  | .incr name, s => commit s (increment c s name 1)
  | .decr name, s => commit s (increment c s name (-1))
  | ast, s => (s, raise ("No support for " ++ ast.typeToDesc ++ " statement implemented"))

end Promela

end Uscxml
