import Mathlib.Data.List.Basic

/-!
# Data and events

`messages/Data.h` and `messages/Event.h`. The maps of a `Data` are association lists; DOM nodes and binary
content have no counterpart.
-/

namespace Uscxml

/-- `isspace`, in the locale of the C library. -/
def isspace (c : Char) : Bool := c = ' ' || c = '\t' || c = '\n' || c = '\x0b' || c = '\x0c' || c = '\r'

/-- `strTo<size_t>`: the digits at the front, behind a sign. A number that is too large gives the largest one, and a
negative one is taken off its successor. -/
def strToNat (text : String) : Nat :=
  let text := text.toList.dropWhile isspace
  let (negative, text) :=
    match text with
    | '-' :: rest => (true, rest)
    | '+' :: rest => (false, rest)
    | _ => (false, text)
  let n := (text.takeWhile Char.isDigit).foldl (fun n c => 10 * n + (c.toNat - '0'.toNat)) 0
  if UInt64.size ≤ n then UInt64.size - 1 else if negative then (UInt64.size - n) % UInt64.size else n

/-- `iequals` of `util/Convenience.cpp`. -/
def Convenience.iequals (a b : List Char) : Bool := a.map Char.toLower = b.map Char.toLower

/-- A `Data`: an atom that is either verbatim text or to be interpreted, named members and indexed items. -/
inductive Data where
  | mk (atom : String) (verbatim : Bool) (compound : List (String × Data)) (array : List (Nat × Data))
  deriving Inhabited, Repr

namespace Data

def atom : Data → String
  | mk atom _ _ _ => atom

def compound : Data → List (String × Data)
  | mk _ _ compound _ => compound

def array : Data → List (Nat × Data)
  | mk _ _ _ array => array

def empty : Data := mk "" false [] []

def ofText (text : String) : Data := mk text true [] []

def at? (d : Data) (key : String) : Option Data := (d.compound.find? fun m => m.1 = key).map (·.2)

end Data

inductive EventType where
  | internal | external | platform
  deriving DecidableEq, Repr, Inhabited

structure Event where
  name : String := ""
  eventType : EventType := .internal
  raw : String := ""
  origin : String := ""
  origintype : String := ""
  sendid : String := ""
  hideSendId : Bool := false
  invokeid : String := ""
  uuid : String := ""
  data : Data := Data.empty
  namelist : List (String × Data) := []
  params : List (String × Data) := []
  deriving Inhabited, Repr

namespace Event

/-- An event without a name stands for no event: `Event::operator bool`. -/
def toBool (e : Event) : Bool := e.name ≠ ""

def typeOfNat : Nat → EventType
  | 2 => .external
  | 3 => .platform
  | _ => .internal

/-- `Event::fromData`: every field from the member of its name, where there is one. -/
def fromData (d : Data) : Event where
  data := (d.at? "data").getD Data.empty
  raw := (d.at? "raw").elim "" Data.atom
  name := (d.at? "name").elim "" Data.atom
  eventType := (d.at? "eventType").elim .internal fun v => typeOfNat (strToNat v.atom)
  origin := (d.at? "origin").elim "" Data.atom
  origintype := (d.at? "origintype").elim "" Data.atom
  sendid := (d.at? "sendid").elim "" Data.atom
  hideSendId := (d.at? "hideSendId").elim false fun v => v.atom = "1"
  invokeid := (d.at? "invokeid").elim "" Data.atom
  uuid := (d.at? "uuid").elim "" Data.atom
  namelist := (d.at? "namelist").elim [] Data.compound
  params := (d.at? "params").elim [] fun v => v.array.filterMap fun item => item.2.compound.head?

end Event

/-- What a callback throws: an `ErrorEvent` or anything else, such as the `std::out_of_range` of a data model. -/
inductive Fault where
  | error (e : Event)
  | other

def Fault.error? : Fault → Option Event
  | .error e => some e
  | .other => none

end Uscxml
