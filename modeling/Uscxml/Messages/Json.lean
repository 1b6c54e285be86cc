import Uscxml.Messages
import Uscxml.Messages.Jsmn

/-!
# `Data::toJSON` and `Data::fromJSON`

`messages/Data.cpp`. A text is the list of its characters. The pointers on the stack of `fromJSON` all point into the
one `Data` that is built, so that a pointer is the way from its root.
-/

namespace Uscxml

namespace Data

def verbatim : Data → Bool
  | mk _ verbatim _ _ => verbatim

/-! ### Writing -/

/-- `Data::jsonEscape` of one character. -/
def escapeChar (c : Char) : List Char :=
  if c = '\t' then ['\\', 't']
  else if c = '\x0b' then ['\\', 'v']
  else if c = '\x08' then ['\\', 'b']
  else if c = '\x0c' then ['\\', 'f']
  else if c = '\n' then ['\\', 'n']
  else if c = '\r' then ['\\', 'r']
  else if c = '"' then ['\\', '"']
  else if c = '\\' then ['\\', '\\']
  else [c]

def jsonEscape (expr : List Char) : List Char := expr.flatMap escapeChar

/-- The indentation of a value, two blanks for every level. -/
def indent (dataIndentation : Nat) : List Char := List.replicate (2 * (dataIndentation + 1)) ' '

def longestKey (compound : List (String × Data)) : Nat := compound.foldl (fun n m => max n m.1.length) 0

mutual

/-- `Data::toJSON` in an indentation. -/
def toText (dataIndentation : Nat) : Data → List Char
  | mk atom verbatim compound array =>
    if 0 < compound.length then
      '\x7b' :: (membersToText dataIndentation (longestKey compound) [] compound ++
        '\n' :: (indent dataIndentation ++ ['\x7d']))
    else if 0 < array.length then '\n' :: (indent dataIndentation ++ '[' :: (itemsToText dataIndentation [] array ++ [']']))
    else if atom ≠ "" then if verbatim then '"' :: (jsonEscape atom.toList ++ ['"']) else atom.toList
    else if verbatim then ['"', '"']
    else ['n', 'u', 'l', 'l']

/-- The members of a compound, with what stands before the first of them. -/
def membersToText (dataIndentation longest : Nat) (separator : List Char) : List (String × Data) → List Char
  | [] => []
  | (key, value) :: rest =>
    separator ++ '\n' :: (indent dataIndentation ++ ' ' :: ' ' :: '"' :: (jsonEscape key.toList ++
      '"' :: ':' :: ' ' :: (List.replicate (longest - key.length) ' ' ++ (toText (dataIndentation + 1) value ++
        membersToText dataIndentation longest [',', ' '] rest))))

def itemsToText (dataIndentation : Nat) (separator : List Char) : List (Nat × Data) → List Char
  | [] => []
  | (_, value) :: rest =>
    separator ++ (toText (dataIndentation + 1) value ++ itemsToText dataIndentation [',', ' '] rest)

end

/-- `Data::toJSON`; `_dataIndentation` is 1 at the top. -/
def toJSON (data : Data) : List Char := toText 1 data

/-! ### Reading -/

def jsonUnescape : List Char → List Char
  | [] => []
  | '\\' :: [] => []
  | '\\' :: c :: rest =>
    (if c = 'b' then '\x08'
    else if c = 'f' then '\x0c'
    else if c = 'n' then '\n'
    else if c = 'r' then '\r'
    else if c = 't' then '\t'
    else c) :: jsonUnescape rest
  | c :: rest => c :: jsonUnescape rest

inductive Slot where
  | key (key : String)
  | item (index : Nat)
  deriving DecidableEq, Repr

/-- Where a pointer into a `Data` points to. -/
abbrev Pointer := List Slot

/-- `std::map::operator[]` with what is done to the value it refers to; the keys are ascending. -/
def alter {κ : Type} [LT κ] [DecidableLT κ] [DecidableEq κ] (key : κ) (f : Data → Data) : List (κ × Data) → List (κ × Data)
  | [] => [(key, f empty)]
  | (k, d) :: rest =>
    if key < k then (key, f empty) :: (k, d) :: rest
    else if key = k then (k, f d) :: rest
    else (k, d) :: alter key f rest

/-- Change a part of a `Data`, which is made when it is not there. -/
def alterAt (f : Data → Data) : Slot → Data → Data
  | .key key, mk atom verbatim compound array => mk atom verbatim (alter key f compound) array
  | .item index, mk atom verbatim compound array => mk atom verbatim compound (alter index f array)

def modify (f : Data → Data) : Pointer → Data → Data
  | [], d => f d
  | slot :: p, d => alterAt (modify f p) slot d

/-- How `fromJSON` ends without a `Data`: it throws, or it asks an empty list for its last element, which has no defined
behaviour. -/
inductive Fault where
  | thrown (e : Event)
  | emptyStack

/-- The locals of the token loop; the stacks with their backs first. -/
structure Loop where
  data : Data := empty
  dataStack : List Pointer := [[]]
  tokenStack : List JsmnToken := []
  index : Nat := 0

/-- The part of the text that belongs to a token. -/
def substr (text : List Char) (token : JsmnToken) : List Char := (text.drop token.start).take (token.stop - token.start).toNat

/-- The value of a string or a primitive. -/
def setAtom (value : String) (string : Bool) : Data → Data
  | mk _ verbatim compound array => mk value (string || verbatim) compound array

def switch (text : List Char) (token : JsmnToken) (l : Loop) : Except Fault Loop :=
  if token.type = .string ∨ token.type = .primitive then
    match l.dataStack with
    | [] => .error .emptyStack
    | back :: dataStack =>
      let value := String.ofList (jsonUnescape (substr text token))
      .ok { l with data := modify (setAtom value (token.type = .string)) back l.data, dataStack }
  else .ok { l with tokenStack := token :: l.tokenStack }

/-- Leave the containers that end before a token. -/
def popStacks (stop : Int) : List JsmnToken → List Pointer → Except Fault (List JsmnToken × List Pointer)
  | [], _ => .error .emptyStack
  | token :: tokenStack, dataStack =>
    if token.stop < stop then
      match dataStack with
      | [] => .error .emptyStack
      | _ :: dataStack => popStacks stop tokenStack dataStack
    else .ok (token :: tokenStack, dataStack)

/-- Make a part of what the back of the stack points to, and push a pointer to it. -/
def push (slot : Slot) (l : Loop) : Except Fault Loop :=
  match l.dataStack with
  | [] => .error .emptyStack
  | back :: dataStack =>
    .ok { l with data := modify id (back ++ [slot]) l.data, dataStack := (back ++ [slot]) :: back :: dataStack }

/-- Is a token the key of a member, below the container on the stack? -/
def isKey (tokenStack : List JsmnToken) (token : JsmnToken) : Bool :=
  tokenStack.head?.any (·.type = .object) && (token.type = .primitive || token.type = .string)

/-- The token loop. Behind the last token there are zeroed ones: empty primitives that end at 0. -/
def tokenLoop (text : List Char) : List JsmnToken → Loop → Except Fault Data
  | [], l => (switch text { type := .primitive, start := 0, stop := 0 } l).map (·.data)
  | [token], l => (switch text token l).map (·.data)
  | token :: next :: rest, l =>
    (switch text token l).bind fun l =>
      if next.stop = 0 ∨ l.tokenStack = [] then .ok l.data
      else
        (popStacks next.stop l.tokenStack l.dataStack).bind fun (tokenStack, dataStack) =>
          let l := { l with tokenStack, dataStack }
          if isKey tokenStack next then
            (push (.key (String.ofList (jsonUnescape (substr text next)))) l).bind (tokenLoop text rest)
          else if tokenStack.head?.any (·.type = .array) then
            (push (.item l.index) l).bind fun l => tokenLoop text (next :: rest) { l with index := l.index + 1 }
          else tokenLoop text (next :: rest) l

def isSpace (c : Char) : Bool := c ∈ [' ', '\t', '\n', '\x0b', '\x0c', '\r']

def trimCopy (text : List Char) : List Char := ((text.dropWhile isSpace).reverse.dropWhile isSpace).reverse

/-- A string as far as C sees it. -/
def cString (text : List Char) : List Char := text.takeWhile (· ≠ '\x00')

/-- `isNumeric` with base 10. -/
def isNumeric (text : List Char) : Bool := text.all fun c => c ∈ ".-0123456789".toList

/-- Parse with more and more tokens, as long as there are too few. -/
def parseTokens (text : List Char) : List Nat → Except JsmnError (List JsmnToken)
  | [] => .error .nomem
  | [frac] => Jsmn.parse (text.length / frac) (cString text)
  | frac :: fracs =>
    match Jsmn.parse (text.length / frac) (cString text) with
    | .error .nomem => parseTokens text fracs
    | result => result

/-- The error of `ERROR_PLATFORM_THROW`, less the place in the source. -/
def platformError (cause : String) : Event where
  name := "error.platform"
  eventType := .platform
  data := mk "" false [("cause", ofText cause)] []

/-- What is thrown for a return value of the tokenizer. -/
def parseError (text : List Char) : JsmnError → Event
  | .nomem => platformError ("Cannot parse JSON, not enough tokens were provided! Data:[" ++ String.ofList text ++ "]")
  | .inval =>
    platformError ("Cannot parse JSON, invalid character inside JSON string! Data:[" ++ String.ofList text ++ "]")
  | .part =>
    platformError ("Cannot parse JSON, the string is not a full JSON packet, more bytes expected! Data:[" ++
      String.ofList text ++ "]")

def fromJSON (jsonString : List Char) : Except Fault Data :=
  let trimmed := trimCopy jsonString
  match trimmed with
  | [] => .ok empty
  | c :: _ =>
    if c ≠ '\x7b' ∧ c ≠ '[' then .ok (mk (String.ofList jsonString) (!isNumeric (cString jsonString)) [] [])
    else
      match parseTokens trimmed [8, 4, 2, 1] with
      | .error e => .error (.thrown (parseError trimmed e))
      | .ok [] => .ok empty
      | .ok (token :: tokens) =>
        if token.stop ≠ trimmed.length then .ok empty else tokenLoop trimmed (token :: tokens) {}

end Data

end Uscxml
