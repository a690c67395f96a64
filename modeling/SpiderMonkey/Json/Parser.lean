import Mathlib
import SpiderMonkey.Json.Advance

/-!
# The parser

`JSONParser::parse` as a machine over its labels, with the stack of arrays and objects that are
not finished yet. The position is the units that are left, which are all the text at the start.
-/

namespace SpiderMonkey.Json

/-- An identifier and the value of its property. -/
abbrev IdValuePair := Chars × Value

/-- An array or object in progress, with what has been read of it. -/
inductive StackEntry where
  | elements (elements : List Value)
  | properties (properties : List IdValuePair)

/-- The labels of `parse`. At `finish` a value is complete and the innermost entry of the stack
decides the state. -/
inductive Label where
  | finish
  | member (token : Token)
  | value
  | valueSwitch (token : Token)

/-- The state of a parse. The innermost stack entry comes first. -/
structure Machine where
  label : Label
  value : Value
  current : Chars
  stack : List StackEntry

/-- How a parse ends. A failure holds its report, a message and the number of units that are
left there. A fault is a read past the end, or a use of the stack that does not fit its top. -/
inductive Outcome where
  | returned (value : Value)
  | failed (report : Option (String × ℕ))
  | fault

/-- `errorReturn` behind a token that is not the expected one. -/
def errorReturn (t : Token) (current : Chars) : Outcome :=
  match t with
  | .error message => .failed (some (message, current.length))
  | _ => .failed none

/-- `errorReturn`, reporting `message` unless the token is an error that has been reported. -/
def errorReturnWith (message : String) (t : Token) (current : Chars) : Outcome :=
  match t with
  | .error message => .failed (some (message, current.length))
  | _ => .failed (some (message, current.length))

/-- `properties.back().value = value`. -/
def setBack (properties : List IdValuePair) (value : Value) : List IdValuePair :=
  match properties.getLast? with
  | none => []
  | some (id, _) => properties.dropLast ++ [(id, value)]

/-- `createFinishedObject` defines the properties one after the other. -/
def createFinishedObject (properties : List IdValuePair) : Chars → Option Value :=
  properties.foldl (fun object property => Function.update object property.1 (some property.2))
    fun _ => none

/-- `finishArray`. -/
def finishArray (elements : List Value) : Value := .array elements

/-- `finishObject`. -/
def finishObject (properties : List IdValuePair) : Value :=
  .object (createFinishedObject properties)

/-- From `JSONValueSwitch` to the next label. -/
def stepValueSwitch (conversions : Conversions) (t : Token) (m : Machine) :
    Except Outcome Machine :=
  match t with
  | .string chars => .ok { m with label := .finish, value := .string chars }
  | .number d => .ok { m with label := .finish, value := .number d }
  | .true => .ok { m with label := .finish, value := .boolean true }
  | .false => .ok { m with label := .finish, value := .boolean false }
  | .null => .ok { m with label := .finish, value := .null }
  | .arrayOpen =>
    match advance conversions m.current with
    | none => .error .fault
    | some (.arrayClose, current) =>
        .ok { m with label := .finish, value := finishArray [], current := current }
    | some (t, current) =>
        .ok { m with label := .valueSwitch t, current := current, stack := .elements [] :: m.stack }
  | .objectOpen =>
    match advanceAfterObjectOpen m.current with
    | none => .error .fault
    | some (.objectClose, current) =>
        .ok { m with label := .finish, value := finishObject [], current := current }
    | some (t, current) =>
        .ok { m with label := .member t, current := current, stack := .properties [] :: m.stack }
  | .arrayClose | .objectClose | .colon | .comma =>
    -- The position of the error is that of the token.
    .error (.failed (some ("unexpected character", m.current.length + 1)))
  | .error message => .error (errorReturn (.error message) m.current)

/-- From `JSONMember` to the next label. -/
def stepMember (t : Token) (m : Machine) : Except Outcome Machine :=
  match t with
  | .string id =>
    match m.stack with
    | .properties properties :: stack =>
      match advancePropertyColon m.current with
      | none => .error .fault
      | some (.colon, current) =>
          .ok { m with
            label := .value
            current := current
            stack := .properties (properties ++ [(id, .undefined)]) :: stack }
      | some (t, current) => .error (errorReturn t current)
    | _ => .error .fault
  | t => .error (errorReturnWith "property names must be double-quoted strings" t m.current)

/-- From `FinishObjectMember` to the next label. -/
def stepFinishObjectMember (properties : List IdValuePair) (stack : List StackEntry)
    (m : Machine) : Except Outcome Machine :=
  if properties = [] then .error .fault
  else
    let properties := setBack properties m.value
    match advanceAfterProperty m.current with
    | none => .error .fault
    | some (.objectClose, current) =>
        .ok ⟨.finish, finishObject properties, current, stack⟩
    | some (.comma, current) =>
      match advancePropertyName current with
      | none => .error .fault
      | some (t, current) => .ok ⟨.member t, m.value, current, .properties properties :: stack⟩
    | some (t, current) =>
        .error (errorReturnWith
          "expected ',' or '\x7d' after property-value pair in object literal" t current)

/-- From `FinishArrayElement` to the next label. -/
def stepFinishArrayElement (elements : List Value) (stack : List StackEntry) (m : Machine) :
    Except Outcome Machine :=
  let elements := elements ++ [m.value]
  match advanceAfterArrayElement m.current with
  | none => .error .fault
  | some (.comma, current) => .ok ⟨.value, m.value, current, .elements elements :: stack⟩
  | some (.arrayClose, current) => .ok ⟨.finish, finishArray elements, current, stack⟩
  | some (t, current) => .error (errorReturn t current)

/-- Behind the value of the text only whitespace may follow. -/
def finishText (m : Machine) : Outcome :=
  match skipWhitespace m.current with
  | [] => .returned m.value
  | rest =>
    .failed (some ("unexpected non-whitespace character after JSON data", rest.length))

/-- From one label of `parse` to the next. -/
def step (conversions : Conversions) (m : Machine) : Except Outcome Machine :=
  match m.label with
  | .value =>
    match advance conversions m.current with
    | none => .error .fault
    | some (t, current) => .ok { m with label := .valueSwitch t, current := current }
  | .valueSwitch t => stepValueSwitch conversions t m
  | .member t => stepMember t m
  | .finish =>
    match m.stack with
    | [] => .error (finishText m)
    | .elements elements :: stack => stepFinishArrayElement elements stack m
    | .properties properties :: stack => stepFinishObjectMember properties stack m

/-- At most `fuel` steps; `none` when the parse has not ended by then. -/
def run (conversions : Conversions) : ℕ → Machine → Option Outcome
  | 0, _ => none
  | fuel + 1, m =>
    match step conversions m with
    | .ok m => run conversions fuel m
    | .error outcome => some outcome

/-- `parse` begins at the label `JSONValue` with an empty stack. -/
def initial (text : Chars) : Machine := ⟨.value, .undefined, text, []⟩

/-- What to do about invalid input. -/
inductive ErrorHandling where
  | raiseError
  | noError
  deriving DecidableEq

/-- The position the loop of `getTextPosition` has reached when the given units before `current`
are left. -/
def textPositionLoop (column line : UInt32) : Chars → UInt32 × UInt32
  | [] => (column, line)
  | 0x0D :: 0x0A :: rest => textPositionLoop 1 (line + 1) rest
  | c :: rest =>
    if c = 0x0A ∨ c = 0x0D then textPositionLoop 1 (line + 1) rest
    else textPositionLoop (column + 1) line rest

/-- `getTextPosition`: the column and the line behind the units before `current`. -/
def getTextPosition (before : Chars) : UInt32 × UInt32 := textPositionLoop 1 1 before

/-- What `parse` hands to its caller: its return value, the value it stores, and the message,
line and column of the error it reports. -/
structure ParseResult where
  returned : Bool
  value : Value
  report : Option (String × UInt32 × UInt32)

/-- The result for an outcome; `none` for a fault. -/
def parseResult (errorHandling : ErrorHandling) (text : Chars) : Outcome → Option ParseResult
  | .returned value => some ⟨true, value, none⟩
  | .failed report =>
    match errorHandling with
    | .noError => some ⟨true, .undefined, none⟩
    | .raiseError =>
      some ⟨false, .undefined, report.map fun (message, left) =>
        let (column, line) := getTextPosition (text.take (text.length - left))
        (message, line, column)⟩
  | .fault => none

/-- `JSONParser::parse` with at most `fuel` steps. -/
def parse (conversions : Conversions) (errorHandling : ErrorHandling) (text : Chars)
    (fuel : ℕ) : Option ParseResult :=
  (run conversions fuel (initial text)).bind (parseResult errorHandling text)

end SpiderMonkey.Json
