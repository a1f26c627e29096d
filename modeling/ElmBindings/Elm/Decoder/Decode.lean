import ElmBindings.Elm.Decoder.Code
import ElmBindings.Json.Basic

set_option autoImplicit false

/-! # Running decoders

What a decoder makes of a JSON value, in the way of Elm's `Json.Decode`. -/

namespace ElmBindings

/-- A decoded value. An enum value is known by its GraphQL name. -/
inductive Decoded
  | int (value : Int)
  | float (value : Binary64)
  | bool (value : Bool)
  | string (value : String)
  | enum (value : String)
  | nothing
  | just (value : Decoded)
  | list (items : List Decoded)
  | record (fields : List (String × Decoded))
  | variant (tag : String) (fields : List (String × Decoded))

/-! ## Errors -/

/-- One step into a JSON value. -/
inductive Step
  | key (name : String)
  | index (position : Nat)
  deriving DecidableEq

/-- A step as text. -/
def Step.text : Step → String
  | key name => "." ++ name
  | index position => "[" ++ toString position ++ "]"

/-- A kind of JSON value that a decoder asks for. -/
inductive JsonKind
  | int
  | float
  | bool
  | string
  | list
  deriving DecidableEq

/-- A kind with its article. -/
def JsonKind.text : JsonKind → String
  | int => "an INT"
  | float => "a FLOAT"
  | bool => "a BOOL"
  | string => "a STRING"
  | list => "a LIST"

/-- What is wrong with a JSON value. -/
inductive Fault
  | expecting (kind : JsonKind)
  | missingField (key : String)
  | unexpectedType
  deriving DecidableEq

/-- A fault as text. -/
def Fault.text : Fault → String
  | expecting kind => "expecting " ++ kind.text
  | missingField key => "expecting an object with a field named '" ++ key ++ "'"
  | unexpectedType => ElmBindings.unexpectedType

/-- A fault and the steps that lead to the value that has it. -/
structure DecodeError where
  fault : Fault
  path : List Step := []
  deriving DecidableEq

namespace DecodeError

/-- The error as seen from the value that `step` leads into. -/
def under (step : Step) (e : DecodeError) : DecodeError :=
  { e with path := step :: e.path }

/-- The error as text. The value that is decoded is written `$`. -/
def message (e : DecodeError) : String :=
  e.fault.text ++ " at $" ++ String.join (e.path.map Step.text)

end DecodeError

/-! ## Decoding -/

/-- The value, or the fault that there is none. -/
def orFault {α : Type} (fault : Fault) : Option α → Except DecodeError α
  | some a => .ok a
  | none => .error { fault }

/-- An outcome as seen from outside a step. -/
def through {α : Type} (step : Step) (outcome : Except DecodeError α) : Except DecodeError α :=
  outcome.mapError (·.under step)

namespace Json

/-- Whether an integer fits 64 bits with a sign. -/
def isWord (n : Int) : Bool :=
  -(twoPow 63 : Int) ≤ n && n < (twoPow 63 : Int)

/-- The integer of a number that is one. A double counts if it is whole and below `2 ^ 53`, from where
on not every integer is a double. -/
def integer? : Json → Option Int
  | int n => if isWord n then some n else none
  | float x => x.toInt?.filter fun n => n.natAbs < twoPow 53
  | _ => none

/-- The double of a number. -/
def double? : Json → Option Binary64
  | int n => some (.ofInt n)
  | float x => some x
  | _ => none

end Json

/-- What a leaf decoder makes of a value. -/
def Primitive.decode (json : Json) : Primitive → Except DecodeError Decoded
  | int => orFault (.expecting .int) (json.integer?.map .int)
  | float => orFault (.expecting .float) (json.double?.map .float)
  | bool => orFault (.expecting .bool) (json.bool?.map .bool)
  | string => orFault (.expecting .string) (json.string?.map .string)
  | enum _ _ => orFault (.expecting .string) (json.string?.map .enum)

/-- The value with the given field values. -/
def Constructor.build (values : List Decoded) : Constructor → Decoded
  | record _ fields => .record (fields.zip values)
  | variant tag fields => .variant tag (fields.zip values)

/-- What a decoder makes of the items of an array that starts at a position. -/
def decodeItems (item : Json → Except DecodeError Decoded) :
    Nat → List Json → Except DecodeError (List Decoded)
  | _, [] => .ok []
  | position, json :: items => do
    let value ← through (.index position) (item json)
    let values ← decodeItems item (position + 1) items
    .ok (value :: values)

namespace Decoder

mutual

/-- What a decoder makes of a value. -/
def decode (json : Json) : Decoder → Except DecodeError Decoded
  | primitive leaf => leaf.decode json
  | field key value => do
    let inner ← orFault (.missingField key) (json.get? key)
    through (.key key) (value.decode inner)
  | maybe inner =>
    match inner.decode json with
    | .ok value => .ok (.just value)
    | .error _ => .ok .nothing
  | list item => do
    let items ← orFault (.expecting .list) json.array?
    let values ← decodeItems (fun json => item.decode json) 0 items
    .ok (.list values)
  | map build values => do
    let decoded ← decodeAll json values
    .ok (build.build decoded)
  | dispatch cases => do
    let type ← orFault (.missingField "__typename") (json.get? "__typename")
    let type ← through (.key "__typename") (orFault (.expecting .string) type.string?)
    decodeCase type json cases
  | succeed build => .ok (build.build [])

/-- What every one of the decoders makes of a value. -/
def decodeAll (json : Json) : List Decoder → Except DecodeError (List Decoded)
  | [] => .ok []
  | value :: values => do
    let decoded ← value.decode json
    let rest ← decodeAll json values
    .ok (decoded :: rest)

/-- What the first case for a type makes of a value. -/
def decodeCase (type : String) (json : Json) :
    List (String × Decoder) → Except DecodeError Decoded
  | [] => .error { fault := .unexpectedType }
  | (name, value) :: cases =>
    if name = type then value.decode json else decodeCase type json cases

end

end Decoder

end ElmBindings
