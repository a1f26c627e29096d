import ElmBindings.Elm.Type

set_option autoImplicit false

/-! # JSON encoders

The expressions over `Json.Encode` that write the variables of an operation. -/

namespace ElmBindings

/-- An entry of an encoded object: the JSON key, the record field it is taken from, and how the value
is encoded. -/
structure ObjectEntry (ε : Type) where
  key : String
  field : String
  value : ε

/-- An encoder. -/
inductive Encoder
  | int
  | float
  | bool
  | string
  /-- The enum with this GraphQL name. -/
  | enum (name : String)
  /-- Writes `null` for `Nothing`. -/
  | maybe (inner : Encoder)
  | list (item : Encoder)
  | object (entries : List (ObjectEntry Encoder))

/-- The Elm type of a variable or of an input field, with the encoder for its values. -/
structure InputType where
  type : ElmType
  encoder : Encoder

/-- A variable of an operation: its GraphQL name, its record field, and its type. -/
structure Variable where
  name : String
  field : String
  input : InputType

/-- The Elm name of the encoder of an enum. -/
def Encoder.enumName (name : String) : String :=
  "encode" ++ ElmType.enumName name

end ElmBindings
