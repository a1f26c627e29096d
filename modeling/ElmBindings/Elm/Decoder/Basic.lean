set_option autoImplicit false

/-! # JSON decoders

The expressions over `Json.Decode` that generated modules are made of. -/

namespace ElmBindings

/-- A decoder of a leaf value. -/
inductive Primitive
  | int
  | float
  | bool
  | string
  /-- The enum with this GraphQL name, by the decoder that the module declares for it. -/
  | enum (name decoder : String)
  deriving DecidableEq

/-- The Elm name of a leaf decoder. -/
def Primitive.text : Primitive → String
  | int => "int"
  | float => "float"
  | bool => "bool"
  | string => "string"
  | enum _ decoder => decoder

/-- What is built from decoded fields, with the names of the fields in the order of their values. -/
inductive Constructor
  /-- A record, built by the constructor of its alias if it has one. -/
  | record (label : Option String) (fields : List String)
  /-- A variant of a union around a record. -/
  | variant (tag : String) (fields : List String)
  deriving DecidableEq

/-- The names of the fields. -/
def Constructor.fields : Constructor → List String
  | record _ fields => fields
  | variant _ fields => fields

/-- A decoder. -/
inductive Decoder
  | primitive (leaf : Primitive)
  /-- Reads the value under a key. -/
  | field (key : String) (value : Decoder)
  /-- Gives `Nothing` wherever the inner decoder fails. -/
  | maybe (inner : Decoder)
  | list (item : Decoder)
  /-- Builds a value from what every one of the decoders gives. -/
  | map (build : Constructor) (values : List Decoder)
  /-- Chooses a decoder by `__typename`, and fails for any other type. -/
  | dispatch (cases : List (String × Decoder))
  /-- Builds a value from no fields. -/
  | succeed (build : Constructor)

namespace Decoder

/-- The decoder under `depth` list layers. -/
def lists (decoder : Decoder) : Nat → Decoder
  | 0 => decoder
  | depth + 1 => list (decoder.lists depth)

/-- The decoder that builds a value from decoded fields, of which there may be none. -/
def construct (build : Constructor) : List Decoder → Decoder
  | [] => succeed build
  | values => map build values

end Decoder

end ElmBindings
