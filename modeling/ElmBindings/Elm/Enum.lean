import ElmBindings.Elm.Encoder.Basic
import ElmBindings.Elm.Layout
import ElmBindings.Elm.Scope
import ElmBindings.Error

set_option autoImplicit false

/-! # Enums in Elm

An enum becomes a custom type with a decoder and an encoder. The constructors of all enums of a module
share one name space, so an enum whose constructors clash with those of another one has its type name
put before them. -/

namespace ElmBindings

/-! ## Names -/

/-- The Elm name of the decoder of an enum. -/
def Decoder.enumName (name : String) : String :=
  Text.lowerText name ++ "Decoder"

/-- The Elm names for one enum. -/
structure EnumNaming where
  /-- The GraphQL name of the enum. -/
  name : String
  /-- Each GraphQL value with its Elm constructor. -/
  constructors : List (String × String)
  deriving DecidableEq

namespace EnumNaming

/-- The name of the custom type. -/
def typeName (enum : EnumNaming) : String := ElmType.enumName enum.name

/-- The name of the decoder. -/
def decoder (enum : EnumNaming) : String := Decoder.enumName enum.name

/-- The name of the encoder. -/
def encoder (enum : EnumNaming) : String := Encoder.enumName enum.name

/-- The plain names for an enum, where each constructor is made from its value alone. -/
def plain (name : String) (values : List String) : EnumNaming :=
  { name, constructors := values.map fun value => (value, Naming.pascalCase value) }

/-- Whether two enums share a constructor. -/
def clashes (enum other : EnumNaming) : Bool :=
  enum.constructors.any fun (_, c) => other.constructors.any fun (_, d) => c == d

/-- The names with the type name before each constructor. -/
def qualified (enum : EnumNaming) : EnumNaming :=
  { enum with constructors := enum.constructors.map fun (value, c) => (value, enum.typeName ++ c) }

end EnumNaming

/-- The values of an enum of the schema. -/
def Schema.enumValues? (schema : Schema) (name : String) : Option (List String) :=
  match schema.get? name with
  | some (.enum d) => some (d.values.map EnumValue.name)
  | _ => none

/-- The enums of a module with their names, in the order of their first use. -/
structure EnumIndex where
  enums : List EnumNaming

namespace EnumIndex

/-- The plain names of one enum of the schema. -/
def plainNaming (schema : Schema) (name : String) : Except GenerateError EnumNaming :=
  match schema.enumValues? name with
  | some values => .ok (.plain name values)
  | none => .error (.unknownType name)

/-- The names of enums that are in one module: one that clashes with another one is qualified. -/
def settle (enums : List EnumNaming) : List EnumNaming :=
  enums.map fun enum =>
    if enums.any fun other => other.name != enum.name && enum.clashes other then enum.qualified
    else enum

/-- The index of the enums of the given names, of which each counts once. -/
def ofNames (schema : Schema) (names : List String) : Except GenerateError EnumIndex := do
  let enums ← names.eraseDups.mapM (plainNaming schema)
  .ok ⟨settle enums⟩

/-- The names for an enum. -/
def get? (index : EnumIndex) (name : String) : Option EnumNaming :=
  index.enums.find? (·.name == name)

end EnumIndex

/-! ## Text -/

namespace EnumNaming

open Layout

/-- The declaration of the custom type. -/
def typeDeclaration (enum : EnumNaming) : List String :=
  ("type " ++ enum.typeName) :: listed "    = " "    | " (enum.constructors.map (·.2))

/-- The declaration of the decoder, whose lambda has the given parameter. -/
def decoderDeclaration (enum : EnumNaming) (raw : String) : List String :=
  [enum.decoder ++ " : Decoder " ++ enum.typeName,
   enum.decoder ++ " =",
   "    string",
   "        |> andThen",
   "            (\\" ++ raw ++ " ->",
   "                case " ++ raw ++ " of"]
  ++ enum.constructors.flatMap (fun (value, c) =>
    ["                    " ++ Naming.stringLiteral value ++ " ->",
     "                        succeed " ++ c,
     ""])
  ++ ["                    _ ->",
      "                        fail (\"Unknown " ++ enum.name ++ ": \" ++ " ++ raw ++ ")",
      "            )"]

/-- The branches of the encoder, with an empty line between two of them. -/
def encoderBranches : List (String × String) → List String
  | [] => []
  | (value, c) :: constructors =>
    ["        " ++ c ++ " ->", "            Json.Encode.string " ++ Naming.stringLiteral value]
    ++ constructors.flatMap fun (value, c) =>
      ["", "        " ++ c ++ " ->", "            Json.Encode.string " ++ Naming.stringLiteral value]

/-- The declaration of the encoder, which has the given parameter. -/
def encoderDeclaration (enum : EnumNaming) (item : String) : List String :=
  [enum.encoder ++ " : " ++ enum.typeName ++ " -> Json.Encode.Value",
   enum.encoder ++ " " ++ item ++ " =",
   "    case " ++ item ++ " of"]
  ++ encoderBranches enum.constructors

/-- Writes the declarations for an enum. -/
def written (enum : EnumNaming) : Scoped String := do
  let decoder ← Scoped.under "raw" fun raw => return enum.decoderDeclaration raw
  let encoder ← Scoped.under "item" fun item => return enum.encoderDeclaration item
  return linesText (enum.typeDeclaration ++ ["", ""] ++ decoder ++ ["", ""] ++ encoder)

/-- The declarations for an enum as text in a scope. -/
def text (enum : EnumNaming) (scope : Scope) : String :=
  enum.written.output scope

end EnumNaming

end ElmBindings
