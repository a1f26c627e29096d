import ElmBindings.Binding.Generate

set_option autoImplicit false

/-! # Names that a module declares

Elm keeps types and values apart, and in each of the two a module may declare a name once. The alias of
a record declares a type and, with its constructor, a value. -/

namespace ElmBindings

/-! ## Names of a binding -/

namespace Binding

/-- The request function of an operation. -/
def function (binding : Binding) : String := Naming.valueName binding.name

/-- The constant that holds the text of an operation. -/
def documentName (binding : Binding) : String := binding.function ++ "Document"

/-- The decoder of an operation or of a fragment. -/
def decoderName (binding : Binding) : String :=
  (if binding.isOperation then binding.function else Naming.lowerFirst binding.name) ++ "Decoder"

/-- The alias for the variables of an operation. -/
def variablesType (binding : Binding) : String := binding.typeName ++ "Variables"

/-- The encoder for the variables of an operation. -/
def variablesEncoder (binding : Binding) : String := "encode" ++ binding.variablesType

end Binding

/-! ## Declarations -/

/-- A name that is declared. -/
inductive Declared
  | type (name : String)
  | value (name : String)
  deriving DecidableEq

/-- The names of a record alias. -/
def aliasNames (name : String) : List Declared := [.type name, .value name]

/-- The names declared for an operation. -/
def operationNames (binding : Binding) : List Declared :=
  [.value binding.function, .value binding.documentName, .value binding.decoderName]
    ++ aliasNames binding.typeName
    ++ if binding.inputs.isEmpty then []
      else aliasNames binding.variablesType ++ [.value binding.variablesEncoder]

/-- The names declared for a fragment. -/
def fragmentNames (binding : Binding) : List Declared :=
  aliasNames binding.typeName ++ [.value binding.decoderName]

/-- The constant that holds the address of the server. -/
def endpointName : String := "endpointUrl"

/-- The helper that feeds one more decoded value to a constructor. -/
def applyName : String := "apply"

/-- The operations among bindings. -/
def operationsOf (bindings : List Binding) : List Binding := bindings.filter Binding.isOperation

/-- The fragments among bindings. -/
def fragmentsOf (bindings : List Binding) : List Binding :=
  bindings.filter fun binding => !binding.isOperation

/-- The names declared for bindings, operations first. -/
def bindingNames (bindings : List Binding) : List Declared :=
  .value endpointName
    :: (operationsOf bindings).flatMap operationNames
    ++ (fragmentsOf bindings).flatMap fragmentNames

/-- A union with the variants that a module declares for it. -/
abbrev UnionDeclaration := String × List (Variant ElmType)

/-- The names declared for a union. -/
def unionNames (union : UnionDeclaration) : List Declared :=
  .type union.1 :: union.2.map fun v => .value v.tag

/-- The names declared for an enum. -/
def enumNames (enum : EnumNaming) : List Declared :=
  [.type enum.typeName, .value enum.decoder, .value enum.encoder]
    ++ enum.constructors.map fun (_, constructor) => .value constructor

/-! ## Custom types -/

/-- The types of a binding and of its variables, with all their parts. -/
def bindingParts (binding : Binding) : List ElmType :=
  binding.type.parts ++ binding.inputs.flatMap fun v => v.input.type.parts

/-- The name of an enum. -/
def ElmType.enum? : ElmType → Option String
  | .enum name => some name
  | _ => none

/-- The enums that bindings use, in order. -/
def enumsUsed (bindings : List Binding) : List String :=
  (bindings.flatMap bindingParts).filterMap ElmType.enum?

/-- The unions with one more, unless it is there already. One union cannot have two declarations. -/
def addUnion (unions : List UnionDeclaration) (part : ElmType) :
    Except GenerateError (List UnionDeclaration) :=
  match part with
  | .union name variants =>
    match unions.lookup name with
    | none => .ok (unions ++ [(name, variants)])
    | some known =>
      if ElmType.sameVariants known variants then .ok unions
      else .error (.duplicateDeclaration name)
  | _ => .ok unions

/-- The unions that bindings use, in the order of their first use. -/
def unionsUsed (bindings : List Binding) : Except GenerateError (List UnionDeclaration) :=
  (bindings.flatMap bindingParts).foldlM addUnion []

/-! ## Checking -/

/-- The values that `Json.Decode` brings into every module. -/
def decodeValues : List String :=
  ["andThen", "array", "at", "bool", "decodeString", "decodeValue", "dict", "errorToString", "fail",
   "field", "float", "index", "int", "keyValuePairs", "lazy", "list", "map", "map2", "map3", "map4",
   "map5", "map6", "map7", "map8", "maybe", "null", "nullable", "oneOf", "oneOrMore", "string",
   "succeed", "value"]

/-- The names declared so far. -/
structure Names where
  types : List String := []
  values : List String := decodeValues

namespace Names

/-- Declares a name that is not declared yet. -/
def declare (names : Names) : Declared → Except GenerateError Names
  | .type name =>
    if name ∈ names.types then .error (.duplicateDeclaration name)
    else .ok { names with types := name :: names.types }
  | .value name =>
    if name ∈ names.values then .error (.duplicateDeclaration name)
    else .ok { names with values := name :: names.values }

/-- Declares one name after the other. -/
def declareAll (names : Names) (declared : List Declared) : Except GenerateError Names :=
  declared.foldlM declare names

end Names

end ElmBindings
