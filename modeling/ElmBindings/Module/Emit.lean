import ElmBindings.Document.Parser
import ElmBindings.Elm.Decoder.Code
import ElmBindings.Module.Request

set_option autoImplicit false

/-! # Modules

The text of a module: the bindings of one query document with the custom types that they use. -/

namespace ElmBindings

open Layout

/-! ## Declarations as text -/

/-- A constant with its type and its value. -/
def constantText (name type value : String) : String :=
  linesText [name ++ " : " ++ type, name ++ " =", "    " ++ value]

/-- The decoder of a binding in a scope. -/
def decoderText (binding : Binding) (scope : Scope) : String :=
  constantText binding.decoderName ("Decoder " ++ binding.typeName) (binding.decoder.text scope 4)

/-- The variables of an operation as the entries of an object. -/
def variableEntries (binding : Binding) : List (ObjectEntry Encoder) :=
  binding.inputs.map fun v => ⟨v.name, v.field, v.input.encoder⟩

/-- The type of the variables of an operation. -/
def variablesRecord (binding : Binding) : ElmType :=
  .record (binding.inputs.map fun v => (v.field, v.input.type))

/-- The encoder for the variables of an operation in a scope. -/
def variablesEncoderText (binding : Binding) (scope : Scope) : String :=
  let (inputs, inner) := scope.bind "variables"
  linesText
    [binding.variablesEncoder ++ " : " ++ binding.variablesType ++ " -> Json.Encode.Value",
     binding.variablesEncoder ++ " " ++ inputs ++ " =",
     "    " ++ objectText (variableEntries binding) inputs inner]

/-- The declarations for an operation. -/
def operationBlocks (binding : Binding) (method : HttpMethod) (scope : Scope) : List String :=
  [constantText binding.documentName "String" (Naming.stringLiteral binding.document)]
    ++ (if binding.inputs.isEmpty then []
      else
        [ElmType.aliasDeclaration binding.variablesType (variablesRecord binding),
         variablesEncoderText binding scope])
    ++ [requestFunction binding method scope,
        ElmType.aliasDeclaration binding.typeName binding.type,
        decoderText binding scope]

/-- The declarations for a fragment. -/
def fragmentBlocks (binding : Binding) (scope : Scope) : List String :=
  [ElmType.aliasDeclaration binding.typeName binding.type, decoderText binding scope]

/-- The declaration of the helper that feeds one more decoded value to a constructor. -/
def applyText : String :=
  constantText applyName "Decoder a -> Decoder (a -> b) -> Decoder b" "map2 (|>)"

/-- The first lines of a module. -/
def headerText (name : String) : String :=
  linesText
    ["module " ++ name ++ " exposing (..)", "", "import Http", "import Json.Decode exposing (..)",
     "import Json.Encode", "import Url.Builder"]

/-! ## The module -/

/-- The names and custom types of a module that has no clashes. -/
structure ModulePlan where
  unions : List UnionDeclaration
  enums : EnumIndex
  /-- Every top-level value, which local names have to avoid. -/
  values : List String

namespace ModulePlan

/-- The plan of a module with the given bindings. -/
def ofBindings (schema : Schema) (bindings : List Binding) : Except GenerateError ModulePlan := do
  let names : Names := {}
  let names ← names.declareAll (bindingNames bindings)
  let unions ← unionsUsed bindings
  let names ← names.declareAll (unions.flatMap unionNames)
  let enums ← EnumIndex.ofNames schema (enumsUsed bindings)
  let names ← names.declareAll (enums.enums.flatMap enumNames ++ [.value applyName])
  .ok { unions, enums, values := names.values }

/-- The blocks of a module, in order. -/
def blocks (plan : ModulePlan) (options : ModuleOptions) (bindings : List Binding) : List String :=
  let scope : Scope := { reserved := plan.values }
  [constantText endpointName "String" (Naming.stringLiteral options.endpoint)]
    ++ (operationsOf bindings).flatMap (operationBlocks · options.method scope)
    ++ (fragmentsOf bindings).flatMap (fragmentBlocks · scope)
    ++ plan.unions.map (fun (name, variants) => ElmType.unionDeclaration name variants)
    ++ plan.enums.enums.map (·.text scope)
    ++ [applyText]

/-- The text of a module. -/
def text (plan : ModulePlan) (options : ModuleOptions) (bindings : List Binding) : String :=
  headerText options.name ++ "\n\n" ++ "\n\n".intercalate (plan.blocks options bindings)

end ModulePlan

/-- The module with the given bindings. -/
def emitModule (schema : Schema) (options : ModuleOptions) (bindings : List Binding) :
    Except GenerateError String := do
  let plan ← ModulePlan.ofBindings schema bindings
  .ok (plan.text options bindings)

/-- The module for the text of a query document. -/
def generateModule (schema : Schema) (options : ModuleOptions) (source : String) :
    Except GenerateError String := do
  let document ← (Document.parse source).mapError .document
  let bindings ← Binding.ofDocument schema document
  emitModule schema options bindings

end ElmBindings
