import ElmBindings.Elm.Encoder.Code
import ElmBindings.Module.Names
import ElmBindings.Module.Options

set_option autoImplicit false

/-! # Request functions

The function that sends an operation to the server and decodes the answer. -/

namespace ElmBindings

open Layout

/-- The parts of a request: the key of each and an expression for its value. -/
def requestParts (binding : Binding) (method : HttpMethod) (inputs : Option String) :
    List (String × String) :=
  let written (expression : String) : String :=
    match method with
    | .get => expression
    | .post => "Json.Encode.string " ++ expression
  let encoded (parameter : String) : String :=
    let call := binding.variablesEncoder ++ " " ++ parameter
    match method with
    | .get => "(Json.Encode.encode 0 (" ++ call ++ "))"
    | .post => call
  [("query", written binding.documentName)]
    ++ (if binding.name = anonymousName then []
      else [("operationName", written (Naming.stringLiteral binding.name))])
    ++ (inputs.map fun parameter => ("variables", encoded parameter)).toList

/-- The lines that say where a request goes and what it carries. -/
def requestLines (method : HttpMethod) (parts : List (String × String)) : List String :=
  match method with
  | .get =>
    ["        , url =",
     "            " ++ endpointName,
     "                ++ Url.Builder.toQuery"]
    ++ listed "                    [ " "                    , "
      (parts.map fun (key, value) => "Url.Builder.string \"" ++ key ++ "\" " ++ value)
    ++ ["                    ]",
        "        , body = Http.emptyBody"]
  | .post =>
    ["        , url = " ++ endpointName,
     "        , body =",
     "            Http.jsonBody",
     "                (Json.Encode.object"]
    ++ listed "                    [ " "                    , "
      (parts.map fun (key, value) => "( \"" ++ key ++ "\", " ++ value ++ " )")
    ++ ["                    ]",
        "                )"]

/-- The request function of an operation with its parameters chosen. -/
def requestText (binding : Binding) (method : HttpMethod) (inputs : Option String)
    (toMsg : String) : String :=
  let argument := match inputs with
    | some _ => binding.variablesType ++ " -> "
    | none => ""
  let parameters := inputs.toList ++ [toMsg]
  linesText (
    [binding.function ++ " : " ++ argument ++ "(Result Http.Error " ++ binding.typeName
       ++ " -> msg) -> Cmd msg",
     binding.function ++ " " ++ " ".intercalate parameters ++ " =",
     "    Http.request",
     "        \x7b method = \"" ++ method.name ++ "\"",
     "        , headers = []"]
    ++ requestLines method (requestParts binding method inputs)
    ++ ["        , expect = Http.expectJson " ++ toMsg ++ " (field \"data\" "
          ++ binding.decoderName ++ ")",
        "        , timeout = Nothing",
        "        , tracker = Nothing",
        "        \x7d"])

/-- The request function of an operation in a scope. -/
def requestFunction (binding : Binding) (method : HttpMethod) (scope : Scope) : String :=
  if binding.inputs.isEmpty then requestText binding method none (scope.fresh "toMsg")
  else
    let (inputs, inner) := scope.bind "variables"
    requestText binding method (some inputs) (inner.fresh "toMsg")

end ElmBindings
