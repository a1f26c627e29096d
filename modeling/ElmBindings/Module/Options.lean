import ElmBindings.Error
import ElmBindings.Text.Case

set_option autoImplicit false

/-! # Options of a module

What a generated module is called and how it reaches the server. -/

namespace ElmBindings

/-- How a request is sent: by `get` all of it is in the address, by `post` it is the body. -/
inductive HttpMethod
  | get
  | post
  deriving DecidableEq, Inhabited

namespace HttpMethod

/-- The name of a method. -/
def name : HttpMethod → String
  | get => "GET"
  | post => "POST"

/-- The method of a name, in letters of either case. -/
def parse (text : String) : Except GenerateError HttpMethod :=
  if Text.sameIgnoringAsciiCase text "GET" then .ok get
  else if Text.sameIgnoringAsciiCase text "POST" then .ok post
  else .error (.unknownMethod text)

end HttpMethod

/-- The options of one module. -/
structure ModuleOptions where
  /-- The name of the module, with dots. -/
  name : String
  /-- The address of the server. -/
  endpoint : String := "/graphql"
  method : HttpMethod := .get
  deriving DecidableEq

end ElmBindings
