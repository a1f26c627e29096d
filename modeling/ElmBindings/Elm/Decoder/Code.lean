import ElmBindings.Elm.Decoder.Basic
import ElmBindings.Elm.Layout
import ElmBindings.Elm.Scope

set_option autoImplicit false

/-! # Decoders as Elm text

A decoder is written in two steps. The first one chooses the local names, which gives a tree that
shows every name that the text binds; the second one lays the tree out. -/

namespace ElmBindings

/-! ## Choosing names -/

/-- The function that `map` applies. A lambda has one parameter for each field. -/
inductive Builder
  | label (name : String)
  | record (fields : List (String × String))
  | variant (tag : String) (fields : List (String × String))
  deriving DecidableEq

/-- A decoder expression with its local names. -/
inductive DecoderCode
  | name (text : String)
  | field (key : String) (value : DecoderCode)
  | maybe (inner : DecoderCode)
  | list (item : DecoderCode)
  | map (build : Builder) (values : List DecoderCode)
  | dispatch (subject : String) (cases : List (String × DecoderCode))
  | succeed (tag : Option String)

/-- Each field with a fresh parameter. The parameters are in sight only in the lambda that they belong to,
which has no names of its own in its body. -/
def Scoped.parameters (fields : List String) : Scoped (List (String × String)) :=
  underAll fields fun names => return fields.zip names

/-- The function for a constructor. -/
def Constructor.builder : Constructor → Scoped Builder
  | record (some label) _ => return .label label
  | record none fields => return .record (← Scoped.parameters fields)
  | variant tag fields => return .variant tag (← Scoped.parameters fields)

/-- The tag of a variant. -/
def Constructor.tag? : Constructor → Option String
  | record _ _ => none
  | variant tag _ => some tag

namespace Decoder

mutual

/-- The expression for a decoder. The subject of a dispatch is in sight in all of its cases. -/
def code : Decoder → Scoped DecoderCode
  | primitive leaf => return .name leaf.text
  | field key value => return .field key (← value.code)
  | maybe inner => return .maybe (← inner.code)
  | list item => return .list (← item.code)
  | map build values => return .map (← build.builder) (← codes values)
  | dispatch cases =>
    Scoped.under "typename" fun subject => return .dispatch subject (← caseCodes cases)
  | succeed build => return .succeed build.tag?

/-- The expressions for the decoders of a record. -/
def codes : List Decoder → Scoped (List DecoderCode)
  | [] => return []
  | value :: values => return (← value.code) :: (← codes values)

/-- The expressions for the cases of a dispatch. -/
def caseCodes : List (String × Decoder) → Scoped (List (String × DecoderCode))
  | [] => return []
  | (type, value) :: cases => return (type, ← value.code) :: (← caseCodes cases)

end

end Decoder

/-! ## Layout -/

open Layout

/-- A record expression that gives each field the value of its parameter. -/
def recordText (fields : List (String × String)) : String :=
  "\x7b " ++ ", ".intercalate (fields.map fun (field, parameter) => field ++ " = " ++ parameter)
    ++ " \x7d"

/-- A lambda over the parameters of the fields. -/
def lambdaText (fields : List (String × String)) (body : String) : String :=
  "(\\" ++ " ".intercalate (fields.map (·.2)) ++ " -> " ++ body ++ ")"

/-- The function that `map` applies as text. -/
def Builder.text : Builder → String
  | label name => name
  | record fields => lambdaText fields (recordText fields)
  | variant tag fields => lambdaText fields (tag ++ " " ++ recordText fields)

/-- What the decoder of a union says about a type that no case is for. -/
def unexpectedType : String := "Unexpected union type"

/-- A case of a dispatch with an empty line after it. -/
def caseText (indent : Nat) (type value : String) : String :=
  newline (indent + 16) ++ "\"" ++ type ++ "\" ->" ++ newline (indent + 20) ++ value ++ "\n"

/-- A dispatch whose cases are already written. -/
def dispatchText (indent : Nat) (subject cases : String) : String :=
  "field \"__typename\" string"
    ++ newline (indent + 4) ++ "|> andThen"
    ++ newline (indent + 8) ++ "(\\" ++ subject ++ " ->"
    ++ newline (indent + 12) ++ "case " ++ subject ++ " of"
    ++ cases
    ++ newline (indent + 16) ++ "_ ->"
    ++ newline (indent + 20) ++ "fail \"" ++ unexpectedType ++ "\""
    ++ newline (indent + 8) ++ ")"

namespace DecoderCode

/-- Whether an expression is in parentheses when it is an argument. -/
def isCompound : DecoderCode → Bool
  | name _ => false
  | _ => true

mutual

/-- An expression as text. The first line has no indentation of its own, and every other line has more
than `indent`. -/
def text (indent : Nat) : DecoderCode → String
  | name text => text
  | field key value =>
    "field \"" ++ key ++ "\" " ++ parenthesized value.isCompound (value.text indent)
  | maybe inner => "maybe " ++ parenthesized inner.isCompound (inner.text indent)
  | list item => "list " ++ parenthesized item.isCompound (item.text indent)
  | map build values =>
    let step := newline (indent + 4)
    "map " ++ build.text
      ++ String.join (listed step (step ++ "|> apply ") (argumentTexts (indent + 8) values))
  | dispatch subject cases => dispatchText indent subject (caseTexts indent cases)
  | succeed none => "succeed \x7b\x7d"
  | succeed (some tag) => "succeed (" ++ tag ++ " \x7b\x7d)"

/-- Expressions as arguments. -/
def argumentTexts (indent : Nat) : List DecoderCode → List String
  | [] => []
  | value :: values =>
    parenthesized value.isCompound (value.text indent) :: argumentTexts indent values

/-- The cases of a dispatch. -/
def caseTexts (indent : Nat) : List (String × DecoderCode) → String
  | [] => ""
  | (type, value) :: cases =>
    caseText indent type (value.text (indent + 20)) ++ caseTexts indent cases

end

end DecoderCode

/-- Writes a decoder as Elm text. -/
def Decoder.written (decoder : Decoder) (indent : Nat) : Scoped String :=
  return (← decoder.code).text indent

/-- A decoder as Elm text in a scope. -/
def Decoder.text (decoder : Decoder) (scope : Scope) (indent : Nat) : String :=
  (decoder.written indent).output scope

end ElmBindings
