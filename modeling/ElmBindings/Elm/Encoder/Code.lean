import ElmBindings.Elm.Encoder.Basic
import ElmBindings.Elm.Layout
import ElmBindings.Elm.Scope

set_option autoImplicit false

/-! # Encoders as Elm text

As for decoders, the local names are chosen first and the text is written after that. -/

namespace ElmBindings

/-! ## Choosing names -/

/-- An encoder expression with its local names. -/
inductive EncoderCode
  | name (text : String)
  | maybe (inner : EncoderCode)
  | list (item : EncoderCode)
  | lambda (parameter : String) (entries : List (ObjectEntry EncoderCode))

namespace Encoder

mutual

/-- The expression for an encoder. The parameter of a lambda is in sight in all of its entries. -/
def code : Encoder → Scoped EncoderCode
  | int => return .name "Json.Encode.int"
  | float => return .name "Json.Encode.float"
  | bool => return .name "Json.Encode.bool"
  | string => return .name "Json.Encode.string"
  | enum name => return .name (enumName name)
  | maybe inner => return .maybe (← inner.code)
  | list item => return .list (← item.code)
  | object entries =>
    Scoped.under "input" fun parameter => return .lambda parameter (← entryCodes entries)

/-- The expressions for the entries of an object. -/
def entryCodes : List (ObjectEntry Encoder) → Scoped (List (ObjectEntry EncoderCode))
  | [] => return []
  | ⟨key, field, value⟩ :: entries => return ⟨key, field, ← value.code⟩ :: (← entryCodes entries)

end

end Encoder

/-! ## Layout -/

/-- The call that builds a JSON object from written entries. -/
def objectCall : List String → String
  | [] => "Json.Encode.object []"
  | entries => "Json.Encode.object [ " ++ ", ".intercalate entries ++ " ]"

namespace EncoderCode

mutual

/-- An expression as text. -/
def text : EncoderCode → String
  | name text => text
  | maybe inner => "(Maybe.map " ++ inner.text ++ " >> Maybe.withDefault Json.Encode.null)"
  | list item => "(Json.Encode.list " ++ item.text ++ ")"
  | lambda parameter entries =>
    "(\\" ++ parameter ++ " -> " ++ objectCall (entryTexts parameter entries) ++ ")"

/-- The entries of an object that is made from a record. -/
def entryTexts (record : String) : List (ObjectEntry EncoderCode) → List String
  | [] => []
  | ⟨key, field, value⟩ :: entries =>
    ("( \"" ++ key ++ "\", " ++ value.text ++ " " ++ record ++ "." ++ field ++ " )")
      :: entryTexts record entries

end

end EncoderCode

/-- Writes an encoder as Elm text. -/
def Encoder.written (encoder : Encoder) : Scoped String :=
  return (← encoder.code).text

/-- An encoder as Elm text in a scope. -/
def Encoder.text (encoder : Encoder) (scope : Scope) : String :=
  encoder.written.output scope

/-- Writes the object made from the fields of a record. -/
def writtenObject (entries : List (ObjectEntry Encoder)) (record : String) : Scoped String :=
  return objectCall (EncoderCode.entryTexts record (← Encoder.entryCodes entries))

/-- The object made from the fields of a record, as Elm text in a scope. -/
def objectText (entries : List (ObjectEntry Encoder)) (record : String) (scope : Scope) : String :=
  (writtenObject entries record).output scope

end ElmBindings
