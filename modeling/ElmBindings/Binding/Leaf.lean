import ElmBindings.Elm.Decoder.Basic
import ElmBindings.Elm.Enum
import ElmBindings.Schema.Resolve

set_option autoImplicit false

/-! # Leaves of a selection

How scalars and enums are decoded. -/

namespace ElmBindings

/-! ## Scalars -/

/-- The decoder and the Elm type of a scalar. Identifiers and custom scalars are strings. -/
def scalarLeaf (name : String) : Primitive × ElmType :=
  match BuiltinScalar.ofName? name with
  | some .int => (.int, .int)
  | some .float => (.float, .float)
  | some .boolean => (.bool, .bool)
  | some .string | some .id | none => (.string, .string)

/-! ## Leaves -/

/-- A leaf decoder, the Elm type of its values, and the number of list layers around it. -/
structure Leaf where
  primitive : Primitive
  type : ElmType
  listDepth : Nat

/-- The leaf under the wrappers of a type. -/
def ResolvedType.leaf (type : ResolvedType) : Except GenerateError Leaf :=
  match type.named with
  | .scalar d =>
    let (primitive, elm) := scalarLeaf d.name
    .ok ⟨primitive, elm, type.listDepth⟩
  | .enum d => .ok ⟨.enum d.name (Decoder.enumName d.name), .enum d.name, type.listDepth⟩
  | other => .error (.notALeafType other.name)

end ElmBindings
