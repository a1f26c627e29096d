import ElmBindings.Elm.Layout
import ElmBindings.Naming

set_option autoImplicit false

/-! # Elm types

The types of decoded values and of operation variables, with their text and with the declarations of
custom types and record aliases. Two declarations of one union are compared, so equality is
decidable. -/

namespace ElmBindings

/-- A constructor of a custom type that tags a record. -/
structure Variant (τ : Type) where
  tag : String
  fields : List (String × τ)

/-- An Elm type. An enum is known by its GraphQL name; a union carries the declaration that its
selection asks for. -/
inductive ElmType
  | int
  | float
  | bool
  | string
  | enum (name : String)
  | union (name : String) (variants : List (Variant ElmType))
  | maybe (inner : ElmType)
  | list (item : ElmType)
  | record (fields : List (String × ElmType))

namespace ElmType

open Layout

/-! ## Equality -/

mutual

/-- Whether two types are the same. -/
def same : ElmType → ElmType → Bool
  | int, int => true
  | float, float => true
  | bool, bool => true
  | string, string => true
  | enum n, enum m => n == m
  | union n vs, union m ws => n == m && sameVariants vs ws
  | maybe s, maybe t => s.same t
  | list s, list t => s.same t
  | record fs, record gs => sameFields fs gs
  | _, _ => false

/-- Whether two records have the same fields in the same order. -/
def sameFields : List (String × ElmType) → List (String × ElmType) → Bool
  | [], [] => true
  | (n, s) :: fs, (m, t) :: gs => n == m && s.same t && sameFields fs gs
  | _, _ => false

/-- Whether two unions have the same variants in the same order. -/
def sameVariants : List (Variant ElmType) → List (Variant ElmType) → Bool
  | [], [] => true
  | ⟨n, fs⟩ :: vs, ⟨m, gs⟩ :: ws => n == m && sameFields fs gs && sameVariants vs ws
  | _, _ => false

end

mutual

theorem same_iff : (s t : ElmType) → (s.same t = true ↔ s = t)
  | int, t => by cases t <;> simp [same]
  | float, t => by cases t <;> simp [same]
  | bool, t => by cases t <;> simp [same]
  | string, t => by cases t <;> simp [same]
  | enum _, t => by cases t <;> simp [same]
  | union _ vs, t => by
    cases t with
    | union _ ws => simp [same, sameVariants_iff vs ws]
    | _ => simp [same]
  | maybe s, t => by
    cases t with
    | maybe t => simp [same, same_iff s t]
    | _ => simp [same]
  | list s, t => by
    cases t with
    | list t => simp [same, same_iff s t]
    | _ => simp [same]
  | record fs, t => by
    cases t with
    | record gs => simp [same, sameFields_iff fs gs]
    | _ => simp [same]

theorem sameFields_iff : (fs gs : List (String × ElmType)) → (sameFields fs gs = true ↔ fs = gs)
  | [], gs => by cases gs <;> simp [sameFields]
  | (_, s) :: fs, [] => by simp [sameFields]
  | (_, s) :: fs, (_, t) :: gs => by
    simp [sameFields, same_iff s t, sameFields_iff fs gs, and_assoc]

theorem sameVariants_iff :
    (vs ws : List (Variant ElmType)) → (sameVariants vs ws = true ↔ vs = ws)
  | [], ws => by cases ws <;> simp [sameVariants]
  | ⟨_, fs⟩ :: vs, [] => by simp [sameVariants]
  | ⟨_, fs⟩ :: vs, ⟨_, gs⟩ :: ws => by
    simp [sameVariants, sameFields_iff fs gs, sameVariants_iff vs ws, and_assoc]

end

instance : DecidableEq ElmType := fun s t => decidable_of_iff _ (same_iff s t)

/-! ## Wrapping and parts -/

/-- The type under `depth` list layers. -/
def lists (type : ElmType) : Nat → ElmType
  | 0 => type
  | depth + 1 => list (type.lists depth)

mutual

/-- A type and every type inside it, outer before inner and left before right. The fields of a union's
variants count as parts. -/
def parts : ElmType → List ElmType
  | int => [int]
  | float => [float]
  | bool => [bool]
  | string => [string]
  | enum name => [enum name]
  | union name variants => union name variants :: variantParts variants
  | maybe inner => maybe inner :: inner.parts
  | list item => list item :: item.parts
  | record fields => record fields :: fieldParts fields

/-- The parts of the fields of a record. -/
def fieldParts : List (String × ElmType) → List ElmType
  | [] => []
  | (_, type) :: fields => type.parts ++ fieldParts fields

/-- The parts of the variants of a union. -/
def variantParts : List (Variant ElmType) → List ElmType
  | [] => []
  | ⟨_, fields⟩ :: variants => fieldParts fields ++ variantParts variants

end

/-! ## Text -/

/-- The Elm name of an enum's custom type. -/
def enumName (name : String) : String :=
  Naming.capitalize name

/-- Whether a type needs parentheses as an argument. -/
def isApplied : ElmType → Bool
  | maybe _ => true
  | list _ => true
  | _ => false

mutual

/-- A type as Elm text. -/
def text : ElmType → String
  | int => "Int"
  | float => "Float"
  | bool => "Bool"
  | string => "String"
  | enum name => enumName name
  | union name _ => name
  | maybe inner => "Maybe " ++ parenthesized inner.isApplied inner.text
  | list item => "List " ++ parenthesized item.isApplied item.text
  | record fields => braced (fieldTexts fields)

/-- The fields of a record type as Elm text, each a name and a type. -/
def fieldTexts : List (String × ElmType) → List String
  | [] => []
  | (name, type) :: fields => (name ++ " : " ++ type.text) :: fieldTexts fields

end

/-! ## Declarations -/

/-- The declaration of the custom type of a union. -/
def unionDeclaration (name : String) (variants : List (Variant ElmType)) : String :=
  linesText (("type " ++ name) ::
    listed "    = " "    | "
      (variants.map fun v => v.tag ++ " " ++ (record v.fields).text))

/-- The declaration of an alias. The fields of a record stand on lines of their own. -/
def aliasDeclaration (name : String) : ElmType → String
  | record (field :: fields) =>
    linesText (("type alias " ++ name ++ " =") ::
      (listed "    \x7b " "    , " (fieldTexts (field :: fields)) ++ ["    \x7d"]))
  | type => linesText ["type alias " ++ name ++ " =", "    " ++ type.text]

end ElmType

end ElmBindings
