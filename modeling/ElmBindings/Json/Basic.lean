import ElmBindings.Binary64.Basic

set_option autoImplicit false

/-! # JSON values

A number is either an integer of at most 64 bits, signed or not, or a double. -/

namespace ElmBindings

/-- A JSON value. -/
inductive Json
  | null
  | bool (value : Bool)
  | int (value : Int)
  | float (value : Binary64)
  | string (value : String)
  | array (items : List Json)
  | object (entries : List (String × Json))

namespace Json

/-! ## Parts -/

/-- The value under a key of an object. Of equal keys the last one counts. -/
def get? (key : String) : Json → Option Json
  | object entries => (entries.reverse.find? (·.1 == key)).map (·.2)
  | _ => none

/-- The text of a string. -/
def string? : Json → Option String
  | string value => some value
  | _ => none

/-- The value of a truth value. -/
def bool? : Json → Option Bool
  | bool value => some value
  | _ => none

/-- The items of an array. -/
def array? : Json → Option (List Json)
  | array items => some items
  | _ => none

/-! ## Nesting -/

mutual

/-- How deeply arrays and objects are nested. -/
def depth : Json → Nat
  | array items => itemsDepth items + 1
  | object entries => entriesDepth entries + 1
  | _ => 0

/-- The greatest depth of the items of an array. -/
def itemsDepth : List Json → Nat
  | [] => 0
  | item :: items => max item.depth (itemsDepth items)

/-- The greatest depth of the values of an object. -/
def entriesDepth : List (String × Json) → Nat
  | [] => 0
  | (_, value) :: entries => max value.depth (entriesDepth entries)

end

/-! ## Finite numbers -/

mutual

/-- Whether no number of the value is beyond the range of doubles. -/
def isFinite : Json → Bool
  | float value => value.isFinite
  | array items => areFinite items
  | object entries => entriesFinite entries
  | _ => true

/-- Whether all items are finite. -/
def areFinite : List Json → Bool
  | [] => true
  | item :: items => item.isFinite && areFinite items

/-- Whether the values of all entries are finite. -/
def entriesFinite : List (String × Json) → Bool
  | [] => true
  | (_, value) :: entries => value.isFinite && entriesFinite entries

end

end Json

end ElmBindings
