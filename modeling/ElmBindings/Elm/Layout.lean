set_option autoImplicit false

/-! # Layout of Elm text

The few ways in which pieces of Elm text are put together. -/

namespace ElmBindings.Layout

/-- A line end and the indentation of the next line. -/
def newline (indent : Nat) : String :=
  String.ofList ('\n' :: List.replicate indent ' ')

/-- A text in parentheses if `needed`. -/
def parenthesized (needed : Bool) (text : String) : String :=
  if needed then "(" ++ text ++ ")" else text

/-- A record whose fields are already written. -/
def braced : List String → String
  | [] => "\x7b\x7d"
  | fields => "\x7b " ++ ", ".intercalate fields ++ " \x7d"

/-- Items of which the first one starts with `first` and every other one with `next`. -/
def listed (first next : String) : List String → List String
  | [] => []
  | item :: items => (first ++ item) :: items.map (next ++ ·)

/-- Lines as text, each with its line end. -/
def linesText (lines : List String) : String :=
  String.join (lines.map (· ++ "\n"))

end ElmBindings.Layout
