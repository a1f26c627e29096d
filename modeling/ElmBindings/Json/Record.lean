import ElmBindings.Json.Basic

set_option autoImplicit false

/-! # Records in JSON

A record is given as an object with its fields as keys, or as an array of its fields in order. Other
keys of the object are ignored, but a key of the record may not stand there twice. An array may leave
out fields at its end that have a default; it has no more items than there are fields. -/

namespace ElmBindings.Json

/-- The values given for the fields of a record, in order, and whether they came as an array. -/
structure Slots where
  positional : Bool
  values : List (Option Json)

/-- The values that a JSON value gives for the fields of a record. -/
def slots? (fields : List String) : Json → Option Slots
  | .object entries =>
    if fields.all fun field => (entries.filter (·.1 == field)).length ≤ 1 then
      some ⟨false, fields.map fun field => (entries.find? (·.1 == field)).map (·.2)⟩
    else none
  | .array items =>
    if items.length ≤ fields.length then
      some ⟨true, items.map some ++ List.replicate (fields.length - items.length) none⟩
    else none
  | _ => none

namespace Slots

variable {α : Type}

/-- The value given for the field at a place. -/
def at? (slots : Slots) (i : Nat) : Option Json := (slots.values[i]?).join

/-- A field that has to be given. -/
def required (slots : Slots) (i : Nat) (read : Json → Option α) : Option α :=
  (slots.at? i).bind read

/-- A field that may be null; an object may also leave it out. -/
def optional (slots : Slots) (i : Nat) (read : Json → Option α) : Option (Option α) :=
  match slots.at? i with
  | none => if slots.positional then none else some none
  | some .null => some none
  | some value => (read value).map some

/-- A field that may be left out, but is not null. -/
def defaulted (slots : Slots) (i : Nat) (default : α) (read : Json → Option α) : Option α :=
  match slots.at? i with
  | none => some default
  | some value => read value

/-- A field that may be null or left out. -/
def omissible (slots : Slots) (i : Nat) (read : Json → Option α) : Option (Option α) :=
  match slots.at? i with
  | none => some none
  | some .null => some none
  | some value => (read value).map some

end Slots

/-- Reads an array of which every item is read the same way. -/
def listOf? {α : Type} (read : Json → Option α) (value : Json) : Option (List α) :=
  value.array?.bind fun items => items.mapM read

end ElmBindings.Json
