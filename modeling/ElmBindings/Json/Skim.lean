import ElmBindings.Json.Parser

set_option autoImplicit false

/-! # Skimming JSON

`Json.skim?` reads an object for some of its keys. A value under any other key is passed over: it has
to have the form of a JSON value, but since nothing is made of it, its strings may hold halves of
surrogate pairs, which no text holds. -/

namespace ElmBindings.Json

/-! ## Passing over values -/

/-- The text after the closing quote of a string. -/
def pastString? : List Char → Option (List Char)
  | [] => none
  | c :: rest =>
    if c = '"' then some rest
    else if c.toNat < 0x20 then none
    else if c = '\\' then
      match rest with
      | 'u' :: a :: b :: c :: d :: rest => do
        let _ ← hexQuad? a b c d
        pastString? rest
      | e :: rest => do
        let _ ← simpleEscape? e
        pastString? rest
      | [] => none
    else pastString? rest

mutual

/-- The text after a value, which is reached in so many steps at most. -/
def pastValue? : Nat → List Char → Option (List Char)
  | 0, _ => none
  | budget + 1, cs =>
    match skipBlanks cs with
    | '"' :: rest => pastString? rest
    | '[' :: rest =>
      match skipBlanks rest with
      | ']' :: rest => some rest
      | rest => pastItems? budget rest
    | '{' :: rest =>
      match skipBlanks rest with
      | '}' :: rest => some rest
      | rest => pastEntries? budget rest
    | rest => (scalar? rest).map (·.2)

/-- The text after the closing bracket of an array. -/
def pastItems? : Nat → List Char → Option (List Char)
  | 0, _ => none
  | budget + 1, cs => do
    let rest ← pastValue? budget cs
    match skipBlanks rest with
    | ',' :: rest => pastItems? budget rest
    | ']' :: rest => some rest
    | _ => none

/-- The text after the closing brace of an object. -/
def pastEntries? : Nat → List Char → Option (List Char)
  | 0, _ => none
  | budget + 1, cs =>
    match skipBlanks cs with
    | '"' :: rest => do
      let rest ← pastString? rest
      match skipBlanks rest with
      | ':' :: rest =>
        let rest ← pastValue? budget rest
        match skipBlanks rest with
        | ',' :: rest => pastEntries? budget rest
        | '}' :: rest => some rest
        | _ => none
      | _ => none
    | _ => none

end

/-! ## Reading some keys -/

/-- Reads the value under a key if the key is one of those asked for, and passes over it if not. -/
def entry? (keys : List String) (budget : Nat) (key : String) (cs : List Char) :
    Option (List (String × Json) × List Char) :=
  if keys.contains key then (value? budget cs).map fun (value, rest) => ([(key, value)], rest)
  else (pastValue? budget cs).map fun rest => ([], rest)

/-- Reads the entries of an object under the given keys, up to the closing brace. -/
def entriesUnder? (keys : List String) : Nat → List Char → Option (List (String × Json) × List Char)
  | 0, _ => none
  | budget + 1, cs =>
    match skipBlanks cs with
    | '"' :: rest => do
      let (key, rest) ← stringBody? rest
      match skipBlanks rest with
      | ':' :: rest =>
        let (found, rest) ← entry? keys budget (String.ofList key) rest
        match skipBlanks rest with
        | ',' :: rest =>
          let (entries, rest) ← entriesUnder? keys budget rest
          some (found ++ entries, rest)
        | '}' :: rest => some (found, rest)
        | _ => none
      | _ => none
    | _ => none

/-- Reads a text as one JSON value. Of an object only the entries under the given keys are kept. -/
def skim? (keys : List String) (text : String) : Option Json :=
  let cs := text.toList
  match skipBlanks cs with
  | '{' :: rest =>
    match skipBlanks rest with
    | '}' :: rest => whole? (.object [], rest)
    | rest => do
      let (entries, rest) ← entriesUnder? keys (cs.length + 1) rest
      whole? (.object entries, rest)
  | _ => parse? text

end ElmBindings.Json
