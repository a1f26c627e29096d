import ElmBindings.Project.ModuleName

set_option autoImplicit false

/-! # Paths as the system holds them

To the system a path is a sequence of bytes, which need not be UTF-8. A slash and a dot are one byte each,
and that byte is in no other character, so a path is taken apart without reading it as text: it is spelled
with one character for each byte. Only the names that a module is named after have to be text. -/

namespace ElmBindings

/-- A path as the system holds it. -/
structure OsPath where
  bytes : List UInt8
  deriving DecidableEq

namespace OsPath

/-! ## Texts -/

/-- The path that is a text. -/
def ofText (text : String) : OsPath := ⟨text.toList.flatMap String.utf8EncodeChar⟩

/-- The text that a path is. -/
def text? (path : OsPath) : Option String := String.fromUTF8? path.bytes.toByteArray

/-- The path with one character for each byte. -/
def spelling (path : OsPath) : String := String.ofList (path.bytes.map Char.ofUInt8)

/-- The path that is spelled by a text. -/
def ofSpelling (spelling : String) : OsPath := ⟨spelling.toList.map Char.toUInt8⟩

/-! ## Paths in messages -/

/-- Whether a byte goes on with a character. -/
def isTrailing (b : UInt8) : Bool := 0x80 ≤ b && b ≤ 0xbf

/-- Whether a byte can be the second one of a character of three or four bytes. -/
def isSecond (first second : UInt8) : Bool :=
  if first = 0xe0 then 0xa0 ≤ second && second ≤ 0xbf
  else if first = 0xed then 0x80 ≤ second && second ≤ 0x9f
  else if first = 0xf0 then 0x90 ≤ second && second ≤ 0xbf
  else if first = 0xf4 then 0x80 ≤ second && second ≤ 0x8f
  else 0xe1 ≤ first && first ≤ 0xf3 && isTrailing second

/-- How many bytes at the start could be those of a character that is then broken off. -/
def brokenLength : List UInt8 → Nat
  | first :: second :: third :: _ =>
    if !isSecond first second then 1
    else if 0xf0 ≤ first && isTrailing third then 3
    else 2
  | [first, second] => if isSecond first second then 2 else 1
  | _ => 1

/-- Bytes as text, with a replacement character wherever they are none. -/
def shownChars : List UInt8 → List Char
  | [] => []
  | b :: bs =>
    match (b :: bs).toByteArray.utf8DecodeChar? 0 with
    | some c => c :: shownChars (bs.drop (c.utf8Size - 1))
    | none => '\uFFFD' :: shownChars (bs.drop (brokenLength (b :: bs) - 1))
termination_by bs => bs.length
decreasing_by all_goals simp; try omega

/-- The path as it is shown in a message. -/
def shown (path : OsPath) : String := String.ofList (shownChars path.bytes)

/-! ## Modules -/

/-- The names of a path without the extension of its file name, if all of them are text. -/
def stemNames? (path : OsPath) : Option (List String) :=
  (Path.names (Path.withExtension path.spelling "")).mapM fun name => (ofSpelling name).text?

/-- The name of the module for a query file. -/
def moduleName (path : OsPath) : Except ModuleNameError String :=
  match path.stemNames? with
  | some names => moduleNameOf path.shown names
  | none => .error (.notUnicode path.shown)

end OsPath

end ElmBindings
