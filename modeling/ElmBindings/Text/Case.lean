import ElmBindings.Text.CaseTable

set_option autoImplicit false

/-! # Letter case

Full case mapping of characters and texts: one character may become several, and a capital sigma at
the end of a word has a lower-case form of its own. Identifiers of a GraphQL document are ASCII, but
the names of an introspected schema are arbitrary text. -/

namespace ElmBindings.Text

/-! ## Single characters -/

/-- The characters that a mapping assigns: an image of several characters, or the shifted one. -/
def mapped (sequences : List (Nat × List Nat)) (shifts : List Shift) (c : Char) : List Char :=
  match sequences.lookup c.toNat with
  | some image => image.map Char.ofNat
  | none => [Char.ofNat (shifted shifts c.toNat)]

/-- The upper-case form of a character. -/
def upper (c : Char) : List Char :=
  if c.toNat < 0x80 then [c.toUpper] else mapped upperSequences upperShifts c

/-- The lower-case form of a character on its own. -/
def lower (c : Char) : List Char :=
  if c.toNat < 0x80 then [c.toLower] else mapped lowerSequences lowerShifts c

/-- Whether a character is a lower-case one. -/
def isLowercase (c : Char) : Bool :=
  if c.toNat < 0x80 then c.isLower else lowercaseSpans.any (·.contains c.toNat)

/-- Whether a character has case and is not passed over in the search for a neighbouring letter. -/
def isCased (c : Char) : Bool :=
  casedSpans.any (·.contains c.toNat)

/-- Whether the search for a neighbouring cased letter passes over a character. -/
def isCaseIgnorable (c : Char) : Bool :=
  ignorableSpans.any (·.contains c.toNat)

/-! ## Texts -/

/-- Whether the first character that counts is a cased one. -/
def meetsCased (cs : List Char) : Bool :=
  match cs.dropWhile isCaseIgnorable with
  | c :: _ => isCased c
  | [] => false

/-- Lower case of the characters that follow `before`, which is held nearest first. A capital sigma
that ends a word becomes a final sigma. -/
def lowerAfter (before : List Char) : List Char → List Char
  | [] => []
  | c :: rest =>
    (if c = 'Σ' then
      [if meetsCased before && !meetsCased rest then 'ς' else 'σ']
    else lower c) ++ lowerAfter (c :: before) rest

/-- The lower-case form of a whole text. -/
def lowerText (s : String) : String :=
  String.ofList (lowerAfter [] s.toList)

/-- Whether two texts agree once their ASCII letters are put into one case. -/
def sameIgnoringAsciiCase (s t : String) : Bool :=
  s.toList.map Char.toLower == t.toList.map Char.toLower

end ElmBindings.Text
