import ElmBindings.GraphQL.Token
import ElmBindings.Text.Blank
import ElmBindings.Text.Split

set_option autoImplicit false

/-! # Reading GraphQL tokens

`lexemes?` divides a text into tokens, or refuses it. Each token reader is given the text after the
first character of the token and says how many of its characters the token takes. -/

namespace ElmBindings.GraphQL

open Text

/-! ## Numbers -/

/-- Whether a character can be part of a name. -/
def isNameChar (c : Char) : Bool := c == '_' || c.isAlphanum

/-- Whether a character can start a name. -/
def isNameStart (c : Char) : Bool := c == '_' || c.isAlpha

/-- Whether a number ends before a character. -/
def endsNumber (c : Char) : Bool :=
  c ∈ [' ', '\n', '\r', '\t', ',', '#'] || (Punctuator.ofChar? c).isSome

/-- The number that decimal digits denote. -/
def digitsValue (digits : List Char) : Nat :=
  digits.foldl (fun n c => 10 * n + (c.toNat - '0'.toNat)) 0

/-- The sign and magnitude of an integer: zero, or digits of which the first is not zero, after an
optional minus sign. -/
def signedDigits? (text : List Char) : Option (Bool × Nat) :=
  let negative := text.head? == some '-'
  let digits := if negative then text.drop 1 else text
  if digits = ['0'] ∨ (digits ≠ [] ∧ digits.head? ≠ some '0' ∧ digits.all Char.isDigit) then
    some (negative, digitsValue digits)
  else none

/-- An integer token: the number has to fit 64 bits. -/
def intToken? (text : List Char) : Option Token := do
  let (negative, magnitude) ← signedDigits? text
  let value : Int := if negative then -(magnitude : Int) else magnitude
  if -(twoPow 63 : Int) ≤ value ∧ value < (twoPow 63 : Int) then some (.int value) else none

/-- An exponent: a sign and digits, or digits of which the first is one to eight. -/
def exponent? (text : List Char) : Option Int :=
  match text with
  | [] => none
  | c :: cs =>
    if !cs.all Char.isDigit then none
    else if c = '+' ∨ c = '-' then
      if cs.isEmpty then none
      else some (if c = '-' then -(digitsValue cs : Int) else digitsValue cs)
    else if '1' ≤ c ∧ c ≤ '8' then some (digitsValue text)
    else none

/-- The text before and after the last character of a kind. -/
def splitLast? (isMark : Char → Bool) (text : List Char) : Option (List Char × List Char) :=
  let after := (text.reverse.takeWhile (!isMark ·)).reverse
  if after.length < text.length then
    some (text.take (text.length - after.length - 1), after)
  else none

/-- Whether a character marks an exponent. -/
def isExponentMark (c : Char) : Bool := c == 'e' || c == 'E'

/-- A token for a number with a fraction or an exponent. -/
def floatToken? (text : List Char) : Option Token := do
  let (mantissa, exponent) ←
    match splitLast? isExponentMark text with
    | some (mantissa, mark) => (exponent? mark).map fun e => (mantissa, e)
    | none => some (text, 0)
  match splitLast? (· == '.') mantissa with
  | some (whole, fraction) =>
    let (negative, magnitude) ← signedDigits? whole
    if fraction ≠ [] ∧ fraction.all Char.isDigit then
      let coefficient := magnitude * tenPow fraction.length + digitsValue fraction
      some (.float (.ofDecimal negative coefficient (exponent - fraction.length)))
    else none
  | none =>
    let (negative, magnitude) ← signedDigits? mantissa
    some (.float (.ofDecimal negative magnitude exponent))

/-- A token for a number, given all its characters. -/
def numberToken? (text : List Char) : Option Token :=
  if text.any (fun c => c == '.' || isExponentMark c) then floatToken? text else intToken? text

/-! ## Strings -/

/-- The value of a hexadecimal digit. -/
def hexDigit? (c : Char) : Option Nat :=
  if c.isDigit then some (c.toNat - '0'.toNat)
  else if 'a' ≤ c ∧ c ≤ 'f' then some (c.toNat - 'a'.toNat + 10)
  else if 'A' ≤ c ∧ c ≤ 'F' then some (c.toNat - 'A'.toNat + 10)
  else none

/-- The number that hexadecimal digits denote. -/
def hexValue? (digits : List Char) : Option Nat :=
  digits.foldlM (fun n c => (hexDigit? c).map (16 * n + ·)) 0

/-- The character of a Unicode escape: four hexadecimal digits, the first of which may be a plus sign
instead. -/
def unicodeEscape? (a b c d : Char) : Option Char := do
  let n ← hexValue? (if a = '+' then [b, c, d] else [a, b, c, d])
  if n.isValidChar then some (Char.ofNat n) else none

/-- The character of an escape of one letter. The letter `b` stands for U+0010. -/
def simpleEscape? : Char → Option Char
  | '"' => some '"'
  | '\\' => some '\\'
  | '/' => some '/'
  | 'b' => some '\x10'
  | 'f' => some '\x0c'
  | 'n' => some '\n'
  | 'r' => some '\r'
  | 't' => some '\t'
  | _ => none

/-- The value of a string on one line and the number of characters up to its closing quote, that one
included, given the text after the opening quote. -/
def stringBody? : List Char → Option (List Char × Nat)
  | [] => none
  | c :: rest =>
    if c = '"' then some ([], 1)
    else if c = '\n' then none
    else if c = '\\' then
      match rest with
      | 'u' :: a :: b :: c :: d :: rest => do
        let char ← unicodeEscape? a b c d
        let (value, taken) ← stringBody? rest
        some (char :: value, taken + 6)
      | e :: rest => do
        let char ← simpleEscape? e
        let (value, taken) ← stringBody? rest
        some (char :: value, taken + 2)
      | [] => none
    else do
      let (value, taken) ← stringBody? rest
      some (c :: value, taken + 1)

/-! ## Block strings -/

/-- The raw text of a block string, given the text after its opening quotes. It ends at the first three
quotes that do not directly follow a backslash. -/
def blockBody? (afterBackslash : Bool) : List Char → Option (List Char)
  | [] => none
  | '"' :: '"' :: '"' :: rest =>
    if afterBackslash then (blockBody? false rest).map fun raw => '"' :: '"' :: '"' :: raw
    else some []
  | c :: rest => (blockBody? (c == '\\') rest).map (c :: ·)

/-- The size of characters in bytes. -/
def byteSize : List Char → Nat
  | [] => 0
  | c :: cs => c.utf8Size + byteSize cs

/-- The line without so many bytes at its start. -/
def dropBytes : Nat → List Char → List Char
  | 0, line => line
  | _ + 1, [] => []
  | n + 1, c :: line => dropBytes (n + 1 - c.utf8Size) line

/-- The indentation of a line in bytes, if it is not blank. -/
def indent? (line : List Char) : Option Nat :=
  if line.all isBlank then none else some (byteSize (line.takeWhile isBlank))

/-- The value of a block string: blank lines at both ends go, and the least indentation of the lines
after the first is cut from each of those that are long enough. -/
def blockValue (raw : List Char) : List Char :=
  match lines raw with
  | [] => []
  | first :: others =>
    let indent := (others.filterMap indent?).min?.getD 0
    let cut := others.map fun line => if indent ≤ byteSize line then dropBytes indent line else line
    let trimEnd (ls : List (List Char)) := (ls.reverse.dropWhile (·.all isBlank)).reverse
    let kept := trimEnd ((first :: cut).dropWhile (·.all isBlank))
    let quoted := kept.map (replaced ['\\', '"', '"', '"'] ['"', '"', '"'])
    List.intercalate ['\n'] quoted

/-! ## Tokens -/

/-- The token that starts with `c`, and the number of characters that it takes after `c`. -/
def token? (c : Char) (rest : List Char) : Option (Token × Nat) :=
  if isNameStart c then
    let tail := rest.takeWhile isNameChar
    some (.name (String.ofList (c :: tail)), tail.length)
  else if c = '-' ∨ c.isDigit then
    let tail := rest.takeWhile (!endsNumber ·)
    (numberToken? (c :: tail)).map fun t => (t, tail.length)
  else if c = '"' then
    match rest with
    | '"' :: '"' :: body =>
      (blockBody? false body).map fun raw =>
        (.string (String.ofList (blockValue raw)), raw.length + 5)
    | _ => (stringBody? rest).map fun (value, taken) => (.string (String.ofList value), taken)
  else if c = '.' then
    match rest with
    | '.' :: '.' :: _ => some (.spread, 2)
    | _ => none
  else (Punctuator.ofChar? c).map fun p => (.punct p, 0)

/-- The deepest nesting of brackets that a text may have. -/
def maxDepth : Nat := 50

/-- The number of open brackets after a token, or nothing where they nest too deeply. -/
def depthAfter? (depth : Nat) : Token → Option Nat
  | .punct .openParen | .punct .openBracket | .punct .openBrace =>
    if depth < maxDepth then some (depth + 1) else none
  | .punct .closeParen | .punct .closeBracket | .punct .closeBrace => some (depth - 1)
  | _ => some depth

/-- The tokens of the text that starts at a position, inside so many open brackets. Spaces and commas
move one column, a tab moves eight, and a carriage return or a byte order mark moves none. A comment
ends with the first carriage return or line feed. -/
def lexemesFrom? (position : Position) (depth : Nat) : List Char → Option (List Lexeme)
  | [] => some []
  | c :: rest =>
    if c = '\n' then lexemesFrom? position.nextLine depth rest
    else if c = '\r' ∨ c = '\ufeff' then lexemesFrom? position depth rest
    else if c = ' ' ∨ c = ',' then lexemesFrom? (position.right 1) depth rest
    else if c = '\t' then lexemesFrom? (position.right 8) depth rest
    else if c = '#' then
      let comment := rest.takeWhile fun c => c != '\n' && c != '\r'
      lexemesFrom? position.nextLine depth (rest.drop (comment.length + 1))
    else do
      let (token, taken) ← token? c rest
      let depth ← depthAfter? depth token
      let others ← lexemesFrom? (position.past (c :: rest.take taken)) depth (rest.drop taken)
      some (⟨token, position⟩ :: others)
termination_by cs => cs.length
decreasing_by all_goals simp; try omega

/-- The tokens of a text. -/
def lexemes? (text : String) : Option (List Lexeme) :=
  lexemesFrom? .start 0 text.toList

end ElmBindings.GraphQL
