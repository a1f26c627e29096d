import ElmBindings.Binary64.Basic

set_option autoImplicit false

/-! # Tokens of GraphQL texts

Queries and schema definitions share one set of tokens. A token stands in a text at a position, counted
in lines and columns from one. -/

namespace ElmBindings.GraphQL

/-! ## Positions -/

/-- A place in a text. -/
structure Position where
  line : Nat
  column : Nat
  deriving DecidableEq

namespace Position

/-- The start of a text. -/
def start : Position := ⟨1, 1⟩

/-- The start of the next line. -/
def nextLine (p : Position) : Position := ⟨p.line + 1, 1⟩

/-- So many columns to the right. -/
def right (p : Position) (columns : Nat) : Position := ⟨p.line, p.column + columns⟩

/-- The position after the given characters of a token. -/
def past (p : Position) (taken : List Char) : Position :=
  taken.foldl (fun p c => if c = '\n' then p.nextLine else p.right 1) p

end Position

/-! ## Tokens -/

/-- The punctuation of one character. -/
inductive Punctuator
  | bang
  | dollar
  | colon
  | equals
  | atSign
  | pipe
  | amp
  | openParen
  | closeParen
  | openBracket
  | closeBracket
  | openBrace
  | closeBrace
  deriving DecidableEq

/-- The punctuator that a character is. -/
def Punctuator.ofChar? : Char → Option Punctuator
  | '!' => some bang
  | '$' => some dollar
  | ':' => some colon
  | '=' => some equals
  | '@' => some atSign
  | '|' => some pipe
  | '&' => some amp
  | '(' => some openParen
  | ')' => some closeParen
  | '[' => some openBracket
  | ']' => some closeBracket
  | '{' => some openBrace
  | '}' => some closeBrace
  | _ => none

/-- A token, with the value that it denotes. -/
inductive Token
  | punct (p : Punctuator)
  | spread
  | name (text : String)
  | int (value : Int)
  | float (value : Binary64)
  | string (value : String)
  deriving DecidableEq

/-- A token at its place in a text. -/
structure Lexeme where
  token : Token
  position : Position
  deriving DecidableEq

end ElmBindings.GraphQL
