import ElmBindings.Json.Basic

set_option autoImplicit false

/-! # JSON numbers

An integer literal that fits 64 bits is an integer, except `-0`. Every other literal is a double: the
leading digits that fit 64 bits, rounded, times or divided by a rounded power of ten. -/

namespace ElmBindings.Json

/-! ## Scaling -/

/-- The largest power of ten that is a double. -/
def maxPower : Nat := 308

/-- A double nearest to a power of ten. -/
def powerOfTen (e : Nat) : Binary64 := .ofNat (tenPow e)

/-- The number divided by a power of ten, in steps of the largest one. -/
def scaledDown (x : Binary64) (e : Nat) : Binary64 :=
  if e ≤ maxPower then x.div (powerOfTen e)
  else if x.significand = 0 then x
  else scaledDown (x.div (powerOfTen maxPower)) (e - maxPower)
termination_by e
decreasing_by simp [maxPower] at *; omega

/-- The number times a power of ten; beyond the range of doubles it is an infinity. -/
def scaledUp (x : Binary64) (e : Nat) : Binary64 :=
  if x.significand = 0 then x
  else if e ≤ maxPower then x.mul (powerOfTen e)
  else .signed false Binary64.infinityBits

/-- The double for a significand and a power of ten. -/
def scaled (negative : Bool) (significand : Nat) (exponent : Int) : Binary64 :=
  let x := Binary64.ofNat significand
  let y := if 0 ≤ exponent then scaledUp x exponent.toNat else scaledDown x (-exponent).toNat
  if negative then y.neg else y

/-! ## Literals -/

/-- The significand after as many of the digits as fit 64 bits, and the number of those digits. -/
def absorb (significand : Nat) : List Char → Nat × Nat
  | [] => (significand, 0)
  | d :: ds =>
    let next := 10 * significand + (d.toNat - '0'.toNat)
    if next < twoPow 64 then
      let (final, count) := absorb next ds
      (final, count + 1)
    else (significand, 0)

/-- The number of an integer literal. -/
def integerNumber (negative : Bool) (digits : List Char) : Json :=
  let (significand, count) := absorb 0 digits
  if count < digits.length then .float (scaled negative significand (digits.length - count : Nat))
  else if !negative then .int significand
  else if significand = 0 ∨ twoPow 63 < significand then .float (scaled true significand 0)
  else .int (-significand)

/-- The number of a literal with a fraction or an exponent. -/
def fractionNumber (negative : Bool) (digits fraction : List Char) (exponent : Int) : Json :=
  let (whole, count) := absorb 0 digits
  let (significand, places) := absorb whole fraction
  .float (scaled negative significand ((digits.length - count : Nat) - (places : Int) + exponent))

/-- The digits at the front of a text, of which there has to be one, and what follows them. -/
def digits? (cs : List Char) : Option (List Char × List Char) :=
  let digits := cs.takeWhile Char.isDigit
  if digits.isEmpty then none else some (digits, cs.drop digits.length)

/-- The number that digits denote. -/
def natOfDigits (digits : List Char) : Nat :=
  digits.foldl (fun n c => 10 * n + (c.toNat - '0'.toNat)) 0

/-- Reads the exponent of a number, if there is one. -/
def exponent? : List Char → Option (Option Int × List Char)
  | c :: cs =>
    if c = 'e' ∨ c = 'E' then
      let negative := cs.head? == some '-'
      let cs := if negative ∨ cs.head? = some '+' then cs.drop 1 else cs
      (digits? cs).map fun (digits, rest) =>
        let e : Int := natOfDigits digits
        (some (if negative then -e else e), rest)
    else some (none, c :: cs)
  | [] => some (none, [])

/-- Reads the fraction of a number, if there is one. -/
def fraction? : List Char → Option (List Char × List Char)
  | '.' :: cs => digits? cs
  | cs => some ([], cs)

/-- Reads a number. The whole part is zero or does not start with a zero. -/
def number? (cs : List Char) : Option (Json × List Char) := do
  let negative := cs.head? == some '-'
  let (digits, rest) ← digits? (if negative then cs.drop 1 else cs)
  if digits.head? = some '0' ∧ 1 < digits.length then none
  else
    let (fraction, rest) ← fraction? rest
    let (exponent, rest) ← exponent? rest
    if fraction.isEmpty && exponent.isNone then some (integerNumber negative digits, rest)
    else some (fractionNumber negative digits fraction (exponent.getD 0), rest)

end ElmBindings.Json
