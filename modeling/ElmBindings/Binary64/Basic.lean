set_option autoImplicit false

/-! # Double-precision numbers

A double is kept as its 64 bits, and every operation on it is exact arithmetic on natural numbers
followed by one rounding to the nearest double, ties to the even one. -/

namespace ElmBindings

/-! ## Powers -/

/-- A power of two. -/
def twoPow (n : Nat) : Nat := Nat.pow 2 n

/-- A power of ten. -/
def tenPow (n : Nat) : Nat := Nat.pow 10 n

/-! ## The type -/

/-- A double-precision binary floating-point number, as its bit pattern. -/
structure Binary64 where
  bits : UInt64
  deriving DecidableEq

namespace Binary64

/-! ## Parts of a number -/

/-- Whether the sign bit is set. -/
def isNegative (x : Binary64) : Bool :=
  x.bits.toNat / twoPow 63 == 1

/-- The biased exponent field. -/
def exponentField (x : Binary64) : Nat :=
  x.bits.toNat / twoPow 52 % twoPow 11

/-- The fraction field. -/
def fractionField (x : Binary64) : Nat :=
  x.bits.toNat % twoPow 52

/-- Whether the number is neither an infinity nor a NaN. -/
def isFinite (x : Binary64) : Bool :=
  x.exponentField != 2047

/-- Whether the pattern stands for no number. -/
def isNaN (x : Binary64) : Bool :=
  x.exponentField == 2047 && x.fractionField != 0

/-- The integer `m` of a finite magnitude `m * 2 ^ (scale - 1074)`. -/
def significand (x : Binary64) : Nat :=
  if x.exponentField = 0 then x.fractionField else twoPow 52 + x.fractionField

/-- The exponent of the last place, counted up from the smallest one, `-1074`. -/
def scale (x : Binary64) : Nat :=
  x.exponentField - 1

/-- A magnitude with a sign put in front. -/
def signed (negative : Bool) (magnitude : Nat) : Binary64 :=
  ⟨UInt64.ofNat (magnitude + if negative then twoPow 63 else 0)⟩

/-! ## Rounding -/

/-- The quotient rounded to the nearest integer, ties to the even one. -/
def roundedQuotient (num den : Nat) : Nat :=
  let q := num / den
  let r := num % den
  if 2 * r < den then q
  else if den < 2 * r then q + 1
  else q + q % 2

/-- The bits of infinity. -/
def infinityBits : Nat := 2047 * twoPow 52

/-- The largest `k` with `2 ^ k ≤ num / den * 2 ^ 1074`, or zero if there is none. -/
def floorLog (num den : Nat) : Nat :=
  Nat.log2 (num * twoPow 1074 / den)

/-- The bits of the double nearest to a positive ratio. The place of the last digit is 52 places below
the leading one, and not below `2 ^ (-1074)`; a significand that rounds up to the next power of two
carries into the exponent field, as it should. -/
def ratioBits (num den : Nat) : Nat :=
  let place := floorLog num den - 52
  let m := roundedQuotient (num * twoPow 1074) (den * twoPow place)
  min infinityBits (place * twoPow 52 + m)

/-- The double nearest to a ratio. -/
def ofRatio (negative : Bool) (num den : Nat) : Binary64 :=
  signed negative (ratioBits num den)

/-- The double nearest to a natural number. -/
def ofNat (n : Nat) : Binary64 :=
  ofRatio false n 1

/-- The double nearest to an integer. -/
def ofInt (n : Int) : Binary64 :=
  ofRatio (n < 0) n.natAbs 1

/-! ## Decimals -/

/-- The double nearest to `coefficient * 10 ^ exponent`. A number of at least `10 ^ 310` is an infinity
and one below `10 ^ (-400)` is zero, whatever its size. -/
def ofDecimal (negative : Bool) (coefficient : Nat) (exponent : Int) : Binary64 :=
  let digits : Int := (Nat.toDigits 10 coefficient).length
  if coefficient = 0 then signed negative 0
  else if 310 < exponent + digits then signed negative infinityBits
  else if exponent + digits < -400 then signed negative 0
  else if 0 ≤ exponent then ofRatio negative (coefficient * tenPow exponent.toNat) 1
  else ofRatio negative coefficient (tenPow (-exponent).toNat)

/-! ## Arithmetic on non-negative numbers -/

/-- The product of two non-negative finite numbers, rounded once. -/
def mul (x y : Binary64) : Binary64 :=
  ofRatio false (x.significand * y.significand * twoPow (x.scale + y.scale)) (twoPow 2148)

/-- The quotient of two positive finite numbers, rounded once. -/
def div (x y : Binary64) : Binary64 :=
  ofRatio false (x.significand * twoPow x.scale) (y.significand * twoPow y.scale)

/-- The number with its sign turned. -/
def neg (x : Binary64) : Binary64 :=
  ⟨x.bits ^^^ 0x8000000000000000⟩

/-! ## Whole numbers -/

/-- The integer that a finite number is equal to, if it is whole. -/
def toInt? (x : Binary64) : Option Int :=
  let m := x.significand * twoPow x.scale
  if x.isFinite && m % twoPow 1074 == 0 then
    let n : Int := (m / twoPow 1074 : Nat)
    some (if x.isNegative then -n else n)
  else none

end Binary64

end ElmBindings
