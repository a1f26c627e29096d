import ElmBindings.Binary64.Basic

set_option autoImplicit false

/-! # Shortest decimal text of a double

The text of a number has the fewest significant digits that still read back as the same double. It is
always written out in positions, never with an exponent. -/

namespace ElmBindings.Binary64

/-! ## Digits -/

/-- The decimal `coefficient * 10 ^ exponent`. -/
structure Decimal where
  coefficient : Nat
  exponent : Int

/-- The lower end of the interval of reals that read back as the positive double `m * 2 ^ (s - 1074)`,
in units of `2 ^ (-1076)`. Below a power of two the doubles are twice as dense. -/
def lowerEnd (m s : Nat) : Nat :=
  if m = twoPow 52 ∧ 0 < s then (4 * m - 1) * twoPow s else (4 * m - 2) * twoPow s

/-- The upper end of that interval, in the same units. -/
def upperEnd (m s : Nat) : Nat :=
  (4 * m + 2) * twoPow s

/-- Whether `c * 10 ^ e` reads back as the double `m * 2 ^ (s - 1074)`. The ends belong to the interval
if the significand is even. -/
def readsBack (m s c : Nat) (e : Int) : Bool :=
  let scaled := c * tenPow e.toNat * twoPow 1076
  let lo := lowerEnd m s * tenPow (-e).toNat
  let hi := upperEnd m s * tenPow (-e).toNat
  if m % 2 = 0 then lo ≤ scaled && scaled ≤ hi else lo < scaled && scaled < hi

/-- The decimal on the grid of `10 ^ e` that reads back and is nearest to the number; of two equally
near ones, the larger. -/
def onGrid (m s : Nat) (e : Int) : Option Nat :=
  let num := m * twoPow s * tenPow (-e).toNat
  let den := twoPow 1074 * tenPow e.toNat
  let below := num / den
  let r := num % den
  let preferred := if den ≤ 2 * r then [below + 1, below] else [below, below + 1]
  preferred.find? fun c => readsBack m s c e

/-- The decimal exponent of the leading digit of a positive ratio: the largest `k` with
`10 ^ k ≤ num / den`. -/
def leadingExponent (num den : Nat) : Int :=
  if den ≤ num then ((Nat.toDigits 10 (num / den)).length : Int) - 1
  else
    -- The first power of ten that lifts the ratio to one.
    let digits := (Nat.toDigits 10 (den / num)).length
    if den ≤ num * tenPow (digits - 1) then 1 - (digits : Int) else -(digits : Int)

/-- The shortest decimal of a positive double: the coarsest grid that has one. Seventeen digits always
suffice. -/
def shortest (m s : Nat) : Decimal :=
  let top := leadingExponent (m * twoPow s) (twoPow 1074)
  let found := (List.range 18).findSome? fun (n : Nat) =>
    let e : Int := top + 1 - n
    (onGrid m s e).map fun c => (⟨c, e⟩ : Decimal)
  found.getD ⟨m * twoPow s, 0⟩

/-! ## Text -/

/-- A decimal written out in positions. -/
def Decimal.text (d : Decimal) : String :=
  let digits := Nat.toDigits 10 d.coefficient
  if 0 ≤ d.exponent then String.ofList (digits ++ List.replicate d.exponent.toNat '0')
  else
    let places := (-d.exponent).toNat
    let padded := List.replicate (places + 1 - digits.length) '0' ++ digits
    let whole := padded.length - places
    let fraction := (padded.drop whole).reverse.dropWhile (· == '0') |>.reverse
    String.ofList (padded.take whole ++ if fraction.isEmpty then [] else '.' :: fraction)

/-- The text of a number. -/
def text (x : Binary64) : String :=
  if x.isNaN then "NaN"
  else
    let magnitude :=
      if !x.isFinite then "inf"
      else if x.significand = 0 then "0"
      else (shortest x.significand x.scale).text
    if x.isNegative then "-" ++ magnitude else magnitude

end ElmBindings.Binary64
