/-!
# Binary64 — finite double-precision numbers

A finite double is a sign and the 63 bits below it, read as a natural number. Read this way the
bits grow with the magnitude, so the neighbours of a double are one step away.

- `Binary64.mantissa`, `Binary64.exponent` : the magnitude is `mantissa * 2 ^ exponent`
- `Binary64.ofRatio?` : the double nearest to a quotient of natural numbers, ties to even
- `Binary64.ofDecimal?` : the double nearest to `digits * 10 ^ exponent`
-/

set_option autoImplicit false

namespace GraphQuery

/-- The bit above the fraction. Normal numbers leave it out of their significand, and the exponent
starts there. -/
def leadingBit : Nat := Nat.pow 2 52

/-- Bit patterns from here on are infinities and NaNs. -/
def binary64Limit : Nat := 2047 * leadingBit

/-- A finite double: `magnitude` is the bit pattern without the sign. -/
structure Binary64 where
  negative : Bool
  magnitude : Nat
  finite : magnitude < binary64Limit
  deriving DecidableEq, Repr

namespace Binary64

/-- The significand as an integer, with the leading bit that normal numbers leave out. -/
def mantissa (x : Binary64) : Nat :=
  if x.magnitude < leadingBit then x.magnitude else leadingBit + x.magnitude % leadingBit

/-- The power of two that scales `mantissa`. -/
def exponent (x : Binary64) : Int :=
  (max (x.magnitude / leadingBit) 1 : Nat) - 1075

def isZero (x : Binary64) : Bool := x.magnitude == 0

/-- Equality of values: the two zeros are one value. -/
def sameValue (x y : Binary64) : Bool :=
  x == y || (x.isZero && y.isZero)

/-! ## Rounding -/

/-- The quotient `num / (den * 2 ^ q)` as a pair of natural numbers. -/
def scaled (num den : Nat) (q : Int) : Nat × Nat :=
  if 0 ≤ q then (num, den * Nat.pow 2 q.toNat) else (num * Nat.pow 2 (-q).toNat, den)

/-- The integer nearest to `num / den`; a half goes to the even neighbour. -/
def roundHalfEven (num den : Nat) : Nat :=
  let down := num / den
  let twice := 2 * (num % den)
  if twice < den then down
  else if den < twice then down + 1
  else down + down % 2

/-- The power of two to round at: 53 bits are kept, fewer below the normal range. -/
def roundingExponent (num den : Nat) : Int :=
  let guess := (Nat.log2 num : Int) - Nat.log2 den - 53
  let (n, d) := scaled num den (guess + 53)
  max (-1074) (if d ≤ n then guess + 1 else guess)

/-- The double nearest to `num / den`, or `none` beyond the finite range. A significand that is
rounded up to `2 ^ 53` carries into the exponent bits by itself. -/
def ofRatio? (negative : Bool) (num den : Nat) : Option Binary64 :=
  if num = 0 then some ⟨negative, 0, by decide⟩
  else
    let q := roundingExponent num den
    let (n, d) := scaled num den q
    -- The leading bit of a normal significand adds one to the exponent bits.
    let magnitude := (q + 1074).toNat * leadingBit + roundHalfEven n d
    if h : magnitude < binary64Limit then some ⟨negative, magnitude, h⟩ else none

/-- The double nearest to `digits * 10 ^ exponent`, or `none` beyond the finite range. Exponents
far outside the range of doubles are settled without computing the power. -/
def ofDecimal? (negative : Bool) (digits : Nat) (exponent : Int) : Option Binary64 :=
  let zero : Binary64 := ⟨negative, 0, by decide⟩
  if digits = 0 then some zero
  else
    let bits : Int := Nat.log2 digits
    -- Doubles end below 10 ^ 309 and half of the least one is above 10 ^ (-324).
    if 1100 < exponent then none
    else if exponent < -1100 - bits then some zero
    else if 0 ≤ exponent then ofRatio? negative (digits * Nat.pow 10 exponent.toNat) 1
    else ofRatio? negative digits (Nat.pow 10 (-exponent).toNat)

end Binary64

end GraphQuery
