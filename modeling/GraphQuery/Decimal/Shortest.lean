import GraphQuery.Decimal.Binary64

/-!
# Shortest — the fewest decimal digits that read back

A decimal reads back as a double when it lies in the interval of numbers that round to it. The
shortest decimal is found on the coarsest decimal grid with a point in that interval; of two
points the nearer is taken, and a tie goes to the even one.

- `Decimal` : `digits * 10 ^ exponent`
- `Binary64.Interval` : the numbers that round to a double, over a common denominator
- `Binary64.shortest` : the shortest decimal that reads back
-/

set_option autoImplicit false

namespace GraphQuery

/-- The number `digits * 10 ^ exponent`. -/
structure Decimal where
  digits : Nat
  exponent : Int
  deriving DecidableEq, Repr

/-- The same number with `0` digits at the end moved to the exponent; at most `n` of them. -/
def Decimal.trim : Nat → Decimal → Decimal
  | 0, x => x
  | n + 1, x =>
      if x.digits ≠ 0 ∧ x.digits % 10 = 0 then trim n ⟨x.digits / 10, x.exponent + 1⟩ else x

namespace Binary64

/-- The numbers that round to a double: `low / den` to `high / den`, the ends included when
`closed`. The double itself is `value / den`. -/
structure Interval where
  low : Nat
  value : Nat
  high : Nat
  den : Nat
  closed : Bool
  deriving Repr

/-- The interval around a double reaches half way to its neighbours. Below a power of two the
neighbour is only half as far. An even significand owns the ends. -/
def interval (x : Binary64) : Interval :=
  -- Everything is taken four times, so that quarters of a unit are whole.
  let m := x.mantissa
  let q := x.exponent
  let below := if m = leadingBit ∧ x.magnitude ≠ leadingBit then 4 * m - 1 else 4 * m - 2
  let up := if 2 ≤ q then Nat.pow 2 (q - 2).toNat else 1
  let den := if 2 ≤ q then 1 else Nat.pow 2 (2 - q).toNat
  { low := below * up, value := 4 * m * up, high := (4 * m + 2) * up, den, closed := m % 2 == 0 }

/-- Whether `num / den` lies in the interval. -/
def Interval.contains (i : Interval) (num den : Nat) : Bool :=
  let a := i.low * den
  let b := num * i.den
  let c := i.high * den
  (a < b && b < c) || (i.closed && (a == b || b == c))

/-- The point `digits * 10 ^ k` as a quotient. -/
def gridPoint (digits : Nat) (k : Int) : Nat × Nat :=
  if 0 ≤ k then (digits * Nat.pow 10 k.toNat, 1) else (digits, Nat.pow 10 (-k).toNat)

/-- The point of the grid `10 ^ k` that reads back, if there is one. -/
def Interval.onGrid? (i : Interval) (k : Int) : Option Decimal :=
  let (n, d) :=
    if 0 ≤ k then (i.value, i.den * Nat.pow 10 k.toNat)
    else (i.value * Nat.pow 10 (-k).toNat, i.den)
  -- On a grid only the two neighbours of the number can be nearest.
  let down := n / d
  let hits (digits : Nat) : Bool :=
    let (a, b) := gridPoint digits k
    i.contains a b
  let rest := 2 * (n % d)
  let upIsNearer := d < rest || (d == rest && down % 2 == 1)
  match hits down, hits (down + 1) with
  | true, true => some ⟨if upIsNearer then down + 1 else down, k⟩
  | true, false => some ⟨down, k⟩
  | false, true => some ⟨down + 1, k⟩
  | false, false => none

/-- The first of the grids `10 ^ k`, `10 ^ (k - 1)`, .. with a hit, trying `n` of them. -/
def Interval.search (i : Interval) : Nat → Int → Decimal
  | 0, _ => ⟨0, 0⟩
  | n + 1, k =>
      match i.onGrid? k with
      | some x => x
      | none => search i n (k - 1)

/-- The shortest decimal that reads back as the magnitude of a double. Grids coarser than the
number cannot hit before its own order of magnitude, and seventeen digits always do. -/
def shortest (x : Binary64) : Decimal :=
  if x.isZero then ⟨0, 0⟩
  else
    let i := x.interval
    -- The decimal order from the binary one: 1233 / 4096 is just below log10 of 2.
    let order : Int := ((Nat.log2 i.value : Int) - Nat.log2 i.den) * 1233 / 4096 + 2
    (i.search 24 order).trim 24

end Binary64

end GraphQuery
