import GraphQuery.Decimal.Shortest

/-!
# Layout — writing a decimal as text

- `Decimal.Layout` : which numbers are written positionally
- `Decimal.text` : the text of a decimal in a layout
-/

set_option autoImplicit false

namespace GraphQuery

namespace Decimal

/-- The decisions of a number format. A number is `0.DIGITS * 10 ^ point`; it is written
positionally when `lowest < point ≤ highest`, with at least one digit after the point, and else
with an exponent that carries its sign. -/
structure Layout where
  lowest : Int
  highest : Int
  deriving Repr

def zeros (n : Int) : String := String.ofList (List.replicate n.toNat '0')

/-- The digits with a point before the last ones or zeros around them. -/
def positional (digits : String) (point : Int) : String :=
  let size : Int := digits.length
  if point ≤ 0 then "0." ++ zeros (-point) ++ digits
  else if size ≤ point then digits ++ zeros (point - size) ++ ".0"
  else
    String.ofList (digits.toList.take point.toNat) ++ "." ++
      String.ofList (digits.toList.drop point.toNat)

/-- One digit, the others after a point, and the exponent. -/
def scientific (digits : String) (point : Int) : String :=
  let first := String.ofList (digits.toList.take 1)
  let others := digits.toList.drop 1
  let fraction := if others.isEmpty then "" else "." ++ String.ofList others
  let exponent := point - 1
  let sign := if exponent < 0 then "-" else "+"
  first ++ fraction ++ "e" ++ sign ++ toString exponent.natAbs

/-- The text of a decimal without a sign. -/
def text (layout : Layout) (x : Decimal) : String :=
  let digits := toString x.digits
  let point : Int := digits.length + x.exponent
  if x.digits = 0 then "0.0"
  else if layout.lowest < point ∧ point ≤ layout.highest then positional digits point
  else scientific digits point

end Decimal

/-- The text of a double: a minus sign, also before zero, and its shortest decimal. -/
def Binary64.text (layout : Decimal.Layout) (x : Binary64) : String :=
  (if x.negative then "-" else "") ++ x.shortest.text layout

end GraphQuery
