import GraphQuery.Hexadecimal

/-!
# CodeUnit — characters as numbers of four hexadecimal digits

Four digits number the characters of the basic plane. A character outside of it takes two
numbers, a high surrogate and a low one, which stand for nothing alone.

- `CodeUnit.ofDigits?` : the number that four digits make
- `CodeUnit.isHigh`, `CodeUnit.isLow` : the surrogates
- `CodeUnit.pair` : the character of two surrogates
-/

set_option autoImplicit false

namespace GraphQuery

namespace CodeUnit

def ofDigits? (a b c d : Char) : Option Nat := do
  let high := 16 * (← Hexadecimal.value? a) + (← Hexadecimal.value? b)
  let low := 16 * (← Hexadecimal.value? c) + (← Hexadecimal.value? d)
  return 256 * high + low

def isHigh (unit : Nat) : Bool :=
  0xD800 ≤ unit && unit < 0xDC00

def isLow (unit : Nat) : Bool :=
  0xDC00 ≤ unit && unit < 0xE000

/-- Each surrogate holds ten bits of the number of a character. -/
def pair (high low : Nat) : Char :=
  Char.ofNat (0x10000 + (high - 0xD800) * 1024 + (low - 0xDC00))

end CodeUnit

end GraphQuery
