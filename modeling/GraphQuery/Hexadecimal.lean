/-!
# Hexadecimal — digits to base sixteen

- `Hexadecimal.value?` : the value of a digit, in either case
- `Hexadecimal.digit` : the digit of a value, in lower case
- `Hexadecimal.ofDigits` : the number that digits make
-/

set_option autoImplicit false

namespace GraphQuery

namespace Hexadecimal

def value? (c : Char) : Option Nat :=
  if '0' ≤ c ∧ c ≤ '9' then some (c.toNat - 48)
  else if 'a' ≤ c ∧ c ≤ 'f' then some (c.toNat - 87)
  else if 'A' ≤ c ∧ c ≤ 'F' then some (c.toNat - 55)
  else none

def digit (n : Nat) : Char :=
  if n < 10 then Char.ofNat (48 + n) else Char.ofNat (87 + n)

/-- Other characters count as zeros. -/
def ofDigits (digits : List Char) : Nat :=
  digits.foldl (fun n c => 16 * n + (value? c).getD 0) 0

theorem value?_digit : ∀ n < 16, value? (digit n) = some n := by
  decide

end Hexadecimal

end GraphQuery
