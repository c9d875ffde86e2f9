import GraphQuery.Keyed

/-!
# Yaml.Anchor — the marks that aliases refer to

- `Yaml.Anchors` : the names of anchors with their numbers, and what has a number
- `Yaml.Anchors.mark` : gives a name to something, in place of what had the name
- `Yaml.Anchors.number?`, `Yaml.Anchors.find?` : the number of a name, and what has a number

A number is the count of the names before it. A name that is given once more is no new name, so
that a number can be given more than once, and then belongs to what got it last. An alias takes
the number of its name where it stands; what has the number shows at the end of the document.
-/

set_option autoImplicit false

namespace GraphQuery

namespace Yaml

structure Anchors (α : Type) where
  /-- Each name once, with the number it got last. -/
  numbers : List (String × Nat)
  /-- What got a number, the last one first. -/
  marked : List (Nat × α)

namespace Anchors

variable {α : Type}

def empty : Anchors α := ⟨[], []⟩

/-- Gives a name to `x`, and with it the next number. -/
def mark (name : String) (x : α) (anchors : Anchors α) : Anchors α where
  numbers := Keyed.put Prod.fst (name, anchors.numbers.length) anchors.numbers
  marked := (anchors.numbers.length, x) :: anchors.marked

def number? (name : String) (anchors : Anchors α) : Option Nat :=
  (Keyed.find? Prod.fst name anchors.numbers).map Prod.snd

def find? (number : Nat) (anchors : Anchors α) : Option α :=
  anchors.marked.lookup number

/-! ## Laws -/

theorem number?_mark (name : String) (x : α) (anchors : Anchors α) (k : String) :
    (anchors.mark name x).number? k =
      if name = k then some anchors.numbers.length else anchors.number? k := by
  by_cases h : name = k <;> simp [number?, mark, Keyed.find?_put, h]

theorem find?_mark (name : String) (x : α) (anchors : Anchors α) (n : Nat) :
    (anchors.mark name x).find? n =
      if n = anchors.numbers.length then some x else anchors.find? n := by
  by_cases h : n = anchors.numbers.length
  · simp [find?, mark, h]
  · have apart : (n == anchors.numbers.length) = false := by simpa using h
    simp [find?, mark, List.lookup_cons, apart, h]

end Anchors

end Yaml

end GraphQuery
