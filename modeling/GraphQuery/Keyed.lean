/-!
# Keyed — lists whose elements have distinct keys

Fields, arguments and populated values are kept in lists in the order of their first appearance.
A later element with the key of an earlier one takes its place.

- `Keyed.put` : insertion, in place of the element with the same key or at the end
- `Keyed.ofList` : repeated insertion
- `Keyed.find?` : look-up by key
- `Keyed.distinct` : the elements of a list, each where it first appears
-/

set_option autoImplicit false

namespace GraphQuery

namespace Keyed

variable {α : Type}

/-- Replaces the element with the key of `x`, or appends `x`. -/
def put (key : α → String) (x : α) : List α → List α
  | [] => [x]
  | y :: ys => if key y = key x then x :: ys else y :: put key x ys

def ofList (key : α → String) (xs : List α) : List α :=
  xs.foldl (fun found x => put key x found) []

def find? (key : α → String) (k : String) : List α → Option α
  | [] => none
  | y :: ys => if key y = k then some y else find? key k ys

/-- Appends an element that is not there yet. -/
def addNew [DecidableEq α] (x : α) (xs : List α) : List α :=
  if x ∈ xs then xs else xs ++ [x]

def distinct [DecidableEq α] (xs : List α) : List α :=
  xs.foldl (fun found x => addNew x found) []

/-! ## Laws -/

theorem find?_put (key : α → String) (x : α) (xs : List α) (k : String) :
    find? key k (put key x xs) = if key x = k then some x else find? key k xs := by
  induction xs with
  | nil => simp [put, find?]
  | cons y ys ih =>
      by_cases hxy : key y = key x
      · by_cases hk : key x = k <;> simp [put, find?, hxy, hk]
      · by_cases hk : key x = k
        · have hyk : key y ≠ k := fun h => hxy (h.trans hk.symm)
          simp [put, find?, hyk, ih, hk]
        · simp [put, find?, hxy, ih, hk]

/-- Insertion keeps the keys where they are. -/
theorem map_key_put (key : α → String) (x : α) (xs : List α) :
    (put key x xs).map key =
      if key x ∈ xs.map key then xs.map key else xs.map key ++ [key x] := by
  induction xs with
  | nil => simp [put]
  | cons y ys ih =>
      by_cases hxy : key y = key x
      · simp [put, hxy]
      · have hyx : ¬ key x = key y := fun h => hxy h.symm
        by_cases hm : key x ∈ ys.map key
        · simp only [put, hxy, if_false, List.map_cons, ih, List.mem_cons, hyx, hm,
            or_true, if_true]
        · simp only [put, hxy, if_false, List.map_cons, ih, List.mem_cons, hyx, hm,
            or_self, List.cons_append]

end Keyed

end GraphQuery
