import GraphQuery.Selection.OfExpression
import Mathlib.Data.List.Sort
import Mathlib.Data.String.Basic
import Mathlib.Tactic.Tauto

/-!
# Selection.EntryPoint — sets of argument names

A root without an entry point is fetched through the field that takes just the arguments of the
filter. Its source may list names in any order and more than once; what counts is their set.

- `Compiler.ascending_spec` : names in ascending order, each once
- `Compiler.ascending_congr`, `Compiler.entryField_congr` : lists of the same names give the same,
  and lead to the same field
-/

set_option autoImplicit false

namespace GraphQuery

namespace Compiler

theorem mem_insertAscending {name other : String} {names : List String} :
    other ∈ insertAscending name names ↔ other = name ∨ other ∈ names := by
  induction names with
  | nil => simp [insertAscending]
  | cons first rest ih =>
      unfold insertAscending
      split
      · simp
      · split
        · next heq => simp [heq]
        · simp [ih, or_left_comm]

/-- Names stay in strictly ascending order. -/
theorem pairwise_insertAscending {name : String} {names : List String}
    (h : names.Pairwise (· < ·)) : (insertAscending name names).Pairwise (· < ·) := by
  induction names with
  | nil => exact List.pairwise_singleton _ _
  | cons first rest ih =>
      rcases List.pairwise_cons.1 h with ⟨hfirst, hrest⟩
      unfold insertAscending
      split
      · next hlt =>
          refine List.pairwise_cons.2 ⟨?_, h⟩
          intro other hother
          rcases List.mem_cons.1 hother with rfl | hother
          · exact hlt
          · exact hlt.trans (hfirst other hother)
      · next hnot =>
          split
          · exact h
          · next hne =>
              refine List.pairwise_cons.2 ⟨?_, ih hrest⟩
              intro other hother
              rcases mem_insertAscending.1 hother with rfl | hother
              · exact lt_of_le_of_ne (not_lt.1 hnot) fun heq => hne heq.symm
              · exact hfirst other hother

theorem ascending_spec (names : List String) :
    (ascending names).Pairwise (· < ·) ∧ ∀ name, name ∈ ascending names ↔ name ∈ names := by
  suffices hgen : ∀ found : List String, found.Pairwise (· < ·) →
      (names.foldl (fun found name => insertAscending name found) found).Pairwise (· < ·) ∧
        ∀ name, name ∈ names.foldl (fun found name => insertAscending name found) found ↔
          name ∈ found ∨ name ∈ names by
    rcases hgen [] List.Pairwise.nil with ⟨hsorted, hmem⟩
    exact ⟨hsorted, fun name => (hmem name).trans (by simp)⟩
  induction names with
  | nil => simp
  | cons first rest ih =>
      intro found hfound
      rcases ih _ (pairwise_insertAscending hfound) with ⟨hsorted, hmem⟩
      refine ⟨hsorted, fun name => ?_⟩
      rw [List.foldl_cons, hmem, mem_insertAscending, List.mem_cons]
      tauto

/-- The order and the repetitions of names do not count. -/
theorem ascending_congr {names others : List String}
    (h : ∀ name, name ∈ names ↔ name ∈ others) : ascending names = ascending others := by
  rcases ascending_spec names with ⟨hsorted, hmem⟩
  rcases ascending_spec others with ⟨hsorted', hmem'⟩
  refine hsorted.eq_of_mem_iff hsorted' fun name => ?_
  rw [hmem, hmem', h]

/-- Sources that list the same names lead to the same field, or to the same failure. -/
theorem entryField_congr (c : Compiler) (type : GraphType) (entryPoint : Option String)
    {source other : ArgumentSource} (h : ∀ name, name ∈ source.fields ↔ name ∈ other.fields) :
    c.entryField type entryPoint (some source) = c.entryField type entryPoint (some other) := by
  unfold entryField
  simp only [Option.map_some, ascending_congr h]

end Compiler

end GraphQuery
