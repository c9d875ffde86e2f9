import GraphQuery.Proofs.Selection.Filtering
import GraphQuery.Proofs.Variables

/-!
# Filtering — a filter reaches the field that is resolved last

- `Compiler.not_takes_of_select` : what nothing is handed to takes none of the arguments
- `Compiler.filter_reaches_nearestField` : where the arguments of a filter are in a tree
- `Compiler.smallAndLarge` : a filter on a projection from what has a filter of its own
-/

set_option autoImplicit false

namespace GraphQuery

namespace Compiler

open Selection (Every)

variable {c : Compiler} {e : Expression} {scope : Scope} {f : Focused} {a : ArgumentSource}

/-- Arguments that are not handed down reach nothing, wherever the tree is put then: sources of
selectors, earlier members of a chain, what is included and definitions are compiled so. -/
theorem not_takes_of_select {part : Expression} {inner : Scope} {g : Focused}
    (ha : ∀ x ∈ part.sources, x.identity ≠ a.identity) (hnone : inner.arguments = none)
    (h : c.select part inner = .ok g) : Every (fun label => ¬ label.Takes a) g.root := by
  have hprovided := (derives_of_select h).provided (List.Subset.refl part.sources) (by simp [hnone])
  refine hprovided.imp ?_
  rintro label hlabel ⟨x, hx, hidentity⟩
  cases label with
  | field name type arguments source => exact ha x (hlabel.2 x hx) hidentity
  | _ => cases hx

/-- The arguments of a filter, which are not those of a filter in its expression, are at one node of
its tree at most: at the field that is nearest to the head, where no filter of the expression comes
first and the field declares arguments. Nothing else is handed them. -/
theorem filter_reaches_nearestField (ha : ∀ x ∈ e.sources, x.identity ≠ a.identity)
    (h : c.select (.filter e a) scope = .ok f) :
    (∀ position node, f.root.descendant? position = some node →
      (node.label.Takes a ↔
        f.NearestField position ∧ e.awaitsArguments = true ∧ node.label.arguments ≠ [])) ∧
    (∀ position other node node', f.root.descendant? position = some node →
      f.root.descendant? other = some node' → node.label.Takes a → node'.label.Takes a →
        position = other) ∧
    ∀ part inner g, part.sources ⊆ e.sources → inner.arguments = none →
      c.select part inner = .ok g → Every (fun label => ¬ label.Takes a) g.root := by
  refine ⟨fun position node hnode => filter_takes_iff ha h hnode, ?_, ?_⟩
  · intro position other node node' hnode hnode' htakes htakes'
    have hnearest := ((filter_takes_iff ha h hnode).1 htakes).1
    exact hnearest.unique ((filter_takes_iff ha h hnode').1 htakes').1
  · intro part inner g hpart hnone hselect
    exact not_takes_of_select (fun x hx => ha x (hpart hx)) hnone hselect

/-! ## Sizes of items -/

/-- The large sizes of the items, whose small ones have a filter of their own. -/
def smallAndLarge : Expression :=
  .project
    (.including (.root "Item" none) (.filter (.member .current ⟨"Item", "small"⟩) sizeSource))
    (.member .current ⟨"Item", "large"⟩)

def largeSizeSource : ArgumentSource :=
  .ofMembers 1 [("n", .number (.integer 2))]

/-- The filter reaches the large sizes, which are the second child of the items. -/
theorem filter_reaches_large :
    ∃ f, itemsCompiler.select (.filter smallAndLarge largeSizeSource) ⟨.unbound, true, none, 0⟩ =
        .ok f ∧
      (∃ node, f.root.descendant? [1] = some node ∧ node.label.Takes largeSizeSource) ∧
      ∀ position node, f.root.descendant? position = some node → node.label.Takes largeSizeSource →
        position = [1] := by
  obtain ⟨f, h⟩ : ∃ f, itemsCompiler.select (.filter smallAndLarge largeSizeSource)
      ⟨.unbound, true, none, 0⟩ = .ok f := ⟨_, rfl⟩
  have hfresh : ∀ x ∈ smallAndLarge.sources, x.identity ≠ largeSizeSource.identity := by decide
  have hlarge : ∃ node, f.root.descendant? [1] = some node ∧ node.label.Takes largeSizeSource := by
    cases h
    exact ⟨_, rfl, largeSizeSource, rfl, rfl⟩
  refine ⟨f, h, hlarge, ?_⟩
  rcases hlarge with ⟨large, hat, htakes⟩
  intro position node hnode hother
  exact (filter_reaches_nearestField hfresh h).2.1 position [1] node large hnode hat hother htakes

end Compiler

end GraphQuery
