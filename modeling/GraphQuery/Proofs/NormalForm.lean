import GraphQuery.Proofs.Compiler
import GraphQuery.Proofs.Selection.NormalForm

/-!
# NormalForm — pruned queries repeat nothing

- `Compiler.normalForm_of_prune` : the normal form is reached at once, and pruning keeps to it
-/

set_option autoImplicit false

namespace GraphQuery

namespace Compiler

open Selection

/-- Bringing a tree into normal form again, to the same limit, succeeds and changes nothing. In the
blocks that pruning makes of a tree no field of a subtype is selected beside it, and no two children
of a node merge, unless they are spreads that were in the tree before pruning put its own ones in.
In the trees that pruning is made for there are none, and these are the trees of expressions. -/
theorem normalForm_of_prune (limit : Nat) :
    (∀ levels children out, normalize limit levels children = .ok out →
      normalize limit levels out = .ok out) ∧
    (∀ (tree : Selection) (pruned : Pruned), tree.prune limit = .ok pruned →
      Tidy pruned.root.children ∧ ∀ f ∈ pruned.fragments, Tidy f.children) ∧
    (∀ (tree : Unpruned) (pruned : Pruned), tree.root.prune limit = .ok pruned →
      Distinct pruned.root ∧ ∀ f ∈ pruned.fragments, AllDistinct f.children) ∧
    ∀ (c : Compiler) (e : Expression) (tree : Selection), c.tree e = .ok tree →
      ∃ unpruned : Unpruned, unpruned.root = tree :=
  ⟨fun _ _ _ h => normalize_again h, fun _ _ h => tidy_of_prune h,
    fun _ _ h => distinct_of_prune h, fun _ _ _ h => exists_unpruned h⟩

/-- The makers of the media, which two selections select. -/
theorem normalForm_of_makers :
    ∃ tree children pruned, libraryCompiler.tree allMakers = .ok tree ∧
      normalize 8 9 tree.children = .ok children ∧ normalize 8 9 children = .ok children ∧
      tree.prune 8 = .ok pruned ∧
      (Tidy pruned.root.children ∧ ∀ f ∈ pruned.fragments, Tidy f.children) ∧
      Distinct pruned.root ∧ ∀ f ∈ pruned.fragments, AllDistinct f.children := by
  obtain ⟨tree, htree⟩ : ∃ tree, libraryCompiler.tree allMakers = .ok tree := ⟨_, rfl⟩
  obtain ⟨children, hchildren⟩ : ∃ children, normalize 8 9 tree.children = .ok children := by
    cases htree
    exact ⟨_, rfl⟩
  obtain ⟨pruned, hpruned⟩ : ∃ pruned, tree.prune 8 = .ok pruned := by
    cases htree
    exact ⟨_, rfl⟩
  rcases normalForm_of_prune 8 with ⟨hagain, htidy, hdistinct, hunpruned⟩
  rcases hunpruned libraryCompiler allMakers tree htree with ⟨tree, rfl⟩
  exact ⟨tree.root, children, pruned, htree, hchildren, hagain 9 _ _ hchildren, hpruned,
    htidy _ pruned hpruned, hdistinct tree pruned hpruned⟩

end Compiler

end GraphQuery
