import GraphQuery.Proofs.Reordering
import GraphQuery.Proofs.Selection.Repetition

/-!
# Repetition — the same inclusion once more

What an expression includes a second time comes behind what it includes the first time, as a copy of
it, so pruning takes it away again.

- `Compiler.exists_tree_once` : the tree with the selector included once
- `Compiler.compile_including_twice` : the query is the same
-/

set_option autoImplicit false

namespace GraphQuery

namespace Selection

theorem repeatsBelow_push (child s : Selection) :
    RepeatsBelow (push child s) (push child (push child s)) := by
  refine ⟨by simp only [label_push], ?_⟩
  simp only [children_push]
  exact .again (.refl _) (List.mem_append_right _ (List.mem_singleton_self child))

theorem repeatsBelow_modifyAt {f g : Selection → Selection} (h : ∀ s, RepeatsBelow (f s) (g s))
    (path : List Nat) (s : Selection) : RepeatsBelow (s.modifyAt f path) (s.modifyAt g path) :=
  modifyAt_congr (fun _ _ _ hxy => ⟨rfl, .of_forall₂ hxy⟩) h path s

end Selection

namespace Compiler

variable {c : Compiler} {e selector : Expression}

/-- What compiles with a selector included twice compiles with the selector included once, a level
less deep, and only the repetition is missing. -/
theorem exists_select_once {scope : Scope} {twice : Focused}
    (h : c.select (.including (.including e selector) selector) scope = .ok twice) :
    ∃ once, c.select (.including e selector) scope = .ok once ∧
      once.root.RepeatsBelow twice.root := by
  rcases including_including_eq_ok h with ⟨source, first, second, hsource, hfirst, hsecond, hroot⟩
  rcases including_eq_ok h with ⟨once, _, honce, -, -⟩
  have hshallow := select_of_le honce (Nat.le_succ scope.depth)
  refine ⟨once, hshallow, ?_⟩
  rcases including_eq_ok honce with ⟨source', first', hsource', hfirst', rfl⟩
  cases hsource.symm.trans hsource'
  cases hfirst.symm.trans hfirst'
  -- The second time, the selector is one level less deep.
  cases (select_of_le hfirst (Nat.le_succ _)).symm.trans hsecond
  rw [hroot]
  exact Selection.repeatsBelow_modifyAt (Selection.repeatsBelow_push first.root) _ _

theorem exists_tree_once {tree : Selection}
    (h : c.tree (.including (.including e selector) selector) = .ok tree) :
    ∃ once, c.tree (.including e selector) = .ok once ∧ once.RepeatsBelow tree := by
  rcases Outcome.bind_eq_ok_iff.1 h with ⟨twice, htwice, h⟩
  cases h
  rcases exists_select_once htwice with ⟨once, honce, hrepeats⟩
  exact ⟨once.root, Outcome.bind_eq_ok_iff.2 ⟨once, honce, rfl⟩, hrepeats⟩

/-- Including a selector a second time changes nothing: the query has the same document, the same
variables with the same values in the same order, and the same entry point of the same type. -/
theorem compile_including_twice {query : CompiledQuery}
    (h : c.compile (.including (.including e selector) selector) = .ok query) :
    c.compile (.including e selector) = .ok query := by
  rcases Outcome.bind_eq_ok_iff.1 h with ⟨tree, htree, h⟩
  rcases exists_tree_once htree with ⟨once, honce, hrepeats⟩
  refine Outcome.bind_eq_ok_iff.2 ⟨once, honce, ?_⟩
  rw [hrepeats.label, Selection.prune_eq_of_repeatsBelow hrepeats]
  exact h

/-- The makers with a fragment and, in an inclusion of its own, their identities. -/
def identifiedMaker : Expression :=
  .including itsNamedMaker (.member .current ⟨"Person", "id"⟩)

theorem compile_identifiedMaker_twice :
    ∃ query, libraryCompiler.compile (mediaWith identifiedMaker identifiedMaker) = .ok query ∧
      libraryCompiler.compile (.including (.filter (.root "Media" (some "media"))
        (.ofMembers 0 [("first", .null)])) identifiedMaker) = .ok query := by
  obtain ⟨query, hquery⟩ : ∃ query,
      libraryCompiler.compile (mediaWith identifiedMaker identifiedMaker) = .ok query :=
    Outcome.exists_of_isOk rfl
  exact ⟨query, hquery, compile_including_twice hquery⟩

end Compiler

end GraphQuery
