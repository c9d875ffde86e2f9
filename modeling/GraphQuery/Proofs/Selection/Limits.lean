import GraphQuery.Proofs.Selection.Rejection
import GraphQuery.Selection.OfExpression

/-!
# Selection.Limits — trees under two recursion limits

The recursion limit is looked at where an expression is gone through, and once more where the tree
is brought into normal form and where the fragments are. Each time it does nothing but stop. What
gets through has no more levels than the limit, and what happens to it afterwards adds no level but
that of spreads.

- `Compiler.limited` : a compiler with another recursion limit
- `Compiler.stopsShort_tree`, `Selection.stopsShort_prune` : each step under a lower limit stops
  short of the step under a higher one
- `Selection.within_of_normalize_levels` : normal form has no more levels than it is given
- `Selection.Shallow` : trees of bounded depth, but for spreads
- `Selection.shallow_of_prune` : a pruned query within its limit
-/

set_option autoImplicit false

namespace GraphQuery

open Outcome (StopsShort)

/-! ## Trees of expressions -/

namespace Compiler

/-- The same compiler under another recursion limit. -/
def limited (c : Compiler) (limit : Nat) : Compiler :=
  { c with configuration := { c.configuration with recursionLimit := limit } }

variable {limit limit' : Nat} (h : limit ≤ limit') (c : Compiler)
include h

/-- Under the lower limit an expression is given up at the first step that lies too deep. -/
theorem stopsShort_select (e : Expression) (scope : Scope) :
    StopsShort (.recursionLimitExceeded limit) ((c.limited limit).select e scope)
      ((c.limited limit').select e scope) := by
  -- Nothing but the check of the depth looks at the limit.
  induction e generalizing scope with
  | root domainType entryPoint =>
      rw [select, select]
      exact .guarded (Nat.lt_of_le_of_lt h) (.same _)
  | current =>
      rw [select, select]
      exact .guarded (Nat.lt_of_le_of_lt h) (.same _)
  | member target m ih =>
      rw [select, select]
      refine .guarded (Nat.lt_of_le_of_lt h) ?_
      split
      · exact .same _
      · exact (ih scope.inner).bind fun _ => .same _
  | project source selector ihSource ihSelector
  | projectMany source selector ihSource ihSelector
  | including source selector ihSource ihSelector =>
      rw [select, select]
      refine .guarded (Nat.lt_of_le_of_lt h) ((ihSource _).bind fun source => ?_)
      exact (ihSelector _).bind fun _ => .same _
  | filter source arguments ih =>
      rw [select, select]
      exact .guarded (Nat.lt_of_le_of_lt h) (ih _)
  | cast source domainType ih =>
      rw [select, select]
      exact .guarded (Nat.lt_of_le_of_lt h) ((ih _).bind fun _ => .same _)
  | withFragment source name domainType selection ihSource ihSelection =>
      rw [select, select]
      refine .guarded (Nat.lt_of_le_of_lt h) ((ihSource _).bind fun source => ?_)
      refine (StopsShort.same (c.resolveType domainType)).bind fun type => ?_
      have happlicable : (c.limited limit').applicable source.owner type.typeRef =
          (c.limited limit).applicable source.owner type.typeRef := rfl
      dsimp only
      rw [happlicable]
      split
      · exact .same (.error _)
      · split
        · exact .same (.error _)
        · exact (ihSelection _).bind fun _ => .same _

theorem stopsShort_tree (e : Expression) :
    StopsShort (.recursionLimitExceeded limit) ((c.limited limit).tree e)
      ((c.limited limit').tree e) :=
  (stopsShort_select h c e _).bind fun _ => .same _

end Compiler

namespace Selection

variable {limit limit' levels levels' n : Nat} {children out : List Selection}
  {tree node : Selection} {pruned : Pruned} {fragments : List FragmentDefinition}

/-! ## Pruned trees -/

theorem stopsShort_normalize (h : levels ≤ levels') (children : List Selection) :
    StopsShort (.recursionLimitExceeded limit) (normalize limit levels children)
      (normalize limit' levels' children) := by
  -- Each level uses up one of those that are left under either limit.
  induction levels generalizing levels' children with
  | zero =>
      rw [normalize]
      exact .stop _
  | succ levels ih =>
      cases levels' with
      | zero => exact absurd h (Nat.not_succ_le_zero levels)
      | succ levels' =>
          rw [normalize, normalize]
          refine (StopsShort.same (mergeAll children)).bind fun merged => ?_
          refine StopsShort.mapM fun child _ => ?_
          exact (ih (Nat.le_of_succ_le_succ h) child.children).bind fun _ => .same _

theorem stopsShort_normalize_fragment (h : limit ≤ limit') (f : FragmentDefinition) :
    StopsShort (.recursionLimitExceeded limit) (f.normalize limit) (f.normalize limit') :=
  (stopsShort_normalize (Nat.succ_le_succ h) f.children).bind fun _ => .same _

/-- What comes after normal form does not look at the limit. -/
theorem stopsShort_prune (h : limit ≤ limit') (tree : Selection) :
    StopsShort (.recursionLimitExceeded limit) (tree.prune limit) (tree.prune limit') := by
  rw [prune, prune]
  refine (stopsShort_normalize (Nat.succ_le_succ h) tree.children).bind fun children => ?_
  refine (StopsShort.same (extractAll [] children)).bind fun extracted => ?_
  refine (StopsShort.mapM fun f _ => stopsShort_normalize_fragment h f).bind fun _ => ?_
  exact .same _

/-! ## Levels that are left -/

/-- Normal form is given up where there are more levels than it is given. -/
theorem within_of_normalize_levels (h : normalize limit (levels + 1) children = .ok out) :
    ∀ node ∈ out, Within levels node := by
  induction levels generalizing children out with
  | zero =>
      -- A node would need a level of its own.
      intro node hnode
      rcases normalize_eq_ok h with ⟨_, -, hout⟩
      rcases Outcome.mem_right hout hnode with ⟨_, -, -, hbelow⟩
      cases hbelow
  | succ levels ih =>
      intro node hnode
      rcases normalize_eq_ok h with ⟨_, -, hout⟩
      rcases Outcome.mem_right hout hnode with ⟨_, -, -, hbelow⟩
      exact .of_children (ih hbelow)

/-- A tree of at most so many levels, where spreads do not count. -/
inductive Shallow : Nat → Selection → Prop where
  | spread {n : Nat} {name : String} {type : GraphType} {children : List Selection} :
      Shallow n (.node (.spread name type) children)
  | node {n : Nat} {label : Label} {children : List Selection} :
      (∀ child ∈ children, Shallow n child) → Shallow (n + 1) (.node label children)

/-- Spreads are all that substitution adds. -/
theorem Within.shallow_substitute (h : Within n node) : Shallow n (substitute fragments node) := by
  induction h with
  | node _ ih =>
      rw [substitute, substituteAll_eq_map]
      refine .node fun child hchild => ?_
      rcases mem_spreadAll hchild with hchild | ⟨-, f, -, rfl⟩
      · rcases List.mem_map.1 hchild with ⟨old, hold, rfl⟩
        exact ih old hold
      · exact .spread

theorem Within.shallow (h : Within n node) : Shallow n node := by
  induction h with
  | node _ ih => exact .node ih

theorem Shallow.elide (h : Shallow n node) : Shallow n (elide node) := by
  induction h with
  | spread =>
      rw [Selection.elide]
      exact .spread
  | node _ ih =>
      rw [Selection.elide]
      refine .node fun child hchild => ?_
      rcases mem_elideAll.1 hchild with ⟨old, hold, rfl, -⟩
      exact ih old hold

/-- The operation has its root above the levels that the limit allows, and so has every definition
of a fragment. -/
theorem shallow_of_prune (h : tree.prune limit = .ok pruned) :
    Shallow (limit + 1) pruned.root ∧
      ∀ f ∈ pruned.fragments, ∀ child ∈ f.children, Shallow limit child := by
  rcases prune_eq_ok h with ⟨children, nodes, found, fragments, p⟩
  constructor
  · -- Extraction puts spreads in the place of definitions, which makes no branch longer.
    have hnodes := within_of_extraction p.extracted (within_of_normalize_levels p.normal)
    rw [p.root]
    exact (Within.node hnodes).shallow_substitute.elide
  · -- Definitions that were put together are brought into normal form under the limit once more.
    intro f hf child hchild
    rcases Outcome.mem_right p.fragmentsElided hf with ⟨normal, hnormal, -, -, hchildren, -⟩
    rcases Outcome.mem_right p.fragmentsNormal hnormal with ⟨_, -, -, -, hbelow⟩
    rw [hchildren] at hchild
    rcases mem_elideAll.1 hchild with ⟨old, hold, rfl, -⟩
    exact (within_of_normalize_levels hbelow old hold).shallow.elide

end Selection

end GraphQuery
