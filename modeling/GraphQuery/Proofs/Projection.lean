import GraphQuery.Context
import GraphQuery.Proofs.Compiler

/-!
# Projection — a member as a projection

A member of an expression is a step of its own, and it can also be what the expression is projected
onto. Compilation puts the field of a member directly below its source, but it takes a selector for
a tree of its own, in a scope one level deeper, and attaches that. Evaluation looks for a member in
lists at any depth, but it applies a selector to the items of one list. The results are the same,
except that the element of a selector has members and is nothing that could be projected.

- `Compiler.select_project_member` : the tree, or the failure, is the same
- `Compiler.select_project_element` : the element of a selector cannot be projected
- `Evaluation.value_project_member` : the value is the same
- `QueryContext.member_eq_project` : the two expressions compared in all respects
-/

set_option autoImplicit false

namespace GraphQuery

/-! ## Trees -/

namespace Compiler

variable {c : Compiler} {scope : Scope} {e : Expression}

/-- What compiles is not deeper than the recursion limit. -/
theorem depth_le_of_select {f : Focused} (h : c.select e scope = .ok f) :
    scope.depth ≤ c.configuration.recursionLimit := by
  by_contra hdeep
  cases e <;>
    · rw [select, if_pos (Nat.not_le.1 hdeep)] at h
      cases h

/-- A member of the element of a selector starts a tree with its field. -/
theorem select_member_current (c : Compiler) (m : Member) (scope : Scope) {owner : TypeRef}
    (hcurrent : scope.current = .element owner)
    (hdepth : scope.depth ≤ c.configuration.recursionLimit) :
    c.select (.member .current m) scope = do
      let field ← c.resolveMember m owner
      return .ofRoot (← c.fieldNode field scope) := by
  have howner : scope.elementOwner? .current = some owner := by
    simp only [Scope.elementOwner?, hcurrent]
  rw [select, if_neg (Nat.not_lt.2 hdepth), howner]

theorem select_project_member (m : Member) (h : scope.elementOwner? e = none) :
    c.select (.project e (.member .current m)) scope = c.select (.member e m) scope := by
  rw [select, select]
  split
  · rfl
  · rw [h]
    cases hsource : c.select e scope.inner with
    | error cause => rfl
    | ok source =>
        -- The selector is no deeper than the source, so the limit allows for it.
        have hdepth : scope.depth + 1 ≤ c.configuration.recursionLimit :=
          depth_le_of_select hsource
        have hselector := c.select_member_current m
          { scope.nested with current := .element source.owner } rfl hdepth
        refine (congrArg (fun selected => selected >>= fun selected =>
          pure (source.attach selected true)) hselector).trans ?_
        simp only [bind_assoc, pure_bind]
        rfl

/-- The element of a selector does not compile as the source of a projection. -/
theorem select_project_element {owner : TypeRef} (h : scope.elementOwner? e = some owner)
    (selector : Expression) (f : Focused) : c.select (.project e selector) scope ≠ .ok f := by
  intro hselect
  rcases elementOwner?_eq_some h with ⟨rfl, hcurrent⟩
  rw [select] at hselect
  split at hselect
  · cases hselect
  · rcases Outcome.bind_eq_ok_iff.1 hselect with ⟨source, hsource, -⟩
    have hdepth := depth_le_of_select hsource
    have hinner : scope.inner.current = .element owner := hcurrent
    rw [select, if_neg (Nat.not_lt.2 hdepth), hinner] at hsource
    cases hsource

theorem elementOwner?_eq_none (h : ¬ (e = .current ∧ ∃ owner, scope.current = .element owner)) :
    scope.elementOwner? e = none := by
  cases howner : scope.elementOwner? e with
  | none => rfl
  | some owner =>
      rcases elementOwner?_eq_some howner with ⟨he, hcurrent⟩
      exact absurd ⟨he, owner, hcurrent⟩ h

/-- A whole query has no element, so its members can all be written as projections. -/
theorem compile_project_member (c : Compiler) (e : Expression) (m : Member) :
    c.compile (.project e (.member .current m)) = c.compile (.member e m) := by
  have htree : c.tree (.project e (.member .current m)) = c.tree (.member e m) := by
    unfold tree
    rw [select_project_member m (by cases e <;> rfl)]
  unfold compile
  rw [htree]

end Compiler

/-! ## Values -/

namespace Evaluation

theorem members_eq_map (ev : Evaluation) (m : Member) (items : List Value) :
    ev.members m items = items.map (ev.member m) := by
  induction items with
  | nil => rw [members, List.map_nil]
  | cons item rest ih => rw [members, List.map_cons, ih]

/-- A member goes through lists of its own accord, so it does not matter that a selector is applied
to the items. -/
theorem each_member (ev : Evaluation) (m : Member) (v : Value) :
    each (ev.member m) v = ev.member m v := by
  cases v with
  | list items => rw [each, member, members_eq_map]
  | null => rw [each, member]
  | leaf json => rfl
  | object id => rfl

theorem value_project_member (ev : Evaluation) (input : Value) (e : Expression) (m : Member) :
    ev.value input (.project e (.member .current m)) = ev.value input (.member e m) := by
  simp only [value]
  exact each_member ev m (ev.value input e)

end Evaluation

/-! ## Contexts -/

namespace QueryContext

/-- A member of an expression and the projection onto it have the same tree with the same head or
fail alike in every scope, unless the expression is the element of a selector. They are compiled to
the same query, and evaluated to the same value whatever the value of the root is. -/
theorem member_eq_project (context : QueryContext) (e : Expression) (m : Member) :
    (∀ scope : Scope, ¬ (e = .current ∧ ∃ owner, scope.current = .element owner) →
        context.compiler.select (.member e m) scope =
          context.compiler.select (.project e (.member .current m)) scope) ∧
      context.compile (.member e m) = context.compile (.project e (.member .current m)) ∧
      ∀ store root, context.evaluate store (.member e m) root =
        context.evaluate store (.project e (.member .current m)) root := by
  refine ⟨fun scope h => ?_, ?_, fun store root => ?_⟩
  · exact (Compiler.select_project_member m (Compiler.elementOwner?_eq_none h)).symm
  · exact (Compiler.compile_project_member context.compiler e m).symm
  · exact (Evaluation.value_project_member _ root e m).symm

open Compiler (libraryCompiler allMakers)

/-- A library whose responses are materialized. -/
def readingContext : QueryContext where
  compiler := libraryCompiler
  materializer := .ofSchema libraryCompiler.schema libraryCompiler.configuration

def makerMember : Member := ⟨"Media", "maker"⟩

/-- The makers of the first media, as a member and as a projection, in the scope of a whole query.
Without a response there are none. -/
theorem makers_member_eq_project :
    (∃ f, libraryCompiler.select (.member allMakers makerMember) ⟨.unbound, true, none, 0⟩ = .ok f ∧
      libraryCompiler.select (.project allMakers (.member .current makerMember))
        ⟨.unbound, true, none, 0⟩ = .ok f) ∧
      (∃ query, readingContext.compile (.member allMakers makerMember) = .ok query ∧
        readingContext.compile (.project allMakers (.member .current makerMember)) = .ok query) ∧
      readingContext.evaluate Store.empty (.project allMakers (.member .current makerMember))
        .null = .null := by
  rcases member_eq_project readingContext allMakers makerMember with ⟨htree, hcompile, hvalue⟩
  have hsame : libraryCompiler.select (.member allMakers makerMember) ⟨.unbound, true, none, 0⟩ =
      libraryCompiler.select (.project allMakers (.member .current makerMember))
        ⟨.unbound, true, none, 0⟩ := htree _ (fun h => nomatch h.1)
  obtain ⟨f, hf⟩ : ∃ f, libraryCompiler.select (.member allMakers makerMember)
      ⟨.unbound, true, none, 0⟩ = .ok f := Outcome.exists_of_isOk rfl
  obtain ⟨query, hquery⟩ : ∃ query,
      readingContext.compile (.member allMakers makerMember) = .ok query :=
    Outcome.exists_of_isOk rfl
  refine ⟨⟨f, hf, hsame ▸ hf⟩, ⟨query, hquery, hcompile ▸ hquery⟩, ?_⟩
  rw [← hvalue]
  rfl

end QueryContext

end GraphQuery
