import GraphQuery.Context
import GraphQuery.Proofs.Compiler

/-!
# Renaming — names given by a naming, and names written out

A naming is looked up in several places: for the domain types of roots, casts and fragments and for
members, where an expression is compiled, and once more for casts and members where it is evaluated.
All of them together do what writing the names of the schema into the expression does: it compiles
to the same query without a naming, and it has the same value.

- `Expression.renamed` : an expression in which the names are those that a naming gives
- `CompileError.renamed` : a failure as it reports these names
- `Compiler.agree_select_renamed` : the trees agree, and so do the failures
- `Evaluation.value_renamed` : the values agree
- `QueryContext.withNaming_identity_renamed` : compilation and evaluation without a naming
- `QueryContext.execute_renamed` : what is sent, materialized and evaluated agrees as well
-/

set_option autoImplicit false

namespace GraphQuery

open Outcome (Agree)

/-! ## Names written out -/

/-- The member that is called like its field. -/
def Member.renamed (naming : Naming) (m : Member) : Member :=
  { m with name := naming.fieldName m }

/-- The expression in which every domain type is called like its type, and every member like its
field. A query field is named as it is. -/
def Expression.renamed (naming : Naming) : Expression → Expression
  | .root domainType entryPoint => .root (naming.typeName domainType) entryPoint
  | .current => .current
  | .member target m => .member (target.renamed naming) (m.renamed naming)
  | .project source selector => .project (source.renamed naming) (selector.renamed naming)
  | .projectMany source selector => .projectMany (source.renamed naming) (selector.renamed naming)
  | .filter source arguments => .filter (source.renamed naming) arguments
  | .including source selector => .including (source.renamed naming) (selector.renamed naming)
  | .cast source domainType => .cast (source.renamed naming) (naming.typeName domainType)
  | .withFragment source name domainType selection =>
      .withFragment (source.renamed naming) name (naming.typeName domainType)
        (selection.renamed naming)

/-- A failure as it is reported when the names are written out. Two causes name what was looked
for. -/
def CompileError.renamed (naming : Naming) : CompileError → CompileError
  | .unknownType _ typeName => .unknownType typeName typeName
  | .unmappedMember m graphType => .unmappedMember (m.renamed naming) graphType
  | cause => cause

/-! ## Trees -/

namespace Compiler

/-- The compiler that takes all names as they are written. -/
def unnamed (c : Compiler) : Compiler := { c with naming := Naming.identity }

@[simp] theorem schema_unnamed (c : Compiler) : c.unnamed.schema = c.schema := rfl

@[simp] theorem configuration_unnamed (c : Compiler) :
    c.unnamed.configuration = c.configuration := rfl

/-- Two computations with one result, or with failures that report the names of each side. -/
abbrev AgreeRenamed {α : Type} (c : Compiler) (x y : Except CompileError α) : Prop :=
  Agree (fun cause other => other = cause.renamed c.naming) Eq x y

variable {c : Compiler} {scope : Scope} {e : Expression}

theorem agree_resolveType (c : Compiler) (domainType : String) :
    c.AgreeRenamed (c.resolveType domainType)
      (c.unnamed.resolveType (c.naming.typeName domainType)) := by
  have hname : c.unnamed.naming.typeName (c.naming.typeName domainType) =
      c.naming.typeName domainType := rfl
  unfold resolveType
  rw [hname, schema_unnamed]
  dsimp only
  split
  · exact .ok rfl
  · exact .error rfl

theorem agree_resolveMember (c : Compiler) (m : Member) (owner : TypeRef) :
    c.AgreeRenamed (c.resolveMember m owner)
      (c.unnamed.resolveMember (m.renamed c.naming) owner) := by
  have hname : c.unnamed.naming.fieldName (m.renamed c.naming) = c.naming.fieldName m := rfl
  unfold resolveMember
  rw [hname, schema_unnamed]
  split
  · exact .error rfl
  · split
    · exact .ok rfl
    · exact .error rfl

/-- Entry points are looked for by types, and those that are named by the names of fields. -/
theorem agreeRenamed_entryField (c : Compiler) (type : GraphType) (entryPoint : Option String)
    (arguments : Option ArgumentSource) :
    c.AgreeRenamed (c.entryField type entryPoint arguments)
      (c.unnamed.entryField type entryPoint arguments) := by
  unfold entryField
  rw [schema_unnamed]
  dsimp only
  split
  · split
    · split
      · exact .ok rfl
      · exact .error rfl
    · exact .error rfl
  · split
    · exact .ok rfl
    · exact .error rfl
    · exact .error rfl

theorem agreeRenamed_fieldNode (c : Compiler) (field : Field) (scope : Scope) :
    c.AgreeRenamed (c.fieldNode field scope) (c.unnamed.fieldNode field scope) := by
  unfold fieldNode
  rw [schema_unnamed]
  cases field.arguments.isEmpty with
  | true => exact .ok rfl
  | false =>
      cases scope.arguments with
      | some source => exact .ok rfl
      | none => exact .error rfl

theorem elementOwner?_renamed (naming : Naming) (scope : Scope) (target : Expression) :
    scope.elementOwner? (target.renamed naming) = scope.elementOwner? target := by
  cases target <;> rfl

/-- In every scope an expression has the tree and the head that it has when its names are written
out. -/
theorem agree_select_renamed (c : Compiler) (e : Expression) (scope : Scope) :
    c.AgreeRenamed (c.select e scope) (c.unnamed.select (e.renamed c.naming) scope) := by
  induction e generalizing scope with
  | root domainType entryPoint =>
      rw [Expression.renamed, select, select, configuration_unnamed]
      split
      · exact .error rfl
      · apply (c.agree_resolveType domainType).bind
        rintro type _ rfl
        apply (c.agreeRenamed_entryField type entryPoint scope.arguments).bind
        rintro field _ rfl
        apply (c.agreeRenamed_fieldNode field scope).bind
        rintro node _ rfl
        exact .ok rfl
  | current =>
      rw [Expression.renamed, select, select, configuration_unnamed]
      split
      · exact .error rfl
      · split
        · exact .ok rfl
        · exact .error rfl
  | member target m ih =>
      rw [Expression.renamed, select, select, configuration_unnamed, elementOwner?_renamed]
      split
      · exact .error rfl
      · split
        · next owner _ =>
            apply (c.agree_resolveMember m owner).bind
            rintro field _ rfl
            apply (c.agreeRenamed_fieldNode field scope).bind
            rintro node _ rfl
            exact .ok rfl
        · apply (ih scope.inner).bind
          rintro source _ rfl
          apply (c.agree_resolveMember m source.owner).bind
          rintro field _ rfl
          apply (c.agreeRenamed_fieldNode field scope).bind
          rintro node _ rfl
          exact .ok rfl
  | project source selector ihSource ihSelector
  | projectMany source selector ihSource ihSelector =>
      rw [Expression.renamed, select, select, configuration_unnamed]
      split
      · exact .error rfl
      · apply (ihSource scope.inner).bind
        rintro source _ rfl
        apply (ihSelector _).bind
        rintro selected _ rfl
        exact .ok rfl
  | filter source arguments ih =>
      rw [Expression.renamed, select, select, configuration_unnamed]
      split
      · exact .error rfl
      · exact ih _
  | including source selector ihSource ihSelector =>
      rw [Expression.renamed, select, select, configuration_unnamed]
      split
      · exact .error rfl
      · apply (ihSource scope.nested).bind
        rintro source _ rfl
        apply (ihSelector _).bind
        rintro selected _ rfl
        exact .ok rfl
  | cast source domainType ih =>
      rw [Expression.renamed, select, select, configuration_unnamed]
      split
      · exact .error rfl
      · apply (ih scope.nested).bind
        rintro source _ rfl
        apply (c.agree_resolveType domainType).bind
        rintro target _ rfl
        have hcastable : ∀ parent, c.unnamed.castable parent target = c.castable parent target :=
          fun _ => rfl
        rw [hcastable]
        split
        · exact .ok rfl
        · exact .error rfl
  | withFragment source name domainType selection ihSource ihSelection =>
      rw [Expression.renamed, select, select, configuration_unnamed]
      split
      · exact .error rfl
      · apply (ihSource scope.nested).bind
        rintro source _ rfl
        apply (c.agree_resolveType domainType).bind
        rintro type _ rfl
        have happlicable : c.unnamed.applicable source.owner type.typeRef =
            c.applicable source.owner type.typeRef := rfl
        dsimp only
        rw [happlicable]
        split
        · exact .error rfl
        · split
          · exact .error rfl
          · apply (ihSelection _).bind
            rintro definition _ rfl
            split
            · exact .ok rfl
            · exact .error rfl

theorem agree_tree_renamed (c : Compiler) (e : Expression) :
    c.AgreeRenamed (c.tree e) (c.unnamed.tree (e.renamed c.naming)) := by
  apply (c.agree_select_renamed e _).bind
  rintro selected _ rfl
  exact .ok rfl

/-- A query is compiled from an expression just when it is compiled from the names written out. -/
theorem compile_renamed (c : Compiler) (e : Expression) (query : CompiledQuery) :
    c.unnamed.compile (e.renamed c.naming) = .ok query ↔ c.compile e = .ok query := by
  have htree := c.agree_tree_renamed e
  unfold compile
  -- Pruning and binding see the tree only.
  cases hx : c.tree e <;> cases hy : c.unnamed.tree (e.renamed c.naming) <;> rw [hx, hy] at htree
  · exact ⟨nofun, nofun⟩
  · cases htree
  · cases htree
  · cases htree with
    | ok heq =>
        cases heq
        exact Iff.rfl

end Compiler

/-! ## Values -/

namespace Evaluation

/-- The evaluation that takes all names as they are written. -/
def unnamed (ev : Evaluation) : Evaluation := { ev with naming := Naming.identity }

mutual

theorem member_renamed (ev : Evaluation) (m : Member) (v : Value) :
    ev.unnamed.member (m.renamed ev.naming) v = ev.member m v := by
  cases v with
  | null => rw [member, member]
  | leaf json => rw [member, member]
  | object id =>
      rw [member, member]
      rfl
  | list items => rw [member, member, members_renamed]

theorem members_renamed (ev : Evaluation) (m : Member) (items : List Value) :
    ev.unnamed.members (m.renamed ev.naming) items = ev.members m items := by
  cases items with
  | nil => rw [members, members]
  | cons item rest => rw [members, members, member_renamed, members_renamed]

end

theorem isInstance_renamed (ev : Evaluation) (domainType : String) :
    ev.unnamed.isInstance (ev.naming.typeName domainType) = ev.isInstance domainType := rfl

theorem value_renamed (ev : Evaluation) (input : Value) (e : Expression) :
    ev.unnamed.value input (e.renamed ev.naming) = ev.value input e := by
  induction e generalizing input with
  | root domainType entryPoint | current => rfl
  | member target m ih => rw [Expression.renamed, value, value, ih, member_renamed]
  | project source selector ihSource ihSelector =>
      rw [Expression.renamed, value, value, ihSource, funext ihSelector]
  | projectMany source selector ihSource ihSelector =>
      rw [Expression.renamed, value, value, ihSource, funext ihSelector]
  | filter source arguments ih => rw [Expression.renamed, value, value, ih]
  | including source selector ihSource ihSelector =>
      rw [Expression.renamed, value, value, ihSource]
  | cast source domainType ih =>
      rw [Expression.renamed, value, value, ih, isInstance_renamed]
  | withFragment source name domainType selection ihSource ihSelection =>
      rw [Expression.renamed, value, value, ihSource]

end Evaluation

/-! ## Contexts -/

namespace QueryContext

variable {M : Type → Type} [Monad M]

theorem evaluate_renamed (context : QueryContext) (store : Store) (e : Expression) (root : Value) :
    (context.withNaming .identity).evaluate store (e.renamed context.compiler.naming) root =
      context.evaluate store e root :=
  Evaluation.value_renamed ⟨store.heap, context.compiler.schema, context.compiler.naming⟩ root e

/-- An expression that compiles is executed as it is when its names are written out: the same is
sent, materialized and selected. -/
theorem execute_renamed (context : QueryContext) (transport : Request → M (Except String Json))
    {e : Expression} {query : CompiledQuery} (h : context.compile e = .ok query) :
    (context.withNaming .identity).execute transport (e.renamed context.compiler.naming) =
      context.execute transport e := by
  have hrenamed : (context.withNaming .identity).compile (e.renamed context.compiler.naming) =
      .ok query := (context.compiler.compile_renamed e query).2 h
  unfold execute
  rw [h, hrenamed]
  simp only [evaluate_renamed]
  rfl

/-- Naming is renaming: whatever the schema, the configuration and the naming are, an expression and
the one with the names written out compile to the same query, if either of them compiles, and they
have the same value whatever the value of the root is. -/
theorem withNaming_identity_renamed (context : QueryContext) (e : Expression) :
    (∀ query, context.compile e = .ok query ↔
        (context.withNaming .identity).compile (e.renamed context.compiler.naming) = .ok query) ∧
      ∀ store root, context.evaluate store e root =
        (context.withNaming .identity).evaluate store (e.renamed context.compiler.naming) root :=
  ⟨fun query => (context.compiler.compile_renamed e query).symm,
    fun store root => (context.evaluate_renamed store e root).symm⟩

end QueryContext

end GraphQuery
