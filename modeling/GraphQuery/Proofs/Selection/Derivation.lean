import GraphQuery.Proofs.Keyed
import GraphQuery.Proofs.Outcome
import GraphQuery.Selection.OfExpression

/-!
# Selection.Derivation — the trees of expressions as a relation

Compiling an expression either fails or puts its tree together from those of its parts. One rule
for each kind of step says how, so that what holds of every tree can be shown rule by rule.

- `Schema.mem_expansion` : the nodes that a type brings along
- `Compiler.fieldNode_eq_ok`, `Compiler.resolveMember_eq_ok` : what the parts of a step give
- `Compiler.Derives` : the rules
- `Compiler.derives_of_select` : every tree of an expression comes about by the rules
-/

set_option autoImplicit false

namespace GraphQuery

/-! ## What a type brings along -/

namespace Schema

variable {s : Schema} {defaultScalars : Bool} {node : Selection}

theorem mem_leafFields {owner : TypeRef} (h : node ∈ s.leafFields owner) :
    ∃ fields field, s.fields? owner = some fields ∧ field ∈ fields ∧ field.arguments = [] ∧
      node = .node (.field field.name field.type [] none) [] := by
  rcases List.mem_filterMap.1 h with ⟨field, hfield, h⟩
  cases hfields : s.fields? owner with
  | none => simp [hfields] at hfield
  | some fields =>
      rw [hfields, Option.getD_some] at hfield
      split at h
      · next hleaf =>
          cases h
          rw [Bool.and_eq_true, List.isEmpty_iff] at hleaf
          exact ⟨fields, field, rfl, hfield, hleaf.2, rfl⟩
      · cases h

theorem mem_subtypeNode {kind : TypeKind} {type : TypeRef}
    (h : node ∈ (s.subtypeNode defaultScalars kind type).children) :
    node ∈ s.leafFields type := by
  have h : node ∈ (if defaultScalars then s.leafFields type else []) := h
  split at h
  · exact h
  · cases h

theorem mem_expansion {type : GraphType} (h : node ∈ s.expansion type defaultScalars) :
    node ∈ s.leafFields type.typeRef ∨ node = .node (.typename type.terminal) [] ∨
      (∃ object ∈ s.possibleTypes type.typeRef,
        node = s.subtypeNode defaultScalars .object object) ∨
      ∃ interface ∈ s.sharedInterfaces type.typeRef,
        node = s.subtypeNode defaultScalars .interface interface := by
  have hleaves : node ∈ (if defaultScalars then s.leafFields type.typeRef else []) →
      node ∈ s.leafFields type.typeRef := by
    intro hnode
    split at hnode
    · exact hnode
    · cases hnode
  unfold expansion at h
  dsimp only at h
  split at h
  · -- An abstract type brings its discriminator and the types that can stand for it.
    rcases List.mem_append.1 h with h | h
    · exact .inl (hleaves h)
    · rcases List.mem_cons.1 h with rfl | h
      · exact .inr (.inl rfl)
      · rcases List.mem_append.1 h with h | h
        · rcases List.mem_map.1 h with ⟨object, hobject, rfl⟩
          exact .inr (.inr (.inl ⟨object, hobject, rfl⟩))
        · rcases List.mem_map.1 h with ⟨interface, hinterface, rfl⟩
          exact .inr (.inr (.inr ⟨interface, hinterface, rfl⟩))
  · exact .inl (hleaves h)

/-- A shared interface is one of a possible type. -/
theorem mem_sharedInterfaces {type interface : TypeRef}
    (h : interface ∈ s.sharedInterfaces type) :
    ∃ object ∈ s.possibleTypes type, interface ∈ s.interfaces object := by
  have hmet := Keyed.mem_distinct.1 (List.mem_filter.1 h).1
  rcases List.mem_flatMap.1 hmet with ⟨object, hobject, hinterface⟩
  exact ⟨object, hobject, (List.mem_filter.1 hinterface).1⟩

end Schema

namespace Compiler

variable {c : Compiler} {scope : Scope}

/-! ## Names and nodes -/

theorem resolveType_eq_ok {domainType : String} {type : GraphType}
    (h : c.resolveType domainType = .ok type) :
    c.schema.graphType? (c.naming.typeName domainType) = some type := by
  unfold resolveType at h
  dsimp only at h
  split at h
  · next found hfound =>
      cases h
      exact hfound
  · cases h

theorem mem_of_findField? {s : Schema} {owner : TypeRef} {name : String} {field : Field}
    (h : s.findField? owner name = some field) :
    ∃ fields, s.fields? owner = some fields ∧ field ∈ fields := by
  rcases Option.bind_eq_some_iff.1 h with ⟨fields, hfields, h⟩
  refine ⟨fields, hfields, ?_⟩
  rw [Option.orElse_eq_orElse, Option.orElse_eq_or, Option.or_eq_some_iff] at h
  rcases h with h | ⟨-, h⟩
  · exact (Keyed.mem_of_find? h).1
  · exact List.mem_of_find?_eq_some h

theorem findField?_of_resolveMember {member : Member} {owner : TypeRef} {field : Field}
    (h : c.resolveMember member owner = .ok field) :
    c.schema.findField? owner (c.naming.fieldName member) = some field := by
  unfold resolveMember at h
  split at h
  · cases h
  · split at h
    · next found hfound =>
        cases h
        exact hfound
    · cases h

theorem resolveMember_eq_ok {member : Member} {owner : TypeRef} {field : Field}
    (h : c.resolveMember member owner = .ok field) :
    ∃ fields, c.schema.fields? owner = some fields ∧ field ∈ fields :=
  mem_of_findField? (findField?_of_resolveMember h)

/-- An entry point is a field of the query type. -/
theorem entryField_eq_ok {type : GraphType} {entryPoint : Option String}
    {arguments : Option ArgumentSource} {field : Field}
    (h : c.entryField type entryPoint arguments = .ok field) :
    ∃ fields, c.schema.fields? c.schema.queryType = some fields ∧ field ∈ fields := by
  unfold entryField at h
  dsimp only at h
  -- An entry point that is named is looked up; otherwise there has to be just one that fits.
  split at h
  · split at h
    · next found hfound =>
        split at h
        · cases h
          exact mem_of_findField? hfound
        · cases h
    · cases h
  · split at h
    · next only honly =>
        cases h
        have hmem : field ∈ ((c.schema.fields? c.schema.queryType).getD []).filter _ :=
          honly ▸ List.mem_singleton.2 rfl
        have hfield := (List.mem_filter.1 hmem).1
        cases hfields : c.schema.fields? c.schema.queryType with
        | none => simp [hfields] at hfield
        | some fields => exact ⟨fields, rfl, by simpa [hfields] using hfield⟩
    · cases h
    · cases h

theorem fieldNode_eq_ok {field : Field} {node : Selection}
    (h : c.fieldNode field scope = .ok node) :
    ∃ source : Option ArgumentSource, (source.isSome = true ↔ field.arguments ≠ []) ∧
      (∀ x, source = some x → scope.arguments = some x) ∧
      node = .node (.field field.name field.type field.arguments source)
        (if field.type.isComposite then c.schema.expansion field.type scope.defaultScalars
          else []) := by
  unfold fieldNode at h
  dsimp only at h
  split at h
  · next hnone =>
      cases h
      exact ⟨none, by simpa using hnone, nofun, rfl⟩
  · next hsome =>
      split at h
      · next source hsource =>
          cases h
          exact ⟨some source, by simpa using hsome, fun _ hx => hsource.trans hx, rfl⟩
      · cases h

/-! ## Rules -/

/-- How the tree of an expression comes about, with a rule for each kind of step. -/
inductive Derives (c : Compiler) : Expression → Scope → Focused → Prop where
  | root {domainType : String} {entryPoint : Option String} {scope : Scope} {type : GraphType}
      {field : Field} {node : Selection} :
      c.resolveType domainType = .ok type →
      c.entryField type entryPoint scope.arguments = .ok field →
      c.fieldNode field scope = .ok node →
      Derives c (.root domainType entryPoint) scope (.ofRoot node)
  | fragment {scope : Scope} {name : String} {type : GraphType} :
      scope.current = .fragment name type →
      Derives c .current scope (.ofRoot (.node (.fragment name type)
        (c.schema.expansion type c.configuration.defaultScalars)))
  | elementMember {member : Member} {scope : Scope} {owner : TypeRef} {field : Field}
      {node : Selection} :
      scope.current = .element owner → c.resolveMember member owner = .ok field →
      c.fieldNode field scope = .ok node →
      Derives c (.member .current member) scope (.ofRoot node)
  | member {target : Expression} {member : Member} {scope : Scope} {source : Focused}
      {field : Field} {node : Selection} :
      Derives c target scope.inner source → c.resolveMember member source.owner = .ok field →
      c.fieldNode field scope = .ok node →
      Derives c (.member target member) scope (source.attach (.ofRoot node) true)
  | project {e selector : Expression} {scope : Scope} {source selected : Focused} :
      Derives c e scope.inner source →
      Derives c selector { scope.nested with current := .element source.owner } selected →
      Derives c (.project e selector) scope (source.attach selected true)
  | projectMany {e selector : Expression} {scope : Scope} {source selected : Focused} :
      Derives c e scope.inner source →
      Derives c selector { scope.nested with current := .element source.owner } selected →
      Derives c (.projectMany e selector) scope (source.attach selected true)
  | filter {e : Expression} {arguments : ArgumentSource} {scope : Scope} {selected : Focused} :
      Derives c e { scope.nested with arguments := some arguments } selected →
      Derives c (.filter e arguments) scope selected
  | including {e selector : Expression} {scope inner : Scope} {source selected : Focused} :
      Derives c e scope.nested source → inner.current = .element source.owner →
      inner.arguments = none → Derives c selector inner selected →
      Derives c (.including e selector) scope (source.attach selected false)
  | cast {e : Expression} {domainType : String} {scope : Scope} {source : Focused}
      {target : GraphType} :
      Derives c e scope.nested source → c.resolveType domainType = .ok target →
      c.castable source.head.label.type.terminal target = true →
      Derives c (.cast e domainType) scope (source.attach (.ofRoot (.node (.subtype target)
        (c.schema.expansion target scope.defaultScalars))) true)
  | withFragment {e selection : Expression} {name fragment domainType : String}
      {scope inner : Scope} {source definition : Focused} {type fragmentType : GraphType} :
      Derives c e scope.nested source → c.resolveType domainType = .ok type →
      type.isComposite = true → c.applicable source.owner type.typeRef = true →
      inner.current = .fragment name type → inner.arguments = none →
      Derives c selection inner definition →
      definition.root.label = .fragment fragment fragmentType →
      Derives c (.withFragment e name domainType selection) scope
        (source.attach (.ofRoot definition.root) false)

theorem elementOwner?_eq_some {target : Expression} {owner : TypeRef}
    (h : scope.elementOwner? target = some owner) :
    target = .current ∧ scope.current = .element owner := by
  cases target with
  | current =>
      refine ⟨rfl, ?_⟩
      simp only [Scope.elementOwner?] at h
      split at h
      · next found hcurrent =>
          cases h
          exact hcurrent
      · cases h
  | _ => cases h

/-- A tree that is compiled comes about by the rules. -/
theorem derives_of_select {e : Expression} {f : Focused} (h : c.select e scope = .ok f) :
    c.Derives e scope f := by
  -- Every case starts with the check of the depth, which fails before anything is looked at.
  induction e generalizing scope f with
  | root domainType entryPoint =>
      rw [select] at h
      split at h
      · cases h
      · rcases Outcome.bind_eq_ok_iff.1 h with ⟨type, htype, h⟩
        rcases Outcome.bind_eq_ok_iff.1 h with ⟨field, hfield, h⟩
        rcases Outcome.bind_eq_ok_iff.1 h with ⟨node, hnode, h⟩
        cases h
        exact .root htype hfield hnode
  | current =>
      rw [select] at h
      split at h
      · cases h
      · split at h
        · next name type hcurrent =>
            cases h
            exact .fragment hcurrent
        · cases h
  | member target member ih =>
      rw [select] at h
      split at h
      · cases h
      · -- A member of the element starts a tree; any other one goes below the tree of its target.
        split at h
        · next owner howner =>
            rcases Outcome.bind_eq_ok_iff.1 h with ⟨field, hfield, h⟩
            rcases Outcome.bind_eq_ok_iff.1 h with ⟨node, hnode, h⟩
            cases h
            rcases elementOwner?_eq_some howner with ⟨rfl, hcurrent⟩
            exact .elementMember hcurrent hfield hnode
        · rcases Outcome.bind_eq_ok_iff.1 h with ⟨source, hsource, h⟩
          rcases Outcome.bind_eq_ok_iff.1 h with ⟨field, hfield, h⟩
          rcases Outcome.bind_eq_ok_iff.1 h with ⟨node, hnode, h⟩
          cases h
          exact .member (ih hsource) hfield hnode
  | project e selector ihSource ihSelector =>
      rw [select] at h
      split at h
      · cases h
      · rcases Outcome.bind_eq_ok_iff.1 h with ⟨source, hsource, h⟩
        rcases Outcome.bind_eq_ok_iff.1 h with ⟨selected, hselected, h⟩
        cases h
        exact .project (ihSource hsource) (ihSelector hselected)
  | projectMany e selector ihSource ihSelector =>
      rw [select] at h
      split at h
      · cases h
      · rcases Outcome.bind_eq_ok_iff.1 h with ⟨source, hsource, h⟩
        rcases Outcome.bind_eq_ok_iff.1 h with ⟨selected, hselected, h⟩
        cases h
        exact .projectMany (ihSource hsource) (ihSelector hselected)
  | filter e arguments ih =>
      rw [select] at h
      split at h
      · cases h
      · exact .filter (ih h)
  | including e selector ihSource ihSelector =>
      rw [select] at h
      split at h
      · cases h
      · rcases Outcome.bind_eq_ok_iff.1 h with ⟨source, hsource, h⟩
        rcases Outcome.bind_eq_ok_iff.1 h with ⟨selected, hselected, h⟩
        cases h
        exact .including (ihSource hsource) rfl rfl (ihSelector hselected)
  | cast e domainType ih =>
      rw [select] at h
      split at h
      · cases h
      · rcases Outcome.bind_eq_ok_iff.1 h with ⟨source, hsource, h⟩
        dsimp only at h
        rcases Outcome.bind_eq_ok_iff.1 h with ⟨target, htarget, h⟩
        split at h
        · next hcastable =>
            cases h
            exact .cast (ih hsource) htarget hcastable
        · cases h
  | withFragment e name domainType selection ihSource ihSelection =>
      rw [select] at h
      split at h
      · cases h
      · rcases Outcome.bind_eq_ok_iff.1 h with ⟨source, hsource, h⟩
        rcases Outcome.bind_eq_ok_iff.1 h with ⟨type, htype, h⟩
        dsimp only at h
        split at h
        · cases h
        · next hcomposite =>
            split at h
            · cases h
            · next happlicable =>
                rcases Outcome.bind_eq_ok_iff.1 h with ⟨definition, hdefinition, h⟩
                split at h
                · next fragment fragmentType hlabel =>
                    cases h
                    exact .withFragment (ihSource hsource) htype (by simpa using hcomposite)
                      (by simpa using happlicable) rfl rfl (ihSelection hdefinition) hlabel
                · cases h

end Compiler

end GraphQuery
