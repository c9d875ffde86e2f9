import GraphQuery.Proofs.Selection.Labels
import GraphQuery.Proofs.Selection.Positions

/-!
# Selection.Filtering — the field that takes the arguments of a filter

A filter hands its arguments down to the field that is resolved last. Sources of selectors, what is
included, definitions of fragments and earlier members of a chain get none of them, so they end up
at one field at most, which is the nearest one above the head of the tree.

- `Focused.NearestField`, `Focused.NearestField.unique` : the field that is nearest to the head
- `Focused.NearestField.stay`, `Focused.NearestField.move` : it in trees that are put together
- `Expression.awaitsArguments` : expressions that hand down what they are handed
- `Compiler.Derives.mem_sources_or_nearestField` : no other node takes the arguments that are handed
  down
- `Compiler.Derives.exists_nearestField` : where the field is that an expression resolves last
- `Compiler.filter_takes_iff` : the nodes with the arguments of a filter
-/

set_option autoImplicit false

namespace GraphQuery

namespace Label

/-- Fields that a type declares, which are all but the discriminator. -/
def isDeclared : Label → Bool
  | .field _ _ _ _ => true
  | _ => false

/-- The values of the arguments come from a source. -/
def Takes (label : Label) (source : ArgumentSource) : Prop :=
  ∃ x, label.source? = some x ∧ x.identity = source.identity

/-- A field takes the arguments that are handed down to it if and only if it declares some. -/
def TakesHanded (label : Label) (handed : Option ArgumentSource) : Prop :=
  (label.source?.isSome = true ↔ label.arguments ≠ []) ∧
    ∀ x, label.source? = some x → handed = some x

end Label

namespace Selection

/-- What holds of all labels of a tree holds at every position. -/
theorem Every.at_position {P : Label → Prop} {root node : Selection} {position : List Nat}
    (h : Every P root) (hnode : root.descendant? position = some node) : P node.label := by
  induction position generalizing root with
  | nil =>
      cases hnode
      exact h.holds
  | cons i position ih =>
      rcases descendant?_cons_eq_some_iff.1 hnode with ⟨child, hchild, hnode⟩
      exact ih (h.children child (List.mem_of_getElem? hchild)) hnode

end Selection

/-! ## The nearest field -/

namespace Focused

variable {f g : Focused} {position : List Nat}

/-- The head or the ancestor of it that is a field, with no field between it and the head. -/
structure NearestField (f : Focused) (position : List Nat) : Prop where
  above : position <+: f.path
  field : ∃ node, f.root.descendant? position = some node ∧ node.label.isDeclared = true
  last : ∀ lower node, lower <+: f.path → f.root.descendant? lower = some node →
    node.label.isDeclared = true → lower.length ≤ position.length

theorem NearestField.unique {other : List Nat} (h : f.NearestField position)
    (hother : f.NearestField other) : position = other := by
  rcases h.field with ⟨node, hnode, hfield⟩
  rcases hother.field with ⟨node', hnode', hfield'⟩
  have hle := hother.last position node h.above hnode hfield
  have hge := h.last other node' hother.above hnode' hfield'
  exact (List.prefix_of_prefix_length_le h.above hother.above hle).eq_of_length (by omega)

theorem nearestField_ofRoot {root : Selection} (h : root.label.isDeclared = true) :
    (ofRoot root).NearestField [] where
  above := List.nil_prefix
  field := ⟨root, rfl, h⟩
  last := by
    intro lower node hlower _ _
    exact hlower.length_le

/-- The nodes on the way to the head keep their labels. -/
theorem label_of_attach (hf : f.Headed) {moveHead : Bool} {lower : List Nat} {node : Selection}
    (hlower : lower <+: f.path)
    (h : (f.attach g moveHead).root.descendant? lower = some node) :
    ∃ old, f.root.descendant? lower = some old ∧ node.label = old.label := by
  rcases descendant?_attach_eq_some hf h with hold | ⟨rest, rfl, -⟩
  · exact hold
  · -- What is added is not on the way to the head before.
    have hle := hlower.length_le
    simp only [List.length_append, List.length_cons] at hle
    omega

/-- On the way to the head of a tree that is added are the old way and that in the added tree. -/
theorem prefix_move {lower : List Nat} (h : lower <+: (f.attach g true).path) :
    lower <+: f.path ∨
      ∃ rest, lower = f.path ++ f.head.children.length :: rest ∧ rest <+: g.path := by
  have h : lower <+: f.path ++ f.head.children.length :: g.path := h
  rcases List.prefix_or_prefix_of_prefix h (List.prefix_append _ _) with hold | ⟨rest, rfl⟩
  · exact .inl hold
  · rw [List.prefix_append_right_inj] at h
    rcases List.prefix_cons_iff.1 h with rfl | ⟨tail, rfl, htail⟩
    · exact .inl (by simp)
    · exact .inr ⟨tail, rfl, htail⟩

/-- What is added beside the way to the head leaves the nearest field where it is. -/
theorem NearestField.stay (hf : f.Headed) (h : f.NearestField position) (g : Focused) :
    (f.attach g false).NearestField position where
  above := h.above
  field := by
    rcases h.field with ⟨node, hnode, hfield⟩
    rcases descendant?_attach_left hnode g false with ⟨new, hnew, hgrown⟩
    exact ⟨new, hnew, hgrown.label ▸ hfield⟩
  last := by
    intro lower node hlower hnode hfield
    rcases label_of_attach hf hlower hnode with ⟨old, hold, hlabel⟩
    exact h.last lower old hlower hold (hlabel ▸ hfield)

/-- So does a head that moves to a node that is no field. -/
theorem NearestField.narrow (hf : f.Headed) (h : f.NearestField position) {root : Selection}
    (hroot : root.label.isDeclared = false) :
    (f.attach (ofRoot root) true).NearestField position where
  above := h.above.trans (List.prefix_append _ _)
  field := by
    rcases h.field with ⟨node, hnode, hfield⟩
    rcases descendant?_attach_left hnode (ofRoot root) true with ⟨new, hnew, hgrown⟩
    exact ⟨new, hnew, hgrown.label ▸ hfield⟩
  last := by
    intro lower node hlower hnode hfield
    rcases prefix_move hlower with hold | ⟨rest, rfl, hrest⟩
    · rcases label_of_attach hf hold hnode with ⟨old, hold', hlabel⟩
      exact h.last lower old hold hold' (hlabel ▸ hfield)
    · -- The only node further down is the new head.
      rw [descendant?_attach hf] at hnode
      obtain rfl : rest = [] := List.prefix_nil.1 hrest
      cases hnode
      have hroot : (ofRoot root).root.label.isDeclared = false := hroot
      rw [hroot] at hfield
      cases hfield

/-- Where the head moves to a field that is added, or below it, that field is the nearest one. -/
theorem NearestField.move (hf : f.Headed) (h : g.NearestField position) :
    (f.attach g true).NearestField (f.path ++ f.head.children.length :: position) where
  above := by
    have hcons : f.head.children.length :: position <+: f.head.children.length :: g.path :=
      List.cons_prefix_cons.2 ⟨rfl, h.above⟩
    exact (List.prefix_append_right_inj f.path).2 hcons
  field := by
    rcases h.field with ⟨node, hnode, hfield⟩
    exact ⟨node, (descendant?_attach hf g true position).trans hnode, hfield⟩
  last := by
    intro lower node hlower hnode hfield
    rw [List.length_append, List.length_cons]
    rcases prefix_move hlower with hold | ⟨rest, rfl, hrest⟩
    · have hle := hold.length_le
      omega
    · rw [descendant?_attach hf g true rest] at hnode
      have hle := h.last rest node hrest hnode hfield
      rw [List.length_append, List.length_cons]
      omega

end Focused

/-! ## The field resolved last -/

/-- Whether the field that an expression resolves last takes the arguments that are handed to the
expression. Behind a filter it takes those of the filter. -/
def Expression.awaitsArguments : Expression → Bool
  | .root _ _ | .member _ _ => true
  | .project _ selector | .projectMany _ selector => selector.awaitsArguments
  | .including source _ | .cast source _ | .withFragment source _ _ _ => source.awaitsArguments
  | .current | .filter _ _ => false

namespace Compiler

open Selection (Every)

variable {c : Compiler} {e : Expression} {scope : Scope} {f : Focused} {position : List Nat}

/-- A tree in which no field takes arguments. -/
abbrev Sourceless : Selection → Prop := Every fun label => label.source? = none

theorem Sourceless.not_source? {root node : Selection} {x : ArgumentSource} (h : Sourceless root)
    (hnode : root.descendant? position = some node) : node.label.source? ≠ some x := by
  rw [h.at_position hnode]
  nofun

theorem sourceless_expansion (s : Schema) (type : GraphType) (defaultScalars : Bool) :
    ∀ node ∈ s.expansion type defaultScalars, Sourceless node :=
  every_expansion s type defaultScalars (fun _ _ _ _ _ _ => rfl) (fun _ => rfl) (fun _ => rfl)

/-- A definition or a subtype with what its type brings along. -/
theorem sourceless_node {label : Label} (h : label.source? = none) (s : Schema) (type : GraphType)
    (defaultScalars : Bool) : Sourceless (.node label (s.expansion type defaultScalars)) :=
  .node h (sourceless_expansion s type defaultScalars)

theorem nearestField_fieldNode {field : Field} {node : Selection}
    (h : c.fieldNode field scope = .ok node) : (Focused.ofRoot node).NearestField [] := by
  rcases fieldNode_eq_ok h with ⟨source, -, -, rfl⟩
  exact Focused.nearestField_ofRoot rfl

/-- In the tree of a field, only the field itself takes arguments, and it takes those of the scope
if it declares any. -/
theorem source?_fieldNode {field : Field} {root node : Selection} {x : ArgumentSource}
    (h : c.fieldNode field scope = .ok root) (hnode : root.descendant? position = some node)
    (hx : node.label.source? = some x) : position = [] ∧ scope.arguments = some x := by
  rcases fieldNode_eq_ok h with ⟨source, -, hsource, rfl⟩
  cases position with
  | nil =>
      cases hnode
      exact ⟨rfl, hsource x hx⟩
  | cons i position =>
      rcases Selection.descendant?_cons_eq_some_iff.1 hnode with ⟨child, hchild, hnode⟩
      have hchild := List.mem_of_getElem? hchild
      rw [Selection.children] at hchild
      split at hchild
      · exact absurd hx ((sourceless_expansion _ _ _ child hchild).not_source? hnode)
      · cases hchild

theorem takesHanded_fieldNode {field : Field} {node : Selection}
    (h : c.fieldNode field scope = .ok node) : node.label.TakesHanded scope.arguments := by
  rcases fieldNode_eq_ok h with ⟨source, hsome, hsource, rfl⟩
  exact ⟨hsome, hsource⟩

/-- A node takes its arguments from a filter in the expression, or it is the nearest field and takes
those that are handed to the expression. -/
theorem Derives.mem_sources_or_nearestField (h : c.Derives e scope f) {node : Selection}
    {x : ArgumentSource} (hnode : f.root.descendant? position = some node)
    (hx : node.label.source? = some x) :
    x ∈ e.sources ∨
      (scope.arguments = some x ∧ e.awaitsArguments = true ∧ f.NearestField position) := by
  -- Rule by rule: a node is one of the source of a step, or it belongs to what the step adds.
  induction h generalizing position node with
  | root _ _ hfield | elementMember _ _ hfield =>
      rcases source?_fieldNode hfield hnode hx with ⟨rfl, harguments⟩
      exact .inr ⟨harguments, rfl, nearestField_fieldNode hfield⟩
  | fragment _ => exact absurd hx ((sourceless_node rfl _ _ _).not_source? hnode)
  | member hsource _ hfield ih =>
      rcases Focused.descendant?_attach_eq_some hsource.headed hnode with
        ⟨old, hold, hlabel⟩ | ⟨rest, rfl, hrest⟩
      · rcases ih hold (hlabel ▸ hx) with hmem | ⟨hnone, -⟩
        · exact .inl hmem
        · cases hnone
      · rcases source?_fieldNode hfield hrest hx with ⟨rfl, harguments⟩
        exact .inr ⟨harguments, rfl, (nearestField_fieldNode hfield).move hsource.headed⟩
  | project hsource _ ihSource ihSelector | projectMany hsource _ ihSource ihSelector =>
      rcases Focused.descendant?_attach_eq_some hsource.headed hnode with
        ⟨old, hold, hlabel⟩ | ⟨rest, rfl, hrest⟩
      · rcases ihSource hold (hlabel ▸ hx) with hmem | ⟨hnone, -⟩
        · exact .inl (List.mem_append_left _ hmem)
        · cases hnone
      · rcases ihSelector hrest hx with hmem | ⟨harguments, hawaits, hnearest⟩
        · exact .inl (List.mem_append_right _ hmem)
        · exact .inr ⟨harguments, hawaits, hnearest.move hsource.headed⟩
  | filter _ ih =>
      rcases ih hnode hx with hmem | ⟨harguments, -⟩
      · exact .inl (List.mem_cons_of_mem _ hmem)
      · cases harguments
        exact .inl List.mem_cons_self
  | including hsource _ hnone _ ihSource ihSelector =>
      rcases Focused.descendant?_attach_eq_some hsource.headed hnode with
        ⟨old, hold, hlabel⟩ | ⟨rest, rfl, hrest⟩
      · rcases ihSource hold (hlabel ▸ hx) with hmem | ⟨harguments, hawaits, hnearest⟩
        · exact .inl (List.mem_append_left _ hmem)
        · exact .inr ⟨harguments, hawaits, hnearest.stay hsource.headed _⟩
      · rcases ihSelector hrest hx with hmem | ⟨hsome, -⟩
        · exact .inl (List.mem_append_right _ hmem)
        · rw [hnone] at hsome
          cases hsome
  | cast hsource _ _ ih =>
      rcases Focused.descendant?_attach_eq_some hsource.headed hnode with
        ⟨old, hold, hlabel⟩ | ⟨rest, rfl, hrest⟩
      · rcases ih hold (hlabel ▸ hx) with hmem | ⟨harguments, hawaits, hnearest⟩
        · exact .inl hmem
        · exact .inr ⟨harguments, hawaits, hnearest.narrow hsource.headed rfl⟩
      · exact absurd hx ((sourceless_node rfl _ _ _).not_source? hrest)
  | withFragment hsource _ _ _ _ hnone _ _ ihSource ihSelection =>
      rcases Focused.descendant?_attach_eq_some hsource.headed hnode with
        ⟨old, hold, hlabel⟩ | ⟨rest, rfl, hrest⟩
      · rcases ihSource hold (hlabel ▸ hx) with hmem | ⟨harguments, hawaits, hnearest⟩
        · exact .inl (List.mem_append_left _ hmem)
        · exact .inr ⟨harguments, hawaits, hnearest.stay hsource.headed _⟩
      · rcases ihSelection hrest hx with hmem | ⟨hsome, -⟩
        · exact .inl (List.mem_append_right _ hmem)
        · rw [hnone] at hsome
          cases hsome

/-- The field that is resolved last takes the arguments that are handed down, if it declares any. -/
theorem Derives.exists_nearestField (h : c.Derives e scope f) (he : e.awaitsArguments = true) :
    ∃ position node, f.NearestField position ∧ f.root.descendant? position = some node ∧
      node.label.TakesHanded scope.arguments := by
  induction h with
  | root _ _ hfield | elementMember _ _ hfield =>
      exact ⟨[], _, nearestField_fieldNode hfield, rfl, takesHanded_fieldNode hfield⟩
  | fragment _ => cases he
  | member hsource _ hfield _ =>
      refine ⟨_, _, (nearestField_fieldNode hfield).move hsource.headed, ?_,
        takesHanded_fieldNode hfield⟩
      exact Focused.descendant?_attach hsource.headed _ true []
  | project hsource _ _ ih | projectMany hsource _ _ ih =>
      rcases ih he with ⟨position, node, hnearest, hnode, htakes⟩
      refine ⟨_, node, hnearest.move hsource.headed, ?_, htakes⟩
      exact (Focused.descendant?_attach hsource.headed _ true position).trans hnode
  | filter _ _ => cases he
  | including hsource _ _ _ ih _ | withFragment hsource _ _ _ _ _ _ _ ih _ =>
      rcases ih he with ⟨position, node, hnearest, hnode, htakes⟩
      rcases Focused.descendant?_attach_left hnode _ false with ⟨new, hnew, hgrown⟩
      refine ⟨position, new, hnearest.stay hsource.headed _, hnew, ?_⟩
      rw [hgrown.label]
      exact htakes
  | cast hsource _ _ ih =>
      rcases ih he with ⟨position, node, hnearest, hnode, htakes⟩
      rcases Focused.descendant?_attach_left hnode _ true with ⟨new, hnew, hgrown⟩
      refine ⟨position, new, hnearest.narrow hsource.headed rfl, hnew, ?_⟩
      rw [hgrown.label]
      exact htakes

/-- The arguments of a filter reach the nearest field above the head, where this is what they are
handed down to and it declares some, and no other node. -/
theorem filter_takes_iff {a : ArgumentSource} (he : ∀ x ∈ e.sources, x.identity ≠ a.identity)
    (h : c.select (.filter e a) scope = .ok f) {node : Selection}
    (hnode : f.root.descendant? position = some node) :
    node.label.Takes a ↔
      f.NearestField position ∧ e.awaitsArguments = true ∧ node.label.arguments ≠ [] := by
  cases derives_of_select h with
  | filter hderives =>
      -- The nearest field is the only node in question.
      have hlast : e.awaitsArguments = true → f.NearestField position →
          node.label.TakesHanded (some a) := by
        intro hawaits hnearest
        rcases hderives.exists_nearestField hawaits with ⟨other, last, hother, hlast, htakes⟩
        obtain rfl : position = other := hnearest.unique hother
        rw [hnode] at hlast
        cases hlast
        exact htakes
      constructor
      · rintro ⟨x, hx, hidentity⟩
        rcases hderives.mem_sources_or_nearestField hnode hx with hmem | ⟨-, hawaits, hnearest⟩
        · exact absurd hidentity (he x hmem)
        · have hsome : node.label.source?.isSome = true := by rw [hx, Option.isSome_some]
          exact ⟨hnearest, hawaits, (hlast hawaits hnearest).1.1 hsome⟩
      · rintro ⟨hnearest, hawaits, harguments⟩
        rcases hlast hawaits hnearest with ⟨hsome, hsource⟩
        rcases Option.isSome_iff_exists.1 (hsome.2 harguments) with ⟨x, hx⟩
        cases hsource x hx
        exact ⟨a, hx, rfl⟩

end Compiler

end GraphQuery
