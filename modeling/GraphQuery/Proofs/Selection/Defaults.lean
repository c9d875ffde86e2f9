import GraphQuery.Proofs.Selection.Labels
import GraphQuery.Proofs.Selection.Paths
import GraphQuery.Proofs.Selection.Positions
import GraphQuery.Proofs.Selection.Scoping

/-!
# Selection.Defaults — leaf fields that are selected by default

What a type brings along with default scalars selects all leaf fields of every object that can stand
for it: its own ones itself, those of an object of an abstract type under the subtype of the object.
What is added to a tree later on takes nothing away from it.

- `Selection.SelectsDefaults` : a node that selects all leaf fields of the objects it can have
- `Schema.selects_expansion` : what a type brings along does
- `Selection.SelectsDefaults.grown` : such a node still does when a tree is added below it
- `Compiler.Expands` : where the nodes are that are expanded with default scalars
- `Compiler.Expands.selectsDefaults` : they select all leaf fields of the objects they can have
- `Selection.LeadsTo`, `Selection.LeadsTo.selects` : the paths of a response to a node of a tree
-/

set_option autoImplicit false

namespace GraphQuery

namespace Schema

variable {s : Schema} {type : GraphType} {object : TypeRef} {fields : List Field} {field : Field}

/-- Only an abstract type has other types that can stand for it. -/
theorem isAbstract_of_mem_possibleTypes (hd : s.Declares type)
    (h : object ∈ s.possibleTypes type.typeRef) : type.isAbstract = true := by
  rcases definition_of_declares hd with ⟨definition, hdefinition, hkind⟩
  rw [possibleTypes, hdefinition, Option.bind_some] at h
  unfold GraphType.isAbstract
  rw [← hkind]
  cases definition <;> first | rfl | cases h

theorem isComposite_of_admits (hd : s.Declares type) (h : s.Admits type.typeRef object)
    (hfields : s.fields? object = some fields) : type.isComposite = true := by
  rcases h with rfl | h
  · exact isComposite_of_fields? hd hfields
  · exact isComposite_of_isAbstract (isAbstract_of_mem_possibleTypes hd h)

/-! ## What a type brings along -/

theorem mem_leafFields_of_isLeaf (hfields : s.fields? object = some fields) (h : field ∈ fields)
    (hleaf : field.type.isLeaf = true) (harguments : field.arguments = []) :
    .node (.field field.name field.type [] none) [] ∈ s.leafFields object := by
  refine List.mem_filterMap.2 ⟨field, ?_, ?_⟩
  · rw [hfields]
    exact h
  · rw [if_pos (by simp [hleaf, harguments])]

theorem isComposite_of_isLeaf (h : type.isLeaf = true) : type.isComposite = false := by
  unfold GraphType.isLeaf at h
  unfold GraphType.isComposite
  cases hkind : type.kind <;> rw [hkind] at h <;> first | rfl | cases h

theorem selects_leafFields (hfields : s.fields? object = some fields) (h : field ∈ fields)
    (hleaf : field.type.isLeaf = true) (harguments : field.arguments = []) (owner : TypeRef) :
    Selection.Selects s [] (s.leafFields object) [⟨owner, field.name, none⟩] :=
  .leaf (mem_leafFields_of_isLeaf hfields h hleaf harguments) ⟨rfl, rfl, rfl⟩
    (isComposite_of_isLeaf hleaf)

/-- All leaf fields without arguments are selected for every object that can stand for the type. -/
theorem selects_expansion (hd : s.Declares type) (hobject : s.Admits type.typeRef object)
    (hfields : s.fields? object = some fields) (h : field ∈ fields)
    (hleaf : field.type.isLeaf = true) (harguments : field.arguments = []) :
    Selection.Selects s [] (s.expansion type true) [⟨object, field.name, none⟩] := by
  have hselects := selects_leafFields hfields h hleaf harguments object
  unfold expansion
  dsimp only
  rcases hobject with rfl | hobject
  · -- The type selects its own fields itself.
    split
    · exact hselects.mono (List.subset_append_left _ _)
    · exact hselects
  · -- An abstract type has a subtype for every object.
    rw [if_pos (isAbstract_of_mem_possibleTypes hd hobject)]
    have hnode : s.subtypeNode true .object object ∈
        (s.possibleTypes type.typeRef).map (s.subtypeNode true .object) :=
      List.mem_map_of_mem hobject
    refine .within (List.mem_append_right _ (List.mem_cons_of_mem _ (List.mem_append_left _ hnode)))
      rfl (.inl rfl) hselects

end Schema

namespace Selection

variable {s : Schema} {fragments : List FragmentDefinition} {root node old new added : Selection}
  {path : List Step}

/-! ## Nodes that select all defaults -/

/-- The children of a node select all leaf fields without arguments, for every object that can
stand for the type of the node. -/
def SelectsDefaults (s : Schema) (node : Selection) : Prop :=
  s.Declares node.label.type → ∀ object fields field, s.Admits node.label.type.typeRef object →
    s.fields? object = some fields → field ∈ fields → field.type.isLeaf = true →
      field.arguments = [] → Selects s [] node.children [⟨object, field.name, none⟩]

theorem selectsDefaults_of_expansion (label : Label) :
    SelectsDefaults s (.node label (s.expansion label.type true)) :=
  fun hd _ _ _ hobject hfields h hleaf harguments =>
    Schema.selects_expansion hd hobject hfields h hleaf harguments

/-- What is added below a node takes away nothing that its children ask for. -/
theorem Selects.modifyAt_push (h : Selects s fragments root.children path) (added : Selection)
    (position : List Nat) :
    Selects s fragments (root.modifyAt (push added) position).children path := by
  induction position generalizing root path with
  | nil =>
      rw [modifyAt, children_push]
      exact h.mono (List.subset_append_left _ _)
  | cons i position ih =>
      rw [children_modifyAt_cons]
      rcases h.exists_mem with ⟨child, hchild, hpath⟩
      rcases List.mem_iff_getElem?.1 hchild with ⟨j, hj⟩
      by_cases hij : i = j
      · -- The child that is added to keeps its label, and its children ask for all they did.
        have hat : (root.children.modify i (modifyAt (push added) position))[j]? =
            some (child.modifyAt (push added) position) := by
          rw [hij, List.getElem?_modify_eq, hj]
          rfl
        have hsame : (child.modifyAt (push added) position).label.sameSelection child.label =
            true := by
          rw [label_modifyAt_push]
          exact Label.sameSelection_refl _
        refine Selects.of_mem ?_ (List.mem_of_getElem? hat)
        exact hpath.replace hsame fun step rest _ hbelow => ih hbelow
      · have hat : (root.children.modify i (modifyAt (push added) position))[j]? = some child := by
          rw [List.getElem?_modify_ne _ _ hij]
          exact hj
        exact hpath.of_mem (List.mem_of_getElem? hat)

theorem SelectsDefaults.grown (h : SelectsDefaults s old) (hgrown : Grown added old new) :
    SelectsDefaults s new := by
  rcases hgrown with rfl | ⟨position, rfl⟩
  · exact h
  · intro hd object fields field hobject hfields hmem hleaf harguments
    rw [label_modifyAt_push] at hd hobject
    exact (h hd object fields field hobject hfields hmem hleaf harguments).modifyAt_push added
      position

/-! ## Paths to nodes -/

/-- The type of the object that a path starts in, where it ends in an object of a given type. -/
def startType (object : TypeRef) : List Step → TypeRef
  | [] => object
  | step :: _ => step.type

/-- The paths of a response that lead to the objects that a node selects from, through nodes and
what is below them. The last object is of the given type. Subtypes and definitions of fragments
select from the object that they stand in. -/
inductive LeadsTo (s : Schema) (target : Selection) (object : TypeRef) :
    List Selection → List Step → Prop where
  | field {nodes : List Selection} {step : Step} :
      target ∈ nodes → target.label.Reads step → target.label.opens = true →
      s.Admits target.label.type.typeRef object → LeadsTo s target object nodes [step]
  | narrowed {nodes : List Selection} :
      target ∈ nodes → target.label.narrows = true → s.Admits target.label.type.typeRef object →
      LeadsTo s target object nodes []
  | deeper {nodes : List Selection} {node : Selection} {step : Step} {rest : List Step} :
      node ∈ nodes → node.label.Reads step → node.label.opens = true →
      s.Admits node.label.type.typeRef (startType object rest) →
      LeadsTo s target object node.children rest → LeadsTo s target object nodes (step :: rest)
  | within {nodes : List Selection} {node : Selection} {path : List Step} :
      node ∈ nodes → node.label.narrows = true →
      s.Admits node.label.type.typeRef (startType object path) →
      LeadsTo s target object node.children path → LeadsTo s target object nodes path

namespace LeadsTo

variable {nodes : List Selection} {object : TypeRef} {last : Step}

theorem opens_or_narrows (h : LeadsTo s node object nodes path) :
    node.label.opens = true ∨ node.label.narrows = true := by
  induction h with
  | field _ _ hopens _ => exact .inl hopens
  | narrowed _ hnarrows _ => exact .inr hnarrows
  | deeper _ _ _ _ _ ih => exact ih
  | within _ _ _ _ ih => exact ih

theorem admits (h : LeadsTo s node object nodes path) :
    s.Admits node.label.type.typeRef object := by
  induction h with
  | field _ _ _ hadmits => exact hadmits
  | narrowed _ _ hadmits => exact hadmits
  | deeper _ _ _ _ _ ih => exact ih
  | within _ _ _ _ ih => exact ih

theorem exists_cons (object : TypeRef) (path : List Step) (hlast : last.type = object) :
    ∃ next rest, path ++ [last] = next :: rest ∧ next.type = startType object path := by
  cases path with
  | nil => exact ⟨last, [], rfl, hlast⟩
  | cons step path => exact ⟨step, path ++ [last], rfl, rfl⟩

/-- What the children of the node ask for is asked for behind the paths that lead to it. -/
theorem selects (h : LeadsTo s node object nodes path) (hlast : last.type = object)
    (hselects : Selects s fragments node.children [last]) :
    Selects s fragments nodes (path ++ [last]) := by
  induction h with
  | field hmem hreads hopens hadmits =>
      exact .deeper hmem hreads hopens (hlast ▸ hadmits) hselects
  | narrowed hmem hnarrows hadmits => exact .within hmem hnarrows (hlast ▸ hadmits) hselects
  | @deeper _ _ _ rest hmem hreads hopens hadmits _ ih =>
      rcases exists_cons object rest hlast with ⟨next, tail, heq, htype⟩
      rw [heq] at ih
      rw [List.cons_append, heq]
      exact .deeper hmem hreads hopens (htype ▸ hadmits) ih
  | @within _ _ path hmem hnarrows hadmits _ ih =>
      rcases exists_cons object path hlast with ⟨next, tail, heq, htype⟩
      rw [heq] at ih ⊢
      exact .within hmem hnarrows (htype ▸ hadmits) ih

end LeadsTo

/-! ## Typed nodes -/

theorem Typed.at_position {owner : TypeRef} {position : List Nat} (h : Typed s owner root)
    (hnode : root.descendant? position = some node) : ∃ owner, Typed s owner node := by
  induction position generalizing root owner with
  | nil =>
      cases hnode
      exact ⟨owner, h⟩
  | cons i position ih =>
      rcases descendant?_cons_eq_some_iff.1 hnode with ⟨child, hchild, hnode⟩
      exact ih (h.childrenTyped child (List.mem_of_getElem? hchild)) hnode

/-- A node that can be selected from is of a type that the schema declares. -/
theorem Typed.declares (hs : s.Consistent) {owner : TypeRef} (h : Typed s owner node)
    (hopens : node.label.opens = true ∨ node.label.narrows = true) :
    s.Declares node.label.type := by
  have hfits := h.fits
  cases hlabel : node.label with
  | field name type arguments source =>
      rw [hlabel] at hfits
      rcases Option.bind_eq_some_iff.1 hfits.1 with ⟨fields, hfields, hfound⟩
      exact hs.fieldTypes hfields _ (Keyed.mem_of_find? hfound).1
  | subtype type =>
      rw [hlabel] at hfits
      exact hfits.1
  | fragment name type =>
      rw [hlabel] at hfits
      exact hfits.1
  | typename type => simp [hlabel, Label.opens, Label.narrows] at hopens
  | spread name type => simp [hlabel, Label.opens, Label.narrows] at hopens

end Selection

/-! ## Nodes that are expanded -/

namespace Compiler

variable {c : Compiler} {e : Expression} {scope : Scope} {f : Focused} {position : List Nat}

/-- Where the tree of an expression has a node that was expanded with default scalars: the field of
a root or of the last member, the subtype of a cast, where the scope asks for default scalars, and
fragments, where the configuration does. -/
inductive Expands (c : Compiler) : Expression → Scope → Focused → List Nat → Prop where
  | root {domainType : String} {entryPoint : Option String} {scope : Scope} {field : Field}
      {node : Selection} :
      scope.defaultScalars = true → c.fieldNode field scope = .ok node →
      Expands c (.root domainType entryPoint) scope (.ofRoot node) []
  | fragment {scope : Scope} {name : String} {type : GraphType} :
      scope.current = .fragment name type → c.configuration.defaultScalars = true →
      Expands c .current scope (.ofRoot (.node (.fragment name type)
        (c.schema.expansion type c.configuration.defaultScalars))) []
  | elementMember {member : Member} {scope : Scope} {field : Field} {node : Selection} :
      scope.defaultScalars = true → c.fieldNode field scope = .ok node →
      Expands c (.member .current member) scope (.ofRoot node) []
  | member {target : Expression} {member : Member} {scope : Scope} {source : Focused}
      {field : Field} {node : Selection} :
      c.Derives target scope.inner source → scope.defaultScalars = true →
      c.fieldNode field scope = .ok node →
      Expands c (.member target member) scope (source.attach (.ofRoot node) true)
        (source.path ++ source.head.children.length :: [])
  | memberTarget {target : Expression} {member : Member} {scope : Scope} {source added : Focused}
      {position : List Nat} :
      Expands c target scope.inner source position →
      Expands c (.member target member) scope (source.attach added true) position
  | projectSource {e selector : Expression} {scope : Scope} {source selected : Focused}
      {position : List Nat} :
      Expands c e scope.inner source position →
      Expands c (.project e selector) scope (source.attach selected true) position
  | projectSelector {e selector : Expression} {scope : Scope} {source selected : Focused}
      {position : List Nat} :
      c.Derives e scope.inner source →
      Expands c selector { scope.nested with current := .element source.owner } selected position →
      Expands c (.project e selector) scope (source.attach selected true)
        (source.path ++ source.head.children.length :: position)
  | projectManySource {e selector : Expression} {scope : Scope} {source selected : Focused}
      {position : List Nat} :
      Expands c e scope.inner source position →
      Expands c (.projectMany e selector) scope (source.attach selected true) position
  | projectManySelector {e selector : Expression} {scope : Scope} {source selected : Focused}
      {position : List Nat} :
      c.Derives e scope.inner source →
      Expands c selector { scope.nested with current := .element source.owner } selected position →
      Expands c (.projectMany e selector) scope (source.attach selected true)
        (source.path ++ source.head.children.length :: position)
  | filter {e : Expression} {arguments : ArgumentSource} {scope : Scope} {selected : Focused}
      {position : List Nat} :
      Expands c e { scope.nested with arguments := some arguments } selected position →
      Expands c (.filter e arguments) scope selected position
  | includingSource {e selector : Expression} {scope : Scope} {source selected : Focused}
      {position : List Nat} :
      Expands c e scope.nested source position →
      Expands c (.including e selector) scope (source.attach selected false) position
  | includingSelector {e selector : Expression} {scope : Scope} {source selected : Focused}
      {position : List Nat} :
      c.Derives e scope.nested source →
      Expands c selector {
        current := .element source.owner
        defaultScalars := c.configuration.defaultScalars
        arguments := none
        depth := scope.depth + 1 } selected position →
      Expands c (.including e selector) scope (source.attach selected false)
        (source.path ++ source.head.children.length :: position)
  | cast {e : Expression} {domainType : String} {scope : Scope} {source : Focused}
      {target : GraphType} :
      c.Derives e scope.nested source → scope.defaultScalars = true →
      Expands c (.cast e domainType) scope (source.attach (.ofRoot (.node (.subtype target)
        (c.schema.expansion target scope.defaultScalars))) true)
        (source.path ++ source.head.children.length :: [])
  | castSource {e : Expression} {domainType : String} {scope : Scope} {source added : Focused}
      {position : List Nat} :
      Expands c e scope.nested source position →
      Expands c (.cast e domainType) scope (source.attach added true) position
  | withFragmentSource {e selection : Expression} {name domainType : String} {scope : Scope}
      {source definition : Focused} {position : List Nat} :
      Expands c e scope.nested source position →
      Expands c (.withFragment e name domainType selection) scope
        (source.attach (.ofRoot definition.root) false) position
  | withFragmentDefinition {e selection : Expression} {name domainType : String} {scope : Scope}
      {source definition : Focused} {type : GraphType} {position : List Nat} :
      c.Derives e scope.nested source →
      Expands c selection {
        current := .fragment name type
        defaultScalars := c.configuration.defaultScalars
        arguments := none
        depth := scope.depth + 1 } definition position →
      Expands c (.withFragment e name domainType selection) scope
        (source.attach (.ofRoot definition.root) false)
        (source.path ++ source.head.children.length :: position)

theorem selectsDefaults_fieldNode {field : Field} {node : Selection}
    (hscope : scope.defaultScalars = true) (h : c.fieldNode field scope = .ok node) :
    Selection.SelectsDefaults c.schema node := by
  rcases fieldNode_eq_ok h with ⟨source, -, -, rfl⟩
  intro hd object fields leaf hobject hfields
  have hcomposite : field.type.isComposite = true := Schema.isComposite_of_admits hd hobject hfields
  rw [if_pos hcomposite, hscope]
  exact Selection.selectsDefaults_of_expansion _ hd object fields leaf hobject hfields

/-- Nodes that were expanded with default scalars select all leaf fields. -/
theorem Expands.selectsDefaults (h : c.Expands e scope f position) :
    ∃ node, f.root.descendant? position = some node ∧
      Selection.SelectsDefaults c.schema node := by
  -- What was there keeps its position and what it selects, what is added is found behind the head.
  induction h with
  | root hscope hnode | elementMember hscope hnode =>
      exact ⟨_, rfl, selectsDefaults_fieldNode hscope hnode⟩
  | fragment _ hdefault =>
      refine ⟨_, rfl, ?_⟩
      rw [hdefault]
      exact Selection.selectsDefaults_of_expansion (.fragment _ _)
  | member hsource hscope hnode =>
      refine ⟨_, Focused.descendant?_attach hsource.headed _ true [], ?_⟩
      exact selectsDefaults_fieldNode hscope hnode
  | memberTarget _ ih | projectSource _ ih | projectManySource _ ih | includingSource _ ih
  | castSource _ ih | withFragmentSource _ ih =>
      rcases ih with ⟨old, hold, hdefaults⟩
      rcases Focused.descendant?_attach_left hold _ _ with ⟨new, hnew, hgrown⟩
      exact ⟨new, hnew, hdefaults.grown hgrown⟩
  | projectSelector hsource _ ih | projectManySelector hsource _ ih
  | includingSelector hsource _ ih | withFragmentDefinition hsource _ ih =>
      rcases ih with ⟨node, hnode, hdefaults⟩
      exact ⟨node, (Focused.descendant?_attach hsource.headed _ _ _).trans hnode, hdefaults⟩
  | filter _ ih => exact ih
  | cast hsource hscope =>
      refine ⟨_, Focused.descendant?_attach hsource.headed _ true [], ?_⟩
      rw [hscope]
      exact Selection.selectsDefaults_of_expansion (.subtype _)

end Compiler

end GraphQuery
