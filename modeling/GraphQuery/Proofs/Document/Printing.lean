import GraphQuery.Proofs.Document.Uses
import GraphQuery.Proofs.Selection.Survival

/-!
# Document.Printing — where a document shows what a query selects

A document is read from its operation or from the definition of a fragment on, through fields,
through subtypes, and through the spreads of its fragments. What stands at a place in a query is
shown there, with the variables that stand for its arguments.

- `Document.Shows` : the nodes of a document, by the places where they are read
- `Printed` : what is printed of a node, with the variables of a list
- `Pruned.shows_of_bind`, `Pruned.passes_of_bind` : what stands at a place is shown there, with its
  arguments
-/

set_option autoImplicit false

namespace GraphQuery

/-! ## Reading documents -/

/-- The variables that are passed to a field are those of a source. There is none just where nothing
is passed. -/
structure PassedFrom (declared : List Variable) (source : Option Nat)
    (passed : List (String × String)) : Prop where
  isSome_iff : source.isSome = true ↔ passed ≠ []
  variable_mem : ∀ argument ∈ passed, ∃ v ∈ declared, v.name = argument.2 ∧
    v.argument = argument.1 ∧ source = some v.source

/-- The nodes of a document by the places where they are read, from the operation on a root object
and from each definition on. Fields are those that the schema declares, and names of types stand
for what they do in the schema. -/
inductive Document.Shows (s : Schema) (admits : TypeRef → TypeRef → Prop) (document : Document)
    (declared : List Variable) (root : TypeRef) : Place → DocumentNode → Prop where
  | operation : Shows s admits document declared root ⟨none, [], root, s.queryType⟩ document.root
  | definition {block : FragmentBlock} {type object : TypeRef} {child : DocumentNode} :
      block ∈ document.fragments → s.typeRef? block.typeName = some type → admits type object →
      child ∈ block.children →
      Shows s admits document declared root ⟨some block.name, [], object, type⟩ child
  | field {place : Place} {name : String} {passed : List (String × String)}
      {children : List DocumentNode} {child : DocumentNode} {field : Field}
      {source : Option Nat} {object : TypeRef} :
      Shows s admits document declared root place (.field name passed children) →
      s.field? place.owner name = some field → PassedFrom declared source passed →
      admits field.type.typeRef object → child ∈ children →
      Shows s admits document declared root
        ⟨place.fragment, place.steps ++ [⟨place.object, name, source⟩], object,
          field.type.typeRef⟩ child
  | subtype {place : Place} {typeName : String} {type : TypeRef} {children : List DocumentNode}
      {child : DocumentNode} :
      Shows s admits document declared root place (.subtype typeName children) →
      s.typeRef? typeName = some type → admits type place.object → child ∈ children →
      Shows s admits document declared root { place with owner := type } child
  | spread {place : Place} {block : FragmentBlock} {type : TypeRef} {child : DocumentNode} :
      Shows s admits document declared root place (.spread block.name) →
      block ∈ document.fragments → s.typeRef? block.typeName = some type →
      admits type place.object → child ∈ block.children →
      Shows s admits document declared root { place with owner := type } child

/-! ## Printing -/

/-- What is printed of a node while variables are declared, with all that are declared in the
end. -/
def Printed (start : String) (declared : List Variable) (node : Selection)
    (printed : DocumentNode) : Prop :=
  ∃ before after, (node.bind start).run before = .ok (printed, after) ∧ after ⊆ declared

/-- All nodes of a list are printed somewhere in another one. -/
def AllPrinted (start : String) (declared : List Variable) (nodes : List Selection)
    (printed : List DocumentNode) : Prop :=
  ∀ node ∈ nodes, ∃ k ∈ printed, Printed start declared node k

namespace Selection

variable {start : String} {declared before after : List Variable} {children : List Selection}
  {printed : List DocumentNode} {node : Selection}

theorem GroupBinds.subset {group : PrintGroup}
    (h : GroupBinds start group children before printed after) : before ⊆ after := by
  have hbound : Bound start before (passingsOf ⟨0, ""⟩ group children)
      (DocumentNode.usesAll printed) after :=
    h.bound fun child _ => bindsInSteps start child
  exact hbound.subset

theorem subset_of_bindChildren
    (h : (bindChildren start children).run before = .ok (printed, after)) : before ⊆ after := by
  have hbound : Bound start before (passingsBelow ⟨0, ""⟩ children)
      (DocumentNode.usesAll printed) after :=
    bound_of_bindChildren (fun child _ => bindsInSteps start child) h
  exact hbound.subset

theorem GroupBinds.allPrinted {group : PrintGroup}
    (h : GroupBinds start group children before printed after) (hlast : after ⊆ declared) :
    ∀ child ∈ children, child.label.printGroup? = some group →
      ∃ k ∈ printed, Printed start declared child k := by
  induction h with
  | nil => nofun
  | @print first rest before next after k others _ hfirst hothers ih =>
      refine List.forall_mem_cons.2 ⟨fun _ => ?_, fun child hchild hgroup => ?_⟩
      · have hnext := List.Subset.trans hothers.subset hlast
        exact ⟨k, List.mem_cons_self, before, next, hfirst, hnext⟩
      · rcases ih hlast child hchild hgroup with ⟨found, hfound, hprinted⟩
        exact ⟨found, List.mem_cons_of_mem _ hfound, hprinted⟩
  | skip hgroup _ ih => exact List.forall_mem_cons.2 ⟨fun h => absurd h hgroup, ih hlast⟩

/-- Every child is in one of the groups that are printed one after the other. -/
theorem allPrinted_of_bindChildren
    (h : (bindChildren start children).run before = .ok (printed, after))
    (hfree : ∀ child ∈ children, DefinitionFree child) (hlast : after ⊆ declared) :
    AllPrinted start declared children printed := by
  rcases bindChildren_eq_ok h with ⟨_, _, _, _, _, hfields, hspreads, hsubtypes, rfl⟩
  have hsecond := List.Subset.trans hsubtypes.subset hlast
  have hfirst := List.Subset.trans hspreads.subset hsecond
  intro child hchild
  have hnot := (hfree child hchild).holds
  cases hgroup : child.label.printGroup? with
  | none =>
      cases hlabel : child.label <;> rw [hlabel] at hnot hgroup <;> cases hnot <;> cases hgroup
  | some group =>
      cases group with
      | fields =>
          rcases hfields.allPrinted hfirst child hchild hgroup with ⟨k, hk, hprinted⟩
          exact ⟨k, List.mem_append_left _ (List.mem_append_left _ hk), hprinted⟩
      | spreads =>
          rcases hspreads.allPrinted hsecond child hchild hgroup with ⟨k, hk, hprinted⟩
          exact ⟨k, List.mem_append_left _ (List.mem_append_right _ hk), hprinted⟩
      | subtypes =>
          rcases hsubtypes.allPrinted hlast child hchild hgroup with ⟨k, hk, hprinted⟩
          exact ⟨k, List.mem_append_right _ hk, hprinted⟩

/-- What is passed to a field: a variable for each argument, which stands for the argument of the
source. -/
def Passes (declared : List Variable) (source : Option ArgumentSource) (arguments : List Argument)
    (passed : List (String × String)) : Prop :=
  List.Forall₂ (fun argument pass => pass.1 = argument.name ∧
    ∃ x v, source = some x ∧ v ∈ declared ∧ v.name = pass.2 ∧ v.source = x.identity ∧
      v.argument = argument.name) arguments passed

theorem passes_of_bindArguments {field : String} {source : Option ArgumentSource}
    {arguments : List Argument} {passed : List (String × String)}
    (h : (bindArguments start field source arguments).run before = .ok (passed, after))
    (hlast : after ⊆ declared) : Passes declared source arguments passed := by
  unfold bindArguments at h
  split at h
  · next hnone =>
      obtain rfl : arguments = [] := List.isEmpty_iff.1 hnone
      rcases Binder.run_pure_eq_ok h with ⟨rfl, rfl⟩
      exact .nil
  · split at h
    · cases h
    · next x =>
        have hbound : Bound start before
            (arguments.map fun argument => ⟨⟨0, ""⟩, field, argument, x⟩) _ after :=
          bound_of_mapM h
        have hpassed := hbound.uses_passed
        rw [List.forall₂_map_left_iff, List.forall₂_map_right_iff] at hpassed
        refine hpassed.flip.imp ?_
        rintro argument pass ⟨-, hname, v, hv, hvName, hkey⟩
        have hkeys : v.source = x.identity ∧ v.argument = argument.name := Prod.ext_iff.1 hkey
        exact ⟨hname, x, v, rfl, hlast hv, hvName, hkeys.1, hkeys.2⟩

/-- Where a source is needed just for arguments, what is passed is from that source. -/
theorem Passes.passedFrom {source : Option ArgumentSource} {arguments : List Argument}
    {passed : List (String × String)} (h : Passes declared source arguments passed)
    (hsource : source.isSome = true ↔ arguments ≠ []) :
    PassedFrom declared (source.map ArgumentSource.identity) passed := by
  refine ⟨?_, fun pass hpass => ?_⟩
  · have hnil : arguments = [] ↔ passed = [] := by
      rw [← List.length_eq_zero_iff, ← List.length_eq_zero_iff, h.length_eq]
    rw [Option.isSome_map, hsource, Ne, Ne, hnil]
  · rcases Outcome.mem_right h hpass with ⟨argument, -, hname, x, v, rfl, hv, hvName, hx, hargument⟩
    exact ⟨v, hv, hvName, hargument.trans hname.symm, by rw [hx]; rfl⟩

/-! ## Nodes -/

section Printed

variable {k : DocumentNode}

theorem printed_field {name : String} {type : GraphType} {arguments : List Argument}
    {source : Option ArgumentSource}
    (h : Printed start declared (.node (.field name type arguments source) children) k) :
    ∃ passed below, k = .field name passed below ∧ Passes declared source arguments passed ∧
      ((∀ child ∈ children, DefinitionFree child) →
        AllPrinted start declared children below) := by
  rcases h with ⟨before, after, h, hlast⟩
  cases binds_of_bind h with
  | @field _ _ _ _ _ _ _ _ passed below hown hbelow =>
      have hnext := List.Subset.trans (subset_of_bindChildren hbelow) hlast
      exact ⟨passed, below, rfl, passes_of_bindArguments hown hnext,
        fun hfree => allPrinted_of_bindChildren hbelow hfree hlast⟩

theorem printed_subtype {type : GraphType}
    (h : Printed start declared (.node (.subtype type) children) k)
    (hfree : ∀ child ∈ children, DefinitionFree child) :
    ∃ below, k = .subtype type.name below ∧ AllPrinted start declared children below := by
  rcases h with ⟨before, after, h, hlast⟩
  cases binds_of_bind h with
  | subtype hbelow => exact ⟨_, rfl, allPrinted_of_bindChildren hbelow hfree hlast⟩

theorem printed_spread {name : String} {type : GraphType}
    (h : Printed start declared (.node (.spread name type) children) k) : k = .spread name := by
  rcases h with ⟨before, after, h, hlast⟩
  cases binds_of_bind h with
  | spread => rfl

end Printed

/-! ## Places -/

section Shows

variable {s : Schema} {admits : TypeRef → TypeRef → Prop} {root : TypeRef} {origin place : Place}
  {document : Document} {fragments : List FragmentDefinition} {nodes : List Selection}

theorem typeRef?_of_declares {type : GraphType} (h : s.Declares type) :
    s.typeRef? type.name = some type.typeRef := by
  have hterminal : s.Declares (.named type.kind type.typeRef) := by
    rw [← Schema.terminal_eq]
    exact Schema.declares_terminal.2 h
  exact (Schema.declares_named_iff.1 hterminal).1

/-- A document has the block of a definition. -/
def PrintsBlock (start : String) (declared : List Variable) (blocks : List FragmentBlock)
    (f : FragmentDefinition) : Prop :=
  ∃ block ∈ blocks, block.name = f.name ∧ block.typeName = f.type.name ∧
    AllPrinted start declared f.children block.children

theorem printsBlock_of_allBind {blocks : List FragmentBlock}
    (h : FragmentDefinition.AllBind start fragments before blocks after)
    (hfree : ∀ f ∈ fragments, ∀ child ∈ f.children, DefinitionFree child)
    (hlast : after ⊆ declared) : ∀ f ∈ fragments, PrintsBlock start declared blocks f := by
  induction h with
  | nil => nofun
  | cons hbelow hothers ih =>
      rcases List.forall_mem_cons.1 hfree with ⟨hfree, hfreeRest⟩
      have hnext := List.Subset.trans hothers.bound.subset hlast
      refine List.forall_mem_cons.2 ⟨⟨_, List.mem_cons_self, rfl, rfl, ?_⟩, fun f hf => ?_⟩
      · exact allPrinted_of_bindChildren hbelow hfree hnext
      · rcases ih hfreeRest hlast f hf with ⟨block, hblock, hrest⟩
        exact ⟨block, List.mem_cons_of_mem _ hblock, hrest⟩

/-- What stands at a place is shown there, if that is so at the start. -/
theorem shows_of_stands (h : Stands admits fragments origin nodes place node)
    (hfragments : ∀ f ∈ fragments, DefinitionTyped s f ∧
      (∀ child ∈ f.children, DefinitionFree child) ∧
        PrintsBlock start declared document.fragments f)
    (ht : AllTyped s origin.owner nodes) (hfree : ∀ first ∈ nodes, DefinitionFree first)
    (hnodes : ∀ first ∈ nodes, ∃ k, Printed start declared first k ∧
      document.Shows s admits declared root origin k) :
    ∃ k, Printed start declared node k ∧ document.Shows s admits declared root place k := by
  induction h with
  | here hnode => exact hnodes _ hnode
  | @deeper origin next place nodes first _ hfirst hinto _ ih =>
      have hfirstTyped := ht first hfirst
      have hbelowFree := (hfree first hfirst).children
      refine ih (hinto.owner_eq ▸ hfirstTyped.childrenTyped) hbelowFree fun child hchild => ?_
      rcases hnodes first hfirst with ⟨k, hk, hshows⟩
      have hfits := hfirstTyped.fits
      have hnot := (hfree first hfirst).holds
      rcases first with ⟨label, children⟩
      cases label with
      | field name type arguments source =>
          cases hinto with
          | field hadmits =>
              rcases printed_field hk with ⟨passed, below, rfl, hpassed, hall⟩
              rcases hall hbelowFree child hchild with ⟨found, hfound, hprinted⟩
              exact ⟨found, hprinted,
                .field hshows hfits.1 (hpassed.passedFrom hfits.2) hadmits hfound⟩
      | subtype type =>
          cases hinto with
          | subtype hadmits =>
              rcases printed_subtype hk hbelowFree with ⟨below, rfl, hall⟩
              rcases hall child hchild with ⟨found, hfound, hprinted⟩
              exact ⟨found, hprinted,
                .subtype hshows (typeRef?_of_declares hfits.1) hadmits hfound⟩
      | fragment name type => cases hnot
      | typename type => cases hinto
      | spread name type => cases hinto
  | @spread origin place nodes first _ f hfirst hlabel hf hadmits _ ih =>
      rcases hfragments f hf with ⟨⟨hdeclares, htyped⟩, hfFree, block, hblock, hname, htype, hall⟩
      refine ih htyped hfFree fun child hchild => ?_
      rcases hnodes first hfirst with ⟨k, hk, hshows⟩
      rcases first with ⟨label, children⟩
      obtain rfl : label = _ := hlabel
      obtain rfl := printed_spread hk
      rcases hall child hchild with ⟨found, hfound, hprinted⟩
      rw [← hname] at hshows
      refine ⟨found, hprinted, .spread hshows hblock ?_ hadmits hfound⟩
      rw [htype]
      exact typeRef?_of_declares hdeclares.1

end Shows

end Selection

namespace Pruned

open Selection

variable {pruned : Pruned} {document : Document} {start : String} {declared : List Variable}
  {s : Schema} {admits : TypeRef → TypeRef → Prop} {root : TypeRef} {place : Place}
  {node : Selection}

/-- A document shows the fields of a query where they stand, and passes their arguments. -/
theorem shows_of_bind (hbind : pruned.bind start = .ok (document, declared))
    (hw : pruned.WellTyped s) (hfree : pruned.DefinitionFree)
    (h : StandsAmong admits pruned.fragments ⟨none, [], root, s.queryType⟩ [pruned.root] place
      node) :
    ∃ k, Printed start declared node k ∧ document.Shows s admits declared root place k := by
  rcases Pruned.bind_eq_ok hbind with ⟨next, hoperation, hblocks, -⟩
  have hfragments : ∀ f ∈ pruned.fragments, DefinitionTyped s f ∧
      (∀ child ∈ f.children, Selection.DefinitionFree child) ∧
        PrintsBlock start declared document.fragments f := by
    intro f hf
    rcases hw.fragment f hf with ⟨hdeclares, hcomposite, -, htyped, -⟩
    exact ⟨⟨⟨hdeclares, hcomposite⟩, htyped⟩, hfree.fragments f hf,
      printsBlock_of_allBind hblocks hfree.fragments (List.Subset.refl _) f hf⟩
  rcases h with h | ⟨f, hf, object, hadmits, h⟩
  · refine shows_of_stands h hfragments (List.forall_mem_singleton.2 hw.root)
      (List.forall_mem_singleton.2 hfree.root)
      (List.forall_mem_singleton.2 ⟨document.root, ?_, .operation⟩)
    exact ⟨[], next, hoperation, hblocks.bound.subset⟩
  · rcases hfragments f hf with ⟨⟨hdeclares, htyped⟩, hfFree, block, hblock, hname, htype, hall⟩
    refine shows_of_stands h hfragments htyped hfFree fun child hchild => ?_
    rcases hall child hchild with ⟨k, hk, hprinted⟩
    refine ⟨k, hprinted, ?_⟩
    rw [FragmentDefinition.place, ← hname]
    refine .definition hblock ?_ hadmits hk
    rw [htype]
    exact typeRef?_of_declares hdeclares.1

/-- Where a field stands, the document passes each of its arguments by a variable that stands for
the argument of the source of the field. -/
theorem passes_of_bind (hbind : pruned.bind start = .ok (document, declared))
    (hw : pruned.WellTyped s) (hfree : pruned.DefinitionFree)
    (h : StandsAmong admits pruned.fragments ⟨none, [], root, s.queryType⟩ [pruned.root] place
      node) {argument : Argument} (hargument : argument ∈ node.label.arguments) :
    ∃ x v, node.label.source? = some x ∧ v ∈ declared ∧
      (v.source = x.identity ∧ v.argument = argument.name) ∧
      ∃ passed children,
        document.Shows s admits declared root place (.field node.label.name passed children) ∧
          (argument.name, v.name) ∈ passed := by
  rcases shows_of_bind hbind hw hfree h with ⟨k, hprinted, hshows⟩
  rcases node with ⟨label, children⟩
  cases label with
  | field name type arguments source =>
      rcases printed_field hprinted with ⟨passed, below, rfl, hpassed, -⟩
      rcases Outcome.mem_left hpassed hargument with
        ⟨⟨passedName, var⟩, hpass, rfl, x, v, hx, hv, rfl, hkey⟩
      exact ⟨x, v, hx, hv, hkey, passed, below, hshows, hpass⟩
  | _ => cases hargument

end Pruned

end GraphQuery
