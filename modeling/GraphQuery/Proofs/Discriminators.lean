import GraphQuery.Proofs.Compiler
import GraphQuery.Proofs.Selection.Conflicts

/-!
# Discriminators — objects of abstract fields tell their types

Where a field is of an interface or union type, the query asks for the discriminator of whatever
object there is: among what is selected from the field, or by a fragment on the very type of the
field that is spread there. Selecting the field brings the discriminator in; merging and folding
leave it in its place; and where a fragment takes it away, the fragment has it.

- `Label.isAbstractField` : the fields in question
- `Selection.Tagged` : trees in which all of them have the discriminator
- `Compiler.tagged_of_tree` : the trees of expressions
- `Selection.tagged_of_normalize`, `Selection.tagged_of_extraction` : passes that keep it
- `Selection.Discriminates` : how it is selected once fragments are spread
- `Selection.discriminated_substitute`, `Selection.discriminated_elide` : the passes from there on
- `Compiler.discriminates_of_compile` : compiled queries
-/

set_option autoImplicit false

namespace GraphQuery

/-- Whether the node is a field of interface or union type. -/
def Label.isAbstractField : Label → Bool
  | .field _ type _ _ => type.isAbstract
  | _ => false

theorem Label.isSubtype_of_isAbstractField {label : Label} (h : label.isAbstractField = true) :
    label.isSubtype = false := by
  cases label <;> first | rfl | cases h

theorem Label.needsChildren_of_isTypename {label : Label} (h : label.isTypename = true) :
    label.needsChildren = false := by
  cases label <;> first | rfl | cases h

theorem GraphType.isAbstract_of_isLeaf {type : GraphType} (h : type.isLeaf = true) :
    type.isAbstract = false := by
  unfold isLeaf at h
  unfold isAbstract
  generalize type.kind = kind at h
  cases kind <;> first | rfl | cases h

namespace Selection

/-! ## What holds of all nodes -/

/-- What holds of the label of every node together with the nodes below it. -/
inductive Throughout (P : Label → List Selection → Prop) : Selection → Prop where
  | node {label : Label} {children : List Selection} :
      P label children → (∀ child ∈ children, Throughout P child) →
      Throughout P (.node label children)

namespace Throughout

variable {P Q : Label → List Selection → Prop} {node : Selection}

theorem holds (h : Throughout P node) : P node.label node.children := by
  cases h with
  | node h _ => exact h

theorem children (h : Throughout P node) : ∀ child ∈ node.children, Throughout P child := by
  cases h with
  | node _ h => exact h

theorem of_children (h : P node.label node.children)
    (hbelow : ∀ child ∈ node.children, Throughout P child) : Throughout P node := by
  rcases node with ⟨label, children⟩
  exact .node h hbelow

theorem imp (h : Throughout P node) (hPQ : ∀ label children, P label children → Q label children) :
    Throughout Q node := by
  induction h with
  | node h _ ih => exact .node (hPQ _ _ h) ih

end Throughout

/-! ## The discriminator among nodes -/

/-- The discriminator is among the nodes. -/
def HasTypename (nodes : List Selection) : Prop :=
  ∃ node ∈ nodes, node.label.isTypename = true

variable {children nodes out : List Selection} {found last fragments : List FragmentDefinition}

theorem HasTypename.of_labels (h : HasTypename children)
    (hlabels : ∀ child ∈ children, ∃ node ∈ nodes, node.label.isTypename = child.label.isTypename) :
    HasTypename nodes := by
  rcases h with ⟨child, hchild, htypename⟩
  rcases hlabels child hchild with ⟨node, hnode, hlabel⟩
  exact ⟨node, hnode, hlabel.trans htypename⟩

theorem HasTypename.mono (h : HasTypename children) (hsub : children ⊆ nodes) :
    HasTypename nodes :=
  h.of_labels fun child hchild => ⟨child, hsub hchild, rfl⟩

/-- Every abstract field has the discriminator among its children. -/
abbrev Tagged : Selection → Prop :=
  Throughout fun label children => label.isAbstractField = true → HasTypename children

/-- Changing one node of a list keeps every node, or what it is changed into. -/
theorem exists_mem_modify {f : Selection → Selection} (i : Nat) {node : Selection}
    (h : node ∈ children) : node ∈ children.modify i f ∨ f node ∈ children.modify i f := by
  rcases List.mem_iff_getElem?.1 h with ⟨j, hj⟩
  have hget : (children.modify i f)[j]? = some (if i = j then f node else node) := by
    simp [List.getElem?_modify, hj]
  split at hget
  · exact .inr (List.mem_of_getElem? hget)
  · exact .inl (List.mem_of_getElem? hget)

/-- Adding a tree below a node takes no discriminator away. -/
theorem Tagged.push {root child : Selection} {path : List Nat} (h : Tagged root)
    (hchild : Tagged child) : Tagged (root.modifyAt (Selection.push child) path) := by
  induction path generalizing root with
  | nil =>
      rw [modifyAt]
      refine .of_children ?_ ?_
      · rw [label_push, children_push]
        exact fun habstract => (h.holds habstract).mono (List.subset_append_left _ _)
      · rw [children_push]
        intro node hnode
        rcases List.mem_append.1 hnode with hnode | hnode
        · exact h.children node hnode
        · rw [List.mem_singleton.1 hnode]
          exact hchild
  | cons i path ih =>
      rcases root with ⟨label, children⟩
      rw [modifyAt]
      refine .node (fun habstract => (h.holds habstract).of_labels ?_) ?_
      · -- The node on the path keeps its label, and its siblings are not touched.
        intro node hnode
        rcases exists_mem_modify i hnode with hkept | hchanged
        · exact ⟨node, hkept, rfl⟩
        · exact ⟨_, hchanged, by rw [label_modifyAt_push]⟩
      · intro node hnode
        rcases mem_modify hnode with hold | ⟨found, hfound, rfl⟩
        · exact h.children node hold
        · exact ih (h.children found (List.mem_of_getElem? hfound))

end Selection

/-! ## Expressions -/

namespace Compiler

open Selection (Tagged HasTypename)

variable {c : Compiler} {e : Expression} {scope : Scope} {f : Focused}

theorem hasTypename_expansion {s : Schema} {type : GraphType} (h : type.isAbstract = true)
    (defaultScalars : Bool) : HasTypename (s.expansion type defaultScalars) := by
  refine ⟨.node (.typename type.terminal) [], ?_, rfl⟩
  simp [Schema.expansion, h]

/-- What a type brings along are leaves, and subtypes with leaves. -/
theorem tagged_expansion (s : Schema) (type : GraphType) (defaultScalars : Bool) :
    ∀ node ∈ s.expansion type defaultScalars, Tagged node := by
  have hleaf : ∀ owner, ∀ node ∈ s.leafFields owner, Tagged node := by
    intro owner node hnode
    rcases List.mem_filterMap.1 hnode with ⟨field, -, hnode⟩
    split at hnode
    · next hleaf =>
        cases hnode
        have hconcrete := GraphType.isAbstract_of_isLeaf (Bool.and_eq_true_iff.1 hleaf).1
        refine .node (fun habstract => ?_) nofun
        simp [Label.isAbstractField, hconcrete] at habstract
    · cases hnode
  have hsubtype : ∀ kind owner, Tagged (s.subtypeNode defaultScalars kind owner) := by
    intro kind owner
    exact .of_children nofun fun node hnode => hleaf owner node (Schema.mem_subtypeNode hnode)
  intro node hnode
  rcases Schema.mem_expansion hnode with hnode | rfl | ⟨object, -, rfl⟩ | ⟨interface, -, rfl⟩
  · exact hleaf _ node hnode
  · exact .node nofun nofun
  · exact hsubtype .object object
  · exact hsubtype .interface interface

theorem tagged_fieldNode {field : Field} {node : Selection}
    (h : c.fieldNode field scope = .ok node) : Tagged node := by
  rcases fieldNode_eq_ok h with ⟨source, -, -, rfl⟩
  refine .node (fun habstract => ?_) ?_
  · rw [if_pos (Schema.isComposite_of_isAbstract habstract)]
    exact hasTypename_expansion habstract _
  · intro child hchild
    split at hchild
    · exact tagged_expansion _ _ _ child hchild
    · cases hchild

theorem Derives.tagged (h : c.Derives e scope f) : Tagged f.root := by
  induction h with
  | root _ _ hnode => exact tagged_fieldNode hnode
  | fragment _ => exact .node nofun (tagged_expansion _ _ _)
  | elementMember _ _ hnode => exact tagged_fieldNode hnode
  | member _ _ hnode ih => exact ih.push (tagged_fieldNode hnode)
  | project _ _ ihSource ihSelector | projectMany _ _ ihSource ihSelector =>
      exact ihSource.push ihSelector
  | filter _ ih => exact ih
  | including _ _ _ _ ihSource ihSelector => exact ihSource.push ihSelector
  | cast _ _ _ ih => exact ih.push (.node nofun (tagged_expansion _ _ _))
  | withFragment _ _ _ _ _ _ _ _ ihSource ihSelection => exact ihSource.push ihSelection

theorem tagged_of_tree {tree : Selection} (h : c.tree e = .ok tree) : Tagged tree := by
  rcases Outcome.bind_eq_ok_iff.1 h with ⟨selected, hselected, h⟩
  cases h
  exact (derives_of_select hselected).tagged

end Compiler

namespace Selection

variable {children merged nodes out : List Selection}
  {found last fragments : List FragmentDefinition} {limit levels : Nat}

/-! ## Normal form and extraction -/

theorem hasTypename_of_normalize (h : normalize limit levels children = .ok out)
    (hc : HasTypename children) : HasTypename out := by
  cases levels with
  | zero => cases h
  | succ levels =>
      refine hc.of_labels fun child hchild => ?_
      rcases exists_image_of_normalize h hchild with ⟨node, hnode, hsame, -⟩
      exact ⟨node, hnode, Label.isTypename_of_mergesWith (Label.sameSelection_iff.1 hsame).1⟩

/-- No pass of normal form takes the discriminator of a field: only subtypes lose nodes. -/
theorem tagged_of_normalize (h : normalize limit levels children = .ok out)
    (hc : ∀ child ∈ children, Tagged child) : ∀ node ∈ out, Tagged node := by
  induction levels generalizing children out with
  | zero => cases h
  | succ levels ih =>
      intro node hnode
      rcases exists_source_of_normalize h hnode with ⟨child, hchild, hlabel, below, hmem, hbelow⟩
      refine .of_children ?_ (ih hbelow ?_)
      · intro habstract
        rw [hlabel] at habstract
        refine hasTypename_of_normalize hbelow
          (((hc child hchild).holds habstract).mono fun g hg => (hmem g).2 ?_)
        refine .child hchild (Label.mergesWith_refl _) hg fun hsubtype => ?_
        simp [Label.isSubtype_of_isAbstractField habstract] at hsubtype
      · intro g hg
        cases (hmem g).1 hg with
        | child hother _ hg _ => exact (hc _ hother).children g hg
        | folded hsubtype _ hfield _ hg =>
            exact ((hc _ hsubtype).children _ hfield).children g hg

theorem hasTypename_of_extraction (h : Extraction found children out last)
    (hc : HasTypename children) : HasTypename out := by
  refine hc.of_labels fun child hchild => ?_
  have hlabel : extractedLabel child.label ∈ out.map Selection.label := by
    rw [labels_of_extraction h]
    exact List.mem_map_of_mem hchild
  rcases List.mem_map.1 hlabel with ⟨node, hnode, hnodeLabel⟩
  refine ⟨node, hnode, ?_⟩
  rw [hnodeLabel]
  cases child.label <;> rfl

theorem tagged_of_extraction (h : Extraction found children out last)
    (hc : ∀ child ∈ children, Tagged child)
    (hfound : ∀ f ∈ found, ∀ child ∈ f.children, Tagged child) :
    (∀ node ∈ out, Tagged node) ∧ ∀ f ∈ last, ∀ child ∈ f.children, Tagged child := by
  induction h with
  | nil => exact ⟨hc, hfound⟩
  | keep _ hextraction _ ihBelow ihRest =>
      rcases List.forall_mem_cons.1 hc with ⟨hnode, hothers⟩
      rcases ihBelow hnode.children hfound with ⟨hbelow, hmid⟩
      rcases ihRest hothers hmid with ⟨hrest, hlast⟩
      refine ⟨List.forall_mem_cons.2 ⟨.node (fun habstract => ?_) hbelow, hrest⟩, hlast⟩
      exact hasTypename_of_extraction hextraction (hnode.holds habstract)
  | define _ hdefine _ ihBelow ihRest =>
      rcases List.forall_mem_cons.1 hc with ⟨hnode, hothers⟩
      rcases ihBelow hnode.children hfound with ⟨hbelow, hmid⟩
      rcases ihRest hothers (forall_children_of_define hdefine hbelow hmid) with ⟨hrest, hlast⟩
      exact ⟨List.forall_mem_cons.2 ⟨.node nofun nofun, hrest⟩, hlast⟩

/-! ## Spread fragments -/

/-- The discriminator of a type is among the nodes, or in a fragment on exactly this type that is
spread among them. -/
def Discriminates (fragments : List FragmentDefinition) (type : TypeRef)
    (nodes : List Selection) : Prop :=
  HasTypename nodes ∨
    ∃ f ∈ fragments, f.type.typeRef = type ∧ HasTypename f.children ∧
      ∃ node ∈ nodes, node.label = .spread f.name f.type

/-- Every abstract field selects the discriminator of its type. -/
abbrev Discriminated (fragments : List FragmentDefinition) : Selection → Prop :=
  Throughout fun label children => label.isAbstractField = true →
    Discriminates fragments label.type.typeRef children

theorem Discriminates.refine {type : TypeRef} (h : Discriminates fragments type nodes)
    (hrefine : ∀ f ∈ fragments, ∃ g ∈ last, g.name = f.name ∧ g.type = f.type ∧
      (HasTypename f.children → HasTypename g.children)) : Discriminates last type nodes := by
  rcases h with h | ⟨f, hf, htype, htypename, node, hnode, hlabel⟩
  · exact .inl h
  · rcases hrefine f hf with ⟨g, hg, hgName, hgType, hkeeps⟩
    refine .inr ⟨g, hg, by rw [hgType, htype], hkeeps htypename, node, hnode, ?_⟩
    rw [hgName, hgType, hlabel]

/-- Only a fragment that has the discriminator takes it away. -/
theorem hasTypename_of_covers {candidates : List Selection} {node : Selection}
    (h : covers candidates node = true) (hnode : node.label.isTypename = true) :
    HasTypename candidates := by
  rcases node with ⟨label, below⟩
  rcases covers_iff.1 h with ⟨candidate, hcandidate, hsame, -⟩
  refine ⟨candidate, hcandidate, ?_⟩
  rw [Label.isTypename_of_mergesWith (Label.sameSelection_iff.1 hsame).1]
  exact hnode

theorem discriminates_spread {fragment : FragmentDefinition} (hd : DistinctNames fragments)
    (hf : fragment ∈ fragments) (hdefined : ∀ child ∈ children, Defined fragments child.label)
    (h : Discriminates fragments fragment.type.typeRef children) :
    Discriminates fragments fragment.type.typeRef (spread fragment children) := by
  rcases h with ⟨child, hchild, htypename⟩ | ⟨f, hfMem, htype, htypename, node, hnode, hlabel⟩
  · rcases mem_spread_or_covers fragment hchild with hkept | hcovers
    · exact .inl ⟨child, hkept, htypename⟩
    · have hhas := hasTypename_of_covers hcovers htypename
      exact .inr ⟨fragment, hf, rfl, hhas, exists_label_mem_spread hd hf hdefined⟩
  · have hspread : node.label.isSpread = true := by
      rw [hlabel]
      rfl
    exact .inr ⟨f, hfMem, htype, htypename, node, mem_spread_of_isSpread fragment hnode hspread,
      hlabel⟩

theorem discriminated_spreadNode (fragment : FragmentDefinition) :
    Discriminated fragments (spreadNode fragment) :=
  .node (fun habstract => absurd habstract Bool.false_ne_true) fun _ h =>
    absurd h List.not_mem_nil

theorem discriminated_substitute (hd : DistinctNames fragments) {node : Selection}
    (hdefined : Every (Defined fragments) node) (h : Tagged node) :
    Discriminated fragments (substitute fragments node) := by
  induction node with
  | node label children ih =>
      rw [substitute, substituteAll_eq_map]
      have hlabels : ∀ child ∈ children.map (substitute fragments),
          Defined fragments child.label := by
        intro child hchild
        rcases List.mem_map.1 hchild with ⟨c, hc, rfl⟩
        rw [label_substitute]
        exact (hdefined.children c hc).holds
      refine .node (fun habstract => ?_) ?_
      · have hstart : Discriminates fragments label.type.typeRef
            (children.map (substitute fragments)) := by
          refine .inl ((h.holds habstract).of_labels fun child hchild => ?_)
          exact ⟨_, List.mem_map_of_mem hchild, by rw [label_substitute]⟩
        -- Spreads have to be defined all along, for one of them to be that of a fragment.
        refine (spreadAll_induction (motive := fun found =>
          Discriminates fragments label.type.typeRef found ∧
            ∀ child ∈ found, Defined fragments child.label) ⟨hstart, hlabels⟩ ?_).1
        rintro - fragment hf htype found ⟨hfound, hfoundDefined⟩
        refine ⟨?_, fun child => defined_of_mem_spread hf hfoundDefined⟩
        rw [← htype] at hfound ⊢
        exact discriminates_spread hd hf hfoundDefined hfound
      · intro child hchild
        rcases mem_spreadAll hchild with hchild | ⟨-, fragment, -, rfl⟩
        · rcases List.mem_map.1 hchild with ⟨c, hc, rfl⟩
          exact ih c hc (hdefined.children c hc) (h.children c hc)
        · exact discriminated_spreadNode fragment

/-! ## Empty selections -/

theorem mem_elideAll_of_needsChildren {child : Selection} (h : child ∈ children)
    (hneeds : child.label.needsChildren = false) : elide child ∈ elideAll children := by
  refine mem_elideAll.2 ⟨child, h, rfl, ?_⟩
  simp [isVoid, label_elide, hneeds]

theorem hasTypename_elideAll (h : HasTypename children) : HasTypename (elideAll children) := by
  rcases h with ⟨child, hchild, htypename⟩
  refine ⟨_, mem_elideAll_of_needsChildren hchild (Label.needsChildren_of_isTypename htypename), ?_⟩
  rw [label_elide]
  exact htypename

theorem discriminated_elide {node : Selection} (h : Discriminated fragments node) :
    Discriminated fragments (elide node) := by
  induction node with
  | node label children ih =>
      rw [elide]
      refine .node (fun habstract => ?_) ?_
      · rcases h.holds habstract with hhas | ⟨f, hf, htype, hhas, node, hnode, hlabel⟩
        · exact .inl (hasTypename_elideAll hhas)
        · have hneeds : node.label.needsChildren = false := by
            rw [hlabel]
            rfl
          refine .inr ⟨f, hf, htype, hhas, _, mem_elideAll_of_needsChildren hnode hneeds, ?_⟩
          rw [label_elide]
          exact hlabel
      · intro child hchild
        rcases mem_elideAll.1 hchild with ⟨c, hc, rfl, -⟩
        exact ih c hc (h.children c hc)

end Selection

/-! ## All passes -/

/-- What holds throughout the operation and all fragments. -/
def Pruned.Throughout (P : Label → List Selection → Prop) (pruned : Pruned) : Prop :=
  Selection.Throughout P pruned.root ∧
    ∀ f ∈ pruned.fragments, ∀ child ∈ f.children, Selection.Throughout P child

theorem Pruned.Throughout.imp {P Q : Label → List Selection → Prop} {pruned : Pruned}
    (h : pruned.Throughout P) (hPQ : ∀ label children, P label children → Q label children) :
    pruned.Throughout Q :=
  ⟨h.1.imp hPQ, fun f hf child hchild => (h.2 f hf child hchild).imp hPQ⟩

namespace Selection

variable {limit : Nat} {tree : Unpruned} {pruned : Pruned}

theorem discriminates_of_prune (h : tree.root.prune limit = .ok pruned)
    (ht : Tagged tree.root) :
    pruned.Throughout fun label children => label.isAbstractField = true →
      Discriminates pruned.fragments label.type.typeRef children := by
  rcases prune_eq_ok h with ⟨children, nodes, found, fragments, p⟩
  have hchildren := tagged_of_normalize p.normal ht.children
  rcases tagged_of_extraction p.extracted hchildren nofun with ⟨hnodes, hfound⟩
  have hroot : Tagged (.node tree.root.label nodes) := by
    refine .node (fun habstract => ?_) hnodes
    exact hasTypename_of_extraction p.extracted
      (hasTypename_of_normalize p.normal (ht.holds habstract))
  have helided : ∀ f ∈ fragments, ∃ g ∈ pruned.fragments, g.name = f.name ∧ g.type = f.type ∧
      (HasTypename f.children → HasTypename g.children) := by
    intro f hf
    rcases Outcome.mem_left p.fragmentsElided hf with ⟨g, hg, hname, htype, hbelow, -⟩
    exact ⟨g, hg, hname, htype, fun hhas => hbelow ▸ hasTypename_elideAll hhas⟩
  refine ⟨?_, ?_⟩
  · rw [p.root]
    refine (discriminated_elide (discriminated_substitute p.distinctNames p.defined
      hroot)).imp fun label below hbelow habstract => ?_
    exact (hbelow habstract).refine helided
  · intro f hf child hchild
    rcases Outcome.mem_right p.fragmentsElided hf with ⟨g, hg, -, -, hbelow, -⟩
    rcases Outcome.mem_right p.fragmentsNormal hg with ⟨k, hk, -, -, hnormal⟩
    rw [hbelow] at hchild
    rcases mem_elideAll.1 hchild with ⟨c, hc, rfl, -⟩
    -- Nothing is spread in a definition, so its fields have the discriminator themselves.
    have htagged := tagged_of_normalize hnormal (hfound k hk) c hc
    exact discriminated_elide (htagged.imp fun _ _ hhas habstract => .inl (hhas habstract))

theorem Discriminates.selects {s : Schema} {fragments : List FragmentDefinition} {type : TypeRef}
    {nodes : List Selection} (h : Discriminates fragments type nodes) {object : TypeRef}
    (hadmits : s.Admits type object) :
    Selects s fragments nodes [⟨object, Name.discriminator, none⟩] := by
  have hleaf : ∀ {nodes : List Selection}, HasTypename nodes →
      Selects s fragments nodes [⟨object, Name.discriminator, none⟩] := by
    rintro nodes ⟨node, hnode, htypename⟩
    cases hlabel : node.label with
    | typename =>
        refine .leaf hnode ?_ ?_
        · rw [hlabel]
          exact ⟨rfl, rfl, rfl⟩
        · rw [hlabel]
          rfl
    | _ =>
        rw [hlabel] at htypename
        cases htypename
  rcases h with h | ⟨f, hf, rfl, hhas, node, hnode, hlabel⟩
  · exact hleaf h
  · exact .spread hnode hlabel hf hadmits (hleaf hhas)

end Selection

namespace Compiler

open Selection (Discriminates Selects)

variable {c : Compiler} {e : Expression} {query : CompiledQuery}

/-- In a compiled query, all of which is printed, every field of interface or union type selects the
discriminator, and so asks for that of every object that its type admits. -/
theorem discriminates_of_compile (h : c.compile e = .ok query) :
    ∃ tree pruned, c.tree e = .ok tree ∧
      tree.prune c.configuration.recursionLimit = .ok pruned ∧
      pruned.bind c.configuration.variablePrefix = .ok (query.content, query.declared) ∧
      pruned.DefinitionFree ∧ pruned.Throughout fun label children => label.isAbstractField = true →
        Discriminates pruned.fragments label.type.typeRef children ∧
          ∀ object, c.schema.Admits label.type.typeRef object →
            Selects c.schema pruned.fragments children [⟨object, Name.discriminator, none⟩] := by
  rcases compile_eq_ok h with ⟨tree, pruned, htree, hfield, hpruned, hbind⟩
  have hfree := Selection.definitionFree_of_prune hpruned (Label.isField_of_exists hfield)
  refine ⟨tree.root, pruned, htree, hpruned, hbind, hfree, ?_⟩
  have hthroughout := Selection.discriminates_of_prune hpruned (tagged_of_tree htree)
  refine hthroughout.imp fun label children hdiscriminates habstract => ?_
  have hhere := hdiscriminates habstract
  exact ⟨hhere, fun object hadmits => hhere.selects hadmits⟩

/-- Among the media, the discriminator is asked for by the fragment that selects their makers. -/
theorem discriminates_makers :
    ∃ query, libraryCompiler.compile allMakers = .ok query ∧
      ∃ tree pruned, libraryCompiler.tree allMakers = .ok tree ∧ tree.prune 8 = .ok pruned ∧
        pruned.bind "var_" = .ok (query.content, query.declared) ∧
        pruned.DefinitionFree ∧
        pruned.Throughout fun label children => label.isAbstractField = true →
          Discriminates pruned.fragments label.type.typeRef children ∧
            ∀ object, libraryCompiler.schema.Admits label.type.typeRef object →
              Selects libraryCompiler.schema pruned.fragments children
                [⟨object, Name.discriminator, none⟩] := by
  obtain ⟨query, h⟩ : ∃ query, libraryCompiler.compile allMakers = .ok query :=
    Outcome.exists_of_isOk rfl
  exact ⟨query, h, discriminates_of_compile h⟩

end Compiler

end GraphQuery
