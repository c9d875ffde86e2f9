import GraphQuery.Proofs.Selection.Derivation
import GraphQuery.Proofs.Selection.Passes
import GraphQuery.Proofs.Selection.Placement

/-!
# Selection.Labels — where the nodes of a query come from

Every field that an expression selects is one that a type of the schema declares, and has its
arguments from a source that the expression filters by. Pruning makes no nodes of its own but
spreads, so this holds of the fields of the pruned query as well.

- `Selection.Every` : what holds of all labels of a tree
- `Selection.every_of_normalize`, `Selection.every_of_prune` : it holds after pruning
- `Expression.sources` : the sources in an expression
- `Label.Provided` : fields that are declared, with one of these sources
- `Compiler.Derives.headed`, `Compiler.Derives.rootLabel` : where a tree ends and starts
- `Compiler.provided_of_tree` : the nodes of an expression
- `Unpruned`, `Compiler.exists_unpruned` : the trees of expressions, in which nothing is spread yet
-/

set_option autoImplicit false

namespace GraphQuery

namespace Selection

/-- What holds of the label of a node, and of those of all nodes below it. -/
inductive Every (P : Label → Prop) : Selection → Prop where
  | node {label : Label} {children : List Selection} :
      P label → (∀ child ∈ children, Every P child) → Every P (.node label children)

namespace Every

variable {P Q : Label → Prop} {node : Selection}

theorem holds (h : Every P node) : P node.label := by
  cases h with
  | node h _ => exact h

theorem children (h : Every P node) : ∀ child ∈ node.children, Every P child := by
  cases h with
  | node _ h => exact h

theorem of_children (h : P node.label) (hbelow : ∀ child ∈ node.children, Every P child) :
    Every P node := by
  rcases node with ⟨label, children⟩
  exact .node h hbelow

theorem imp (h : Every P node) (hPQ : ∀ label, P label → Q label) : Every Q node := by
  induction node with
  | node label children ih =>
      refine .node (hPQ label h.holds) ?_
      intro child hchild
      exact ih child hchild (h.children child hchild)

theorem push {root child : Selection} {path : List Nat} (h : Every P root)
    (hchild : Every P child) : Every P (root.modifyAt (Selection.push child) path) := by
  -- Only the labels on the path and those of the added tree are looked at; none is changed.
  induction path generalizing root with
  | nil =>
      rw [modifyAt]
      refine .of_children ?_ ?_
      · rw [label_push]
        exact h.holds
      · rw [children_push]
        intro node hnode
        rcases List.mem_append.1 hnode with hnode | hnode
        · exact h.children node hnode
        · rw [List.mem_singleton.1 hnode]
          exact hchild
  | cons i path ih =>
      rcases root with ⟨label, children⟩
      rw [modifyAt]
      refine .node h.holds ?_
      intro node hnode
      rcases mem_modify hnode with hold | ⟨found, hfound, rfl⟩
      · exact h.children node hold
      · exact ih (h.children found (List.mem_of_getElem? hfound))

end Every

variable {P : Label → Prop} {fragments found last : List FragmentDefinition}
  {children merged out : List Selection}

/-! ## Normal form -/

theorem every_of_merges (h : Merges children merged) (hc : ∀ child ∈ children, Every P child) :
    ∀ node ∈ merged, Every P node := by
  intro node hnode
  rcases h.label node hnode with ⟨child, hchild, hlabel⟩
  refine .of_children ?_ ?_
  · rw [hlabel]
    exact (hc child hchild).holds
  · intro g hg
    rcases h.below node hnode g hg with ⟨c, hcMem, -, hg⟩
    exact (hc c hcMem).children g hg

theorem every_of_folds (h : Folds children out) (hc : ∀ child ∈ children, Every P child) :
    ∀ node ∈ out, Every P node := by
  intro node hnode
  rcases h.label node hnode with ⟨child, hchild, hlabel, hbelow⟩
  refine .of_children ?_ ?_
  · rw [hlabel]
    exact (hc child hchild).holds
  · intro g hg
    rcases hbelow g hg with hg | ⟨subtype, hsubtype, -, field, hfield, -, hg⟩
    · exact (hc child hchild).children g hg
    · exact ((hc subtype hsubtype).children field hfield).children g hg

theorem every_of_normalize {limit levels : Nat} (h : normalize limit levels children = .ok out)
    (hc : ∀ child ∈ children, Every P child) : ∀ node ∈ out, Every P node := by
  induction levels generalizing children out with
  | zero => cases h
  | succ levels ih =>
      rcases normalize_eq_ok h with ⟨merged, hmerged, hout⟩
      have hfolded := every_of_folds (foldSubtypes_folds merged)
        (every_of_merges (mergeAll_merges hmerged) hc)
      intro node hnode
      rcases Outcome.mem_right hout hnode with ⟨child, hchild, hlabel, hbelow⟩
      have hevery := hfolded child hchild
      exact .of_children (hlabel ▸ hevery.holds) (ih hbelow hevery.children)

/-- A tree that spreads nothing. -/
abbrev SpreadFree : Selection → Prop := Every fun label => label.isSpread = false

/-! ## Fragments -/

/-- What holds of the labels of a definition. -/
abbrev EveryBelow (P : Label → Prop) (fragment : FragmentDefinition) : Prop :=
  ∀ child ∈ fragment.children, Every P child

theorem every_of_extraction (hspread : ∀ name type, P (.spread name type))
    (h : Extraction found children out last) (hc : ∀ child ∈ children, Every P child)
    (hfound : ∀ f ∈ found, EveryBelow P f) :
    (∀ node ∈ out, Every P node) ∧ ∀ f ∈ last, EveryBelow P f := by
  induction h with
  | nil => exact ⟨hc, hfound⟩
  | keep _ _ _ ihBelow ihRest =>
      rcases List.forall_mem_cons.1 hc with ⟨hnode, hothers⟩
      rcases ihBelow hnode.children hfound with ⟨hbelow, hmid⟩
      rcases ihRest hothers hmid with ⟨hrest, hlast⟩
      exact ⟨List.forall_mem_cons.2 ⟨.node hnode.holds hbelow, hrest⟩, hlast⟩
  | @define _ _ _ _ name type _ _ _ _ _ hdefine _ ihBelow ihRest =>
      rcases List.forall_mem_cons.1 hc with ⟨hnode, hothers⟩
      rcases ihBelow hnode.children hfound with ⟨hbelow, hmid⟩
      rcases ihRest hothers (forall_children_of_define hdefine hbelow hmid) with ⟨hrest, hlast⟩
      exact ⟨List.forall_mem_cons.2 ⟨.node (hspread name type) nofun, hrest⟩, hlast⟩

/-- Spreading adds no nodes but the spreads of the fragments. -/
theorem every_substitute_of_mem (hspread : ∀ f ∈ fragments, P (.spread f.name f.type))
    {node : Selection} (h : Every P node) : Every P (substitute fragments node) := by
  induction node with
  | node label children ih =>
      rw [substitute, substituteAll_eq_map]
      refine .node h.holds ?_
      intro child hchild
      rcases mem_spreadAll hchild with hchild | ⟨-, fragment, hfragment, rfl⟩
      · rcases List.mem_map.1 hchild with ⟨c, hc, rfl⟩
        exact ih c hc (h.children c hc)
      · refine .of_children (hspread fragment hfragment) ?_
        simp [spreadNode, Selection.children]

theorem every_substitute (hspread : ∀ name type, P (.spread name type))
    (fragments : List FragmentDefinition) {node : Selection} (h : Every P node) :
    Every P (substitute fragments node) :=
  every_substitute_of_mem (fun f _ => hspread f.name f.type) h

theorem every_elide {node : Selection} (h : Every P node) : Every P (elide node) := by
  induction node with
  | node label children ih =>
      rw [elide]
      refine .node h.holds ?_
      intro child hchild
      rcases mem_elideAll.1 hchild with ⟨c, hc, rfl, -⟩
      exact ih c hc (h.children c hc)

/-! ## All passes -/

theorem every_of_prune (hspread : ∀ name type, P (.spread name type)) {limit : Nat}
    {tree : Selection} {pruned : Pruned} (h : tree.prune limit = .ok pruned)
    (ht : Every P tree) :
    Every P pruned.root ∧ ∀ f ∈ pruned.fragments, EveryBelow P f := by
  rcases prune_eq_ok h with ⟨children, nodes, found, fragments, p⟩
  have hchildren := every_of_normalize p.normal ht.children
  rcases every_of_extraction hspread p.extracted hchildren nofun with ⟨hnodes, hfound⟩
  refine ⟨?_, ?_⟩
  · rw [p.root]
    exact every_elide (every_substitute hspread fragments (.node ht.holds hnodes))
  · intro f hf
    rcases Outcome.mem_right p.fragmentsElided hf with ⟨g, hg, -, -, hchildren, -⟩
    rcases Outcome.mem_right p.fragmentsNormal hg with ⟨k, hk, -, -, hnormal⟩
    have hbelow := every_of_normalize hnormal (hfound k hk)
    intro child hchild
    rw [hchildren] at hchild
    rcases mem_elideAll.1 hchild with ⟨c, hc, rfl, -⟩
    exact every_elide (hbelow c hc)

end Selection

/-! ## Fields of expressions -/

/-- The sources that an expression filters by. -/
def Expression.sources : Expression → List ArgumentSource
  | .root _ _ | .current => []
  | .member target _ => target.sources
  | .project source selector | .projectMany source selector | .including source selector =>
      source.sources ++ selector.sources
  | .filter source arguments => arguments :: source.sources
  | .cast source _ => source.sources
  | .withFragment source _ _ selection => source.sources ++ selection.sources

/-- A field is declared by a type, and its arguments come from one of the sources. Expressions
spread nothing: they apply fragments where these are defined. -/
def Label.Provided (s : Schema) (sources : List ArgumentSource) : Label → Prop
  | .field name type arguments source =>
      (∃ owner fields, s.fields? owner = some fields ∧ ⟨name, type, arguments⟩ ∈ fields) ∧
        ∀ x, source = some x → x ∈ sources
  | .spread _ _ => False
  | _ => True

/-- A tree before pruning. Nothing is spread in it: spreads are what pruning puts in. -/
structure Unpruned where
  root : Selection
  spreadFree : root.SpreadFree

namespace Compiler

open Selection (Every)

variable {c : Compiler} {e : Expression} {scope : Scope} {f : Focused}
  {sources : List ArgumentSource}

/-- What a type brings along are leaf fields without arguments, discriminators and subtypes. -/
theorem every_expansion {P : Label → Prop} (s : Schema) (type : GraphType) (defaultScalars : Bool)
    (hfield : ∀ owner fields field, s.fields? owner = some fields → field ∈ fields →
      field.arguments = [] → P (.field field.name field.type [] none))
    (htypename : ∀ type, P (.typename type)) (hsubtype : ∀ type, P (.subtype type)) :
    ∀ node ∈ s.expansion type defaultScalars, Every P node := by
  have hleaf : ∀ owner, ∀ node ∈ s.leafFields owner, Every P node := by
    intro owner node hnode
    rcases Schema.mem_leafFields hnode with ⟨fields, field, hfields, hmem, harguments, rfl⟩
    exact .node (hfield owner fields field hfields hmem harguments) nofun
  have hnarrowed : ∀ kind owner, Every P (s.subtypeNode defaultScalars kind owner) := by
    intro kind owner
    refine .of_children (hsubtype _) fun node hnode => ?_
    exact hleaf owner node (Schema.mem_subtypeNode hnode)
  intro node hnode
  rcases Schema.mem_expansion hnode with hnode | rfl | ⟨object, -, rfl⟩ | ⟨interface, -, rfl⟩
  · exact hleaf _ node hnode
  · exact .node (htypename _) nofun
  · exact hnarrowed .object object
  · exact hnarrowed .interface interface

theorem provided_expansion (s : Schema) (sources : List ArgumentSource) (type : GraphType)
    (defaultScalars : Bool) :
    ∀ node ∈ s.expansion type defaultScalars, Every (Label.Provided s sources) node := by
  refine every_expansion s type defaultScalars ?_ (fun _ => trivial) (fun _ => trivial)
  intro owner fields field hfields hfield harguments
  rcases field with ⟨name, type, arguments⟩
  subst harguments
  exact ⟨⟨owner, fields, hfields, hfield⟩, nofun⟩

theorem provided_fieldNode {owner : TypeRef} {fields : List Field} {field : Field}
    {node : Selection} (hfields : c.schema.fields? owner = some fields) (hfield : field ∈ fields)
    (hscope : ∀ x, scope.arguments = some x → x ∈ sources)
    (h : c.fieldNode field scope = .ok node) : Every (Label.Provided c.schema sources) node := by
  rcases fieldNode_eq_ok h with ⟨source, -, hsource, rfl⟩
  refine .node ⟨⟨owner, fields, hfields, hfield⟩, fun x hx => hscope x (hsource x hx)⟩ ?_
  intro child hchild
  split at hchild
  · exact provided_expansion _ _ _ _ child hchild
  · cases hchild

/-- Filters hand their sources down, and nothing else does. -/
theorem Derives.provided (h : c.Derives e scope f) (he : e.sources ⊆ sources)
    (hscope : ∀ x, scope.arguments = some x → x ∈ sources) :
    Every (Label.Provided c.schema sources) f.root := by
  induction h with
  | root _ hfield hnode =>
      rcases entryField_eq_ok hfield with ⟨fields, hfields, hmem⟩
      exact provided_fieldNode hfields hmem hscope hnode
  | fragment _ => exact .node trivial (provided_expansion _ _ _ _)
  | elementMember _ hmember hnode =>
      rcases resolveMember_eq_ok hmember with ⟨fields, hfields, hmem⟩
      exact provided_fieldNode hfields hmem hscope hnode
  | member _ hmember hnode ih =>
      rcases resolveMember_eq_ok hmember with ⟨fields, hfields, hmem⟩
      exact (ih he nofun).push (provided_fieldNode hfields hmem hscope hnode)
  | project _ _ ihSource ihSelector | projectMany _ _ ihSource ihSelector =>
      rcases List.append_subset.1 he with ⟨hsource, hselector⟩
      exact (ihSource hsource nofun).push (ihSelector hselector hscope)
  | filter _ ih =>
      rcases List.cons_subset.1 he with ⟨harguments, hsource⟩
      refine ih hsource ?_
      rintro x ⟨⟩
      exact harguments
  | including _ _ hnone _ ihSource ihSelector =>
      rcases List.append_subset.1 he with ⟨hsource, hselector⟩
      refine (ihSource hsource hscope).push (ihSelector hselector ?_)
      simp [hnone]
  | cast _ _ _ ih => exact (ih he hscope).push (.node trivial (provided_expansion _ _ _ _))
  | withFragment _ _ _ _ _ hnone _ _ ihSource ihSelection =>
      rcases List.append_subset.1 he with ⟨hsource, hselection⟩
      refine (ihSource hsource hscope).push (ihSelection hselection ?_)
      simp [hnone]

/-- The path to the head of a tree leads to a node of it. -/
theorem Derives.headed (h : c.Derives e scope f) : f.Headed := by
  induction h with
  | root => exact Focused.headed_ofRoot _
  | fragment => exact Focused.headed_ofRoot _
  | elementMember => exact Focused.headed_ofRoot _
  | member _ _ _ ih => exact ih.attach (Focused.headed_ofRoot _) true
  | project _ _ ihSource ihSelector | projectMany _ _ ihSource ihSelector =>
      exact ihSource.attach ihSelector true
  | filter _ ih => exact ih
  | including _ _ _ _ ihSource ihSelector => exact ihSource.attach ihSelector false
  | cast _ _ _ ih => exact ih.attach (Focused.headed_ofRoot _) true
  | withFragment _ _ _ _ _ _ _ _ ihSource _ =>
      exact ihSource.attach (Focused.headed_ofRoot _) false

/-- A tree starts at a field, or at the fragment that is being defined. -/
theorem Derives.rootLabel (h : c.Derives e scope f) : f.root.label.isField = true ∨
    ∃ name type, f.root.label = .fragment name type ∧ scope.current = .fragment name type := by
  have hfield : ∀ {field : Field} {scope : Scope} {node : Selection},
      c.fieldNode field scope = .ok node → node.label.isField = true := by
    intro field scope node hnode
    rcases fieldNode_eq_ok hnode with ⟨source, -, -, rfl⟩
    rfl
  induction h with
  | root _ _ hnode => exact .inl (hfield hnode)
  | fragment hcurrent => exact .inr ⟨_, _, rfl, hcurrent⟩
  | elementMember _ _ hnode => exact .inl (hfield hnode)
  | filter _ ih => exact ih
  | member _ _ _ ih | project _ _ ih _ | projectMany _ _ ih _ | including _ _ _ _ ih _
  | cast _ _ _ ih | withFragment _ _ _ _ _ _ _ _ ih _ =>
      rw [Focused.label_attach]
      exact ih

theorem provided_of_tree {tree : Selection} (h : c.tree e = .ok tree) :
    Every (Label.Provided c.schema e.sources) tree := by
  rcases Outcome.bind_eq_ok_iff.1 h with ⟨selected, hselected, h⟩
  cases h
  exact (derives_of_select hselected).provided (List.Subset.refl _) nofun

/-- The trees of expressions are those that pruning is made for. -/
theorem exists_unpruned {tree : Selection} (h : c.tree e = .ok tree) :
    ∃ unpruned : Unpruned, unpruned.root = tree := by
  refine ⟨⟨tree, (provided_of_tree h).imp ?_⟩, rfl⟩
  intro label hprovided
  cases label <;> first | rfl | cases hprovided

end Compiler

end GraphQuery
