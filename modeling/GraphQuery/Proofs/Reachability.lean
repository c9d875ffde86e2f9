import GraphQuery.Proofs.Discriminators
import GraphQuery.Proofs.Document.Uses
import GraphQuery.Proofs.Selection.Reachability

/-!
# Reachability — the fragments of a document

A document prints the spreads of its pruned query, in the operation and in each definition: nothing
stands below a spread, and no definition is left in a tree. So the fragments that it spreads are
defined, each once and for the type that it is spread for, and those that it defines are all used.

- `DocumentNode.Spreads`, `Document.Reaches` : the spreads of a document, and where they lead
- `Document.Linked` : fragments that are defined once and used
- `Selection.Bare`, `Selection.bare_of_prune` : nothing stands below a spread
- `Pruned.Prints`, `Pruned.prints_of_bind` : what is printed of a pruned query
- `Compiler.linked_of_compile` : compiled queries
-/

set_option autoImplicit false

namespace GraphQuery

/-! ## Documents -/

/-- A fragment is spread at a node that is printed, or below it. -/
inductive DocumentNode.Spreads : DocumentNode → String → Prop where
  | spread {name : String} : Spreads (.spread name) name
  | field {label name : String} {arguments : List (String × String)}
      {children : List DocumentNode} {child : DocumentNode} :
      child ∈ children → Spreads child name → Spreads (.field label arguments children) name
  | subtype {typeName name : String} {children : List DocumentNode} {child : DocumentNode} :
      child ∈ children → Spreads child name → Spreads (.subtype typeName children) name

namespace DocumentNode

variable {name other : String} {children : List DocumentNode}

theorem spreads_spread : (spread other).Spreads name ↔ other = name := by
  constructor
  · rintro ⟨⟩
    rfl
  · rintro rfl
    exact .spread

theorem spreads_field {arguments : List (String × String)} :
    (field other arguments children).Spreads name ↔ ∃ child ∈ children, child.Spreads name := by
  constructor
  · rintro (_ | ⟨hchild, h⟩)
    exact ⟨_, hchild, h⟩
  · rintro ⟨child, hchild, h⟩
    exact .field hchild h

theorem spreads_subtype :
    (subtype other children).Spreads name ↔ ∃ child ∈ children, child.Spreads name := by
  constructor
  · rintro (_ | _ | ⟨hchild, h⟩)
    exact ⟨_, hchild, h⟩
  · rintro ⟨child, hchild, h⟩
    exact .subtype hchild h

end DocumentNode

/-- A fragment is spread in a definition. -/
def FragmentBlock.Spreads (block : FragmentBlock) (name : String) : Prop :=
  ∃ child ∈ block.children, child.Spreads name

namespace Document

/-- The fragments that the operation spreads, and those that their definitions spread, and so
on. -/
inductive Reaches (document : Document) : String → Prop where
  | operation {name : String} : document.root.Spreads name → Reaches document name
  | definition {block : FragmentBlock} {name : String} :
      Reaches document block.name → block ∈ document.fragments → block.Spreads name →
      Reaches document name

/-- What is spread is defined, exactly once, and what is defined is used. -/
structure Linked (document : Document) : Prop where
  distinct : (document.fragments.map FragmentBlock.name).Nodup
  operationClosed : ∀ name, document.root.Spreads name →
    ∃ block ∈ document.fragments, block.name = name
  definitionsClosed : ∀ definition ∈ document.fragments, ∀ name, definition.Spreads name →
    ∃ block ∈ document.fragments, block.name = name
  used : ∀ block ∈ document.fragments, document.Reaches block.name

end Document

/-! ## Spreads of trees -/

namespace Selection

/-- A fragment is spread at a node, or below it. -/
def Spreads (node : Selection) (name : String) : Prop :=
  ∃ type, node.Contains (.spread name type)

variable {name : String} {limit levels : Nat} {node : Selection}
  {children nodes out : List Selection} {fragments found last : List FragmentDefinition}

theorem spreads_iff : node.Spreads name ↔
    (∃ type, node.label = .spread name type) ∨ ∃ child ∈ node.children, child.Spreads name := by
  constructor
  · rintro ⟨type, h⟩
    rcases contains_iff.1 h with hlabel | ⟨child, hchild, hcontains⟩
    · exact .inl ⟨type, hlabel.symm⟩
    · exact .inr ⟨child, hchild, type, hcontains⟩
  · rintro (⟨type, hlabel⟩ | ⟨child, hchild, type, hcontains⟩)
    · exact ⟨type, contains_iff.2 (.inl hlabel.symm)⟩
    · exact ⟨type, .deeper hchild hcontains⟩

/-- Nothing stands below a spread. -/
abbrev Bare : Selection → Prop :=
  Throughout fun label children => label.isSpread = true → children = []

theorem bare_spreadNode (fragment : FragmentDefinition) : Bare (spreadNode fragment) :=
  .node (fun _ => rfl) fun _ h => absurd h List.not_mem_nil

/-- Merging puts spreads with spreads, below which nothing stands, and folding adds children to
fields only. -/
theorem bare_of_normalize (h : normalize limit levels children = .ok out)
    (hc : ∀ child ∈ children, Bare child) : ∀ node ∈ out, Bare node := by
  induction levels generalizing children out with
  | zero => cases h
  | succ levels ih =>
      intro node hnode
      rcases exists_source_of_normalize h hnode with ⟨child, -, hlabel, below, hmem, hbelow⟩
      refine .of_children (fun hspread => ?_) (ih hbelow fun g hg => ?_)
      · refine List.eq_nil_iff_forall_not_mem.2 fun below' hbelow' => ?_
        rcases exists_mem_of_normalize hbelow hbelow' with ⟨g, hg⟩
        rw [hlabel] at hspread
        cases (hmem g).1 hg with
        | child hother hmerges hg _ =>
            have hbare := (hc _ hother).holds
            rw [Label.isSpread_of_mergesWith hmerges] at hspread
            rw [hbare hspread] at hg
            cases hg
        | folded _ _ _ haccepts _ =>
            have hfield := haccepts.1
            cases hchild : child.label <;> rw [hchild] at hspread hfield <;> cases hspread
            cases hfield
      · cases (hmem g).1 hg with
        | child hother _ hg _ => exact (hc _ hother).children g hg
        | folded hsubtype _ hfield _ hg =>
            exact ((hc _ hsubtype).children _ hfield).children g hg

theorem bare_of_extraction (h : Extraction found children out last)
    (hfree : ∀ child ∈ children, SpreadFree child)
    (hfound : ∀ f ∈ found, ∀ child ∈ f.children, Bare child) :
    (∀ node ∈ out, Bare node) ∧ ∀ f ∈ last, ∀ child ∈ f.children, Bare child := by
  induction h with
  | nil => exact ⟨nofun, hfound⟩
  | @keep _ _ _ label _ _ _ _ _ _ _ ihBelow ihRest =>
      rcases List.forall_mem_cons.1 hfree with ⟨hnode, hothers⟩
      rcases ihBelow hnode.children hfound with ⟨hbelow, hmid⟩
      rcases ihRest hothers hmid with ⟨hrest, hlast⟩
      have hnot : label.isSpread = false := hnode.holds
      exact ⟨List.forall_mem_cons.2 ⟨.node (fun hspread => by simp [hnot] at hspread) hbelow,
        hrest⟩, hlast⟩
  | define _ hdefine _ ihBelow ihRest =>
      rcases List.forall_mem_cons.1 hfree with ⟨hnode, hothers⟩
      rcases ihBelow hnode.children hfound with ⟨hbelow, hmid⟩
      rcases ihRest hothers (forall_children_of_define hdefine hbelow hmid) with ⟨hrest, hlast⟩
      exact ⟨List.forall_mem_cons.2 ⟨.node (fun _ => rfl) nofun, hrest⟩, hlast⟩

theorem bare_substitute (h : Bare node) : Bare (substitute fragments node) := by
  induction node with
  | node label children ih =>
      rw [substitute, substituteAll_eq_map]
      refine .node (fun hspread => ?_) fun child hchild => ?_
      · -- Fragments are spread below fields and subtypes, but not below spreads.
        have hneeds : label.needsChildren = false := by
          cases label <;> first | rfl | cases hspread
        have hnone : children = [] := h.holds hspread
        simp [spreadAll, hneeds, hnone]
      · rcases mem_spreadAll hchild with hchild | ⟨-, fragment, -, rfl⟩
        · rcases List.mem_map.1 hchild with ⟨c, hc, rfl⟩
          exact ih c hc (h.children c hc)
        · exact bare_spreadNode fragment

theorem bare_elide (h : Bare node) : Bare (elide node) := by
  induction node with
  | node label children ih =>
      rw [elide]
      refine .node (fun hspread => ?_) fun child hchild => ?_
      · have hnone : children = [] := h.holds hspread
        rw [hnone, elideAll]
      · rcases mem_elideAll.1 hchild with ⟨c, hc, rfl, -⟩
        exact ih c hc (h.children c hc)

/-- Nothing stands below the spreads of a pruned query. -/
theorem bare_of_prune {tree : Unpruned} {pruned : Pruned}
    (h : tree.root.prune limit = .ok pruned) :
    pruned.Throughout fun label children => label.isSpread = true → children = [] := by
  rcases prune_eq_ok h with ⟨children, nodes, found, fragments, p⟩
  have hnormal := every_of_normalize p.normal tree.spreadFree.children
  rcases bare_of_extraction p.extracted hnormal nofun with ⟨hnodes, hfound⟩
  refine ⟨?_, fun f hf child hchild => ?_⟩
  · rw [p.root]
    refine bare_elide (bare_substitute (.node (fun hspread => ?_) hnodes))
    simp [tree.spreadFree.holds] at hspread
  · rcases Outcome.mem_right p.fragmentsElided hf with ⟨g, hg, -, -, hchildren, -⟩
    rcases Outcome.mem_right p.fragmentsNormal hg with ⟨k, hk, -, -, hnormal⟩
    rw [hchildren] at hchild
    rcases mem_elideAll.1 hchild with ⟨c, hc, rfl, -⟩
    exact bare_elide (bare_of_normalize hnormal (hfound k hk) c hc)

/-! ## Printing -/

/-- What is printed of a node spreads what the node does. -/
def PrintsSpreads (start : String) (node : Selection) : Prop :=
  ∀ {declared last : List Variable} {printed : DocumentNode},
    (node.bind start).run declared = .ok (printed, last) →
      ∀ name, printed.Spreads name ↔ node.Spreads name

variable {start : String} {declared rest : List Variable} {printed : List DocumentNode}

theorem GroupBinds.spreads_iff {group : PrintGroup}
    (h : GroupBinds start group children declared printed rest)
    (hall : ∀ child ∈ children, PrintsSpreads start child) :
    (∃ below ∈ printed, below.Spreads name) ↔
      ∃ child ∈ children, child.label.printGroup? = some group ∧ child.Spreads name := by
  induction h with
  | nil => simp
  | print hgroup hnode _ ih =>
      rcases List.forall_mem_cons.1 hall with ⟨hchild, hothers⟩
      simp [hgroup, hchild hnode, ih hothers]
  | skip hgroup _ ih =>
      rcases List.forall_mem_cons.1 hall with ⟨-, hothers⟩
      simp [hgroup, ih hothers]

/-- The groups of children are printed one after the other, and together they are all children. -/
theorem spreads_of_bindChildren (hall : ∀ child ∈ children, PrintsSpreads start child)
    (hfree : ∀ child ∈ children, DefinitionFree child)
    (h : (bindChildren start children).run declared = .ok (printed, rest)) :
    (∃ below ∈ printed, below.Spreads name) ↔ ∃ child ∈ children, child.Spreads name := by
  rcases bindChildren_eq_ok h with ⟨_, _, _, _, _, hfields, hspreads, hsubtypes, rfl⟩
  have hgroup : ∀ child ∈ children, ∃ group, child.label.printGroup? = some group := by
    intro child hchild
    have hnot := (hfree child hchild).holds
    cases hlabel : child.label <;> rw [hlabel] at hnot <;> first | exact ⟨_, rfl⟩ | cases hnot
  simp only [List.mem_append, or_and_right, exists_or, hfields.spreads_iff hall,
    hspreads.spreads_iff hall, hsubtypes.spreads_iff hall]
  constructor
  · rintro ((⟨child, hchild, -, h⟩ | ⟨child, hchild, -, h⟩) | ⟨child, hchild, -, h⟩) <;>
      exact ⟨child, hchild, h⟩
  · rintro ⟨child, hchild, h⟩
    rcases hgroup child hchild with ⟨group, hgroup⟩
    cases group with
    | fields => exact .inl (.inl ⟨child, hchild, hgroup, h⟩)
    | spreads => exact .inl (.inr ⟨child, hchild, hgroup, h⟩)
    | subtypes => exact .inr ⟨child, hchild, hgroup, h⟩

theorem printsSpreads (start : String) (hfree : DefinitionFree node) (hbare : Bare node) :
    PrintsSpreads start node := by
  induction node with
  | node label children ih =>
      intro declared last printed h name
      have hall : ∀ child ∈ children, PrintsSpreads start child := fun child hchild =>
        ih child hchild (hfree.children child hchild) (hbare.children child hchild)
      have hbelow : ∀ {declared last : List Variable} {below : List DocumentNode},
          (bindChildren start children).run declared = .ok (below, last) →
            ((∃ child ∈ below, child.Spreads name) ↔ ∃ child ∈ children, child.Spreads name) :=
        fun hbelow => spreads_of_bindChildren hall hfree.children hbelow
      rw [spreads_iff]
      simp only [Selection.label, Selection.children]
      cases binds_of_bind h with
      | field _ hchildren | typename hchildren =>
          simp [← hbelow hchildren, DocumentNode.spreads_field]
      | subtype hchildren => simp [← hbelow hchildren, DocumentNode.spreads_subtype]
      | spread =>
          have hnone : children = [] := hbare.holds rfl
          simp [hnone, DocumentNode.spreads_spread]
      | fragment => cases hfree.holds

end Selection

namespace Pruned

variable {pruned : Pruned} {document : Document} {start : String}

/-- A document prints a pruned query: it has the spreads of the operation in the operation, and a
block for each definition, with the name, the type and the spreads of the definition. -/
structure Prints (pruned : Pruned) (document : Document) : Prop where
  operation : ∀ name, document.root.Spreads name ↔ pruned.root.Spreads name
  definitions : List.Forall₂ (fun (f : FragmentDefinition) (block : FragmentBlock) =>
    block.name = f.name ∧ block.typeName = f.type.name ∧
      ∀ name, block.Spreads name ↔ ∃ child ∈ f.children, child.Spreads name)
    pruned.fragments document.fragments

theorem prints_of_allBind {fragments : List FragmentDefinition}
    {blocks : List FragmentBlock} {declared last : List Variable}
    (h : FragmentDefinition.AllBind start fragments declared blocks last)
    (hfree : ∀ f ∈ fragments, ∀ child ∈ f.children, Selection.DefinitionFree child)
    (hbare : ∀ f ∈ fragments, ∀ child ∈ f.children, Selection.Bare child) :
    List.Forall₂ (fun (f : FragmentDefinition) (block : FragmentBlock) =>
      block.name = f.name ∧ block.typeName = f.type.name ∧
        ∀ name, block.Spreads name ↔ ∃ child ∈ f.children, child.Spreads name)
      fragments blocks := by
  induction h with
  | nil => exact .nil
  | cons hbelow _ ih =>
      rcases List.forall_mem_cons.1 hfree with ⟨hfree, hfreeRest⟩
      rcases List.forall_mem_cons.1 hbare with ⟨hbare, hbareRest⟩
      refine .cons ⟨rfl, rfl, fun name => ?_⟩ (ih hfreeRest hbareRest)
      exact Selection.spreads_of_bindChildren (fun child hchild =>
        Selection.printsSpreads start (hfree child hchild) (hbare child hchild)) hfree hbelow

/-- Binding prints the spreads of trees without definitions, below whose spreads nothing stands. -/
theorem prints_of_bind {declared : List Variable}
    (hfree : pruned.DefinitionFree)
    (hbare : pruned.Throughout fun label children => label.isSpread = true → children = [])
    (h : pruned.bind start = .ok (document, declared)) : pruned.Prints document := by
  rcases Pruned.bind_eq_ok h with ⟨next, hoperation, hblocks, -⟩
  exact {
    operation := Selection.printsSpreads start hfree.root hbare.1 hoperation
    definitions := prints_of_allBind hblocks hfree.fragments hbare.2 }

/-- Where the spreads of a query lead, those of its document do. -/
theorem Prints.reaches {name : String} (hprints : pruned.Prints document)
    (hfree : pruned.DefinitionFree)
    (h : Selection.Reaches [pruned.root] pruned.fragments name) : document.Reaches name := by
  induction h with
  | here happlied =>
      rcases happlied with ⟨node, hnode, happlied⟩
      obtain rfl := List.mem_singleton.1 hnode
      have hcontains := (Selection.applied_iff_contains hfree.root).1 happlied
      exact .operation ((hprints.operation _).2 hcontains)
  | through _ happlied ih =>
      rcases happlied with ⟨f, hf, rfl, child, hchild, happlied⟩
      rcases Outcome.mem_left hprints.definitions hf with ⟨block, hblock, hname, -, hspreads⟩
      rw [← hname] at ih
      refine ih.definition hblock ((hspreads _).2 ⟨child, hchild, ?_⟩)
      exact (Selection.applied_iff_contains (hfree.fragments f hf child hchild)).1 happlied

/-- What a query spreads, and has defined, is defined in its document. -/
theorem Prints.exists_block {name : String} {node : Selection} (hprints : pruned.Prints document)
    (hdefined : Selection.Every (Selection.Defined pruned.fragments) node)
    (h : node.Spreads name) : ∃ block ∈ document.fragments, block.name = name := by
  rcases h with ⟨type, h⟩
  rcases hdefined.contains h name type rfl with ⟨f, hf, hname, -⟩
  rcases Outcome.mem_left hprints.definitions hf with ⟨block, hblock, hblockName, -⟩
  exact ⟨block, hblock, hblockName.trans hname⟩

end Pruned

/-! ## Expressions -/

namespace Compiler

variable {c : Compiler} {e : Expression} {query : CompiledQuery}

/-- The fragments of a compiled query are closed and all used, whatever is nested and covered: the
document prints the spreads of the pruned query, each of these has a definition of its name and
type, no name is defined twice, and spreads lead from the operation to every definition. -/
theorem linked_of_compile (h : c.compile e = .ok query) :
    ∃ tree pruned, c.tree e = .ok tree ∧
      tree.prune c.configuration.recursionLimit = .ok pruned ∧
      pruned.bind c.configuration.variablePrefix = .ok (query.content, query.declared) ∧
      pruned.Prints query.content ∧
      (Selection.Every (Selection.Defined pruned.fragments) pruned.root ∧
        ∀ f ∈ pruned.fragments,
          Selection.EveryBelow (Selection.Defined pruned.fragments) f) ∧
      query.content.Linked := by
  rcases compile_eq_ok h with ⟨tree, pruned, htree, hlabel, hpruned, hbind⟩
  have hfield := Label.isField_of_exists hlabel
  have hfree := Selection.definitionFree_of_prune hpruned hfield
  have hdefined := Selection.defined_of_prune hpruned
  have hprints := Pruned.prints_of_bind hfree (Selection.bare_of_prune hpruned) hbind
  refine ⟨tree.root, pruned, htree, hpruned, hbind, hprints, hdefined, ?_, ?_, ?_, ?_⟩
  · have hnames : query.content.fragments.map FragmentBlock.name =
        pruned.fragments.map FragmentDefinition.name := by
      refine List.forall₂_eq_eq_eq ▸ List.forall₂_map_left_iff.2 (List.forall₂_map_right_iff.2 ?_)
      exact hprints.definitions.flip.imp fun _ _ hblock => hblock.1
    rw [hnames]
    exact Selection.distinctNames_of_prune hpruned
  · intro name hname
    exact hprints.exists_block hdefined.1 ((hprints.operation name).1 hname)
  · intro definition hdefinition name hname
    rcases Outcome.mem_right hprints.definitions hdefinition with ⟨f, hf, -, -, hspreads⟩
    rcases (hspreads name).1 hname with ⟨child, hchild, hchildSpreads⟩
    exact hprints.exists_block (hdefined.2 f hf child hchild) hchildSpreads
  · intro block hblock
    rcases Outcome.mem_right hprints.definitions hblock with ⟨f, hf, hname, -, -⟩
    rw [hname]
    exact hprints.reaches hfree (Selection.reaches_of_prune hpruned hfield f hf)

/-! ## Makers -/

/-- The first media with their makers. A fragment on persons is applied to the makers, and again in
a fragment on media that selects the makers as well. -/
def makersTwice : Expression :=
  let made : Expression :=
    .withFragment (.member .current ⟨"Media", "maker"⟩) "Maker" "Person" .current
  .filter
    (.withFragment (.including (.root "Media" (some "media")) made) "Made" "Media"
      (.including .current made))
    (.ofMembers 0 [("first", .null)])

/-- The makers of the operation go, with the fragment applied to them: the fragment on media covers
them, and spreads the fragment on persons. -/
def makersTwiceDocument : Document where
  declared := [("var_0", .named "Int")]
  root := .field "media" [("first", "var_0")] [.spread "Made"]
  fragments := [
    ⟨"Maker", "Person", [.field "id" [] []]⟩,
    ⟨"Made", "Media", [.field "id" [] [], .field "__typename" [] [],
      .field "maker" [] [.field "id" [] [], .spread "Maker"],
      .subtype "Book" [.field "pages" [] []]]⟩]

theorem linked_makersTwice :
    ∃ query, libraryCompiler.compile makersTwice = .ok query ∧ query.content = makersTwiceDocument ∧
      ∃ tree pruned, libraryCompiler.tree makersTwice = .ok tree ∧ tree.prune 8 = .ok pruned ∧
        pruned.bind "var_" = .ok (query.content, query.declared) ∧
        pruned.Prints query.content ∧
        (Selection.Every (Selection.Defined pruned.fragments) pruned.root ∧
          ∀ f ∈ pruned.fragments,
            Selection.EveryBelow (Selection.Defined pruned.fragments) f) ∧
        query.content.Linked := by
  obtain ⟨query, h, hcontent⟩ : ∃ query, libraryCompiler.compile makersTwice = .ok query ∧
      query.content = makersTwiceDocument := ⟨_, rfl, rfl⟩
  exact ⟨query, h, hcontent, linked_of_compile h⟩

end Compiler

end GraphQuery
