import GraphQuery.Proofs.Document.Printing
import GraphQuery.Proofs.Selection.Reordering
import GraphQuery.Proofs.Variables

/-!
# Arguments — what becomes of the arguments of a tree

A field that selects something is passed its arguments in the compiled document, where it stands or
where it is folded outward to, as far as it is folded into fields that take them. A field that
selects nothing is left out, with its arguments. Merging and covering only put fields in for each
other that take the same arguments.

- `CompiledQuery.PassesFrom` : an argument that a document passes, and where its value is from
- `CompiledQuery.KeepsArguments` : what a query keeps of the arguments of a tree
- `Compiler.keepsArguments_of_compile` : every compiled query does
- `Compiler.argument_lost_with_selection` : an argument of a field that selects nothing
-/

set_option autoImplicit false

namespace GraphQuery

/-- The place of the root of a query, on some object. -/
def Schema.operation (s : Schema) (root : TypeRef) : Place :=
  ⟨none, [], root, s.queryType⟩

/-- At a place, the document passes an argument of a field by a variable that stands for the
argument of a source. Its value is the one that a source of that identity has. -/
structure CompiledQuery.PassesFrom (query : CompiledQuery) (s : Schema)
    (admits : TypeRef → TypeRef → Prop) (root : TypeRef) (sources : List ArgumentSource)
    (place : Place) (field argument : String) (source : ArgumentSource) (v : Variable) : Prop where
  declared : v ∈ query.declared
  key : v.source = source.identity ∧ v.argument = argument
  value : ∃ x ∈ sources, x.identity = source.identity ∧ x.value argument = some v.value
  passed : ∃ passed children,
    query.content.Shows s admits query.declared root place (.field field passed children) ∧
      (argument, v.name) ∈ passed

/-- What a query keeps of the arguments of a tree. -/
structure CompiledQuery.KeepsArguments (query : CompiledQuery) (s : Schema)
    (sources : List ArgumentSource) (tree : Selection) : Prop where
  /-- Every node of the tree stands somewhere. -/
  stands : ∀ root node, tree.Holds node →
    ∃ place, Selection.StandsAnyhow (s.operation root) [tree] place node
  /-- Fields that are selected from one type and select the same take the same arguments. -/
  agree : ∀ {root place other a b}, Selection.StandsAnyhow (s.operation root) [tree] place a →
    Selection.StandsAnyhow (s.operation root) [tree] other b → place.owner = other.owner →
    a.label.sameSelection b.label = true → a.label.arguments = b.label.arguments
  /-- Whichever types objects are of, a field that selects something is passed an argument for them
  where it stands, or where it is folded outward to, if all fields there that select the same take
  that argument. -/
  passed : ∀ {admits root place node argument},
    Selection.Stands admits [] (s.operation root) [tree] place node → node.Solid →
    argument ∈ node.label.arguments →
    (∀ outer other,
      Selection.FoldsTo (Selection.StandsAnyhow (s.operation root) [tree]) node.label place outer →
      Selection.StandsAnyhow (s.operation root) [tree] outer other →
      other.label.sameSelection node.label = true → argument ∈ other.label.arguments) →
    ∃ source owner v, node.label.source? = some source ∧
      query.PassesFrom s admits root sources { place with owner } node.label.name argument.name
        source v

namespace Label

variable {a b : Label}

theorem isField_of_mem_arguments {argument : Argument} (h : argument ∈ a.arguments) :
    a.isField = true := by
  cases a <;> first | rfl | cases h

theorem name_of_mergesWith (h : a.mergesWith b = true) : a.name = b.name := by
  cases a <;> cases b <;> simp_all [mergesWith, name]

/-- Fields that select the same read their arguments from sources of one identity. -/
theorem source?_of_sameSelection {x : ArgumentSource} (h : a.sameSelection b = true)
    (hx : a.source? = some x) : ∃ y, b.source? = some y ∧ x.identity = y.identity := by
  have hsource := sameSource_iff.1 (sameSelection_iff.1 h).2.2
  rw [hx, Option.map_some] at hsource
  rcases Option.map_eq_some_iff.1 hsource.symm with ⟨y, hy, hidentity⟩
  exact ⟨y, hy, hidentity.symm⟩

end Label

namespace Selection

variable {s : Schema} {admits : TypeRef → TypeRef → Prop} {fragments : List FragmentDefinition}
  {start place : Place} {nodes : List Selection} {node : Selection}

theorem Stands.exists_holds (h : Stands admits [] start nodes place node) :
    ∃ first ∈ nodes, first.Holds node := by
  induction h with
  | here hnode => exact ⟨_, hnode, .here⟩
  | deeper hfirst _ _ ih =>
      rcases ih with ⟨child, hchild, hholds⟩
      exact ⟨_, hfirst, .deeper hchild hholds⟩
  | spread _ _ hfragment _ _ => cases hfragment

/-- What stands in a tree is held by the tree. -/
theorem Stands.holds {tree : Selection} (h : Stands admits [] start [tree] place node) :
    tree.Holds node := by
  rcases h.exists_holds with ⟨first, hfirst, hholds⟩
  rwa [← List.mem_singleton.1 hfirst]

theorem StandsAmong.fits (h : StandsAmong admits fragments start nodes place node)
    (hf : ∀ f ∈ fragments, AllTyped s f.type.typeRef f.children)
    (ht : AllTyped s start.owner nodes) : node.label.Fits s place.owner := by
  rcases h with h | ⟨f, hmem, object, -, h⟩
  · exact h.fits hf ht
  · exact h.fits hf (hf f hmem)

end Selection

namespace Compiler

variable {c : Compiler} {e : Expression} {query : CompiledQuery} {d : Declarations}

/-- Variables hold the values that the sources of the expression have for what they stand for. -/
theorem value_of_declared {tree : Selection} {pruned : Pruned} {limit : Nat}
    (htree : c.tree e = .ok tree) (hpruned : tree.prune limit = .ok pruned) {start : String}
    (hbind : pruned.bind start = .ok (query.content, query.declared)) {v : Variable}
    (hv : v ∈ query.declared) :
    ∃ x ∈ e.sources, x.identity = v.source ∧ x.value v.argument = some v.value := by
  rcases (Pruned.bound_of_bind hbind c.schema.queryType).1.firstUse (regular_nil start) hv with
    hnone | ⟨p, hp, hkey, -, hvalue⟩
  · cases hnone
  · have hkeys : v.source = p.source.identity ∧ v.argument = p.argument.name := Prod.ext_iff.1 hkey
    have hprovided := provided_of_mem_passings htree hpruned (List.mem_of_find?_eq_some hp)
    exact ⟨p.source, hprovided.1, hkeys.1.symm, by rw [hkeys.2, hvalue]⟩

/-- Every query that is compiled over a built schema keeps the arguments of its tree. -/
theorem keepsArguments_of_compile (hs : d.build = .ok c.schema) (he : e.WellScoped)
    (h : c.compile e = .ok query) :
    ∃ tree, c.tree e = .ok tree ∧ query.KeepsArguments c.schema e.sources tree := by
  rcases compile_eq_ok h with ⟨tree, pruned, htree, hfield, hpruned, hbind⟩
  have htyped := typed_of_tree (Declarations.consistent_of_build hs) he htree
  have hwell := Selection.wellTyped_of_prune hpruned htyped hfield
  have hfits : ∀ {root place node}, Selection.StandsAnyhow (c.schema.operation root) [tree.root]
      place node → node.label.Fits c.schema place.owner := fun hstands =>
    hstands.fits nofun (List.forall_mem_singleton.2 htyped)
  refine ⟨tree.root, htree, fun root node hholds => htyped.exists_stands hholds, ?_, ?_⟩
  · intro root place other a b ha hb howner hsame
    exact Label.arguments_eq_of_fits (Label.sameSelection_iff.1 hsame).1 (hfits ha)
      (howner ▸ hfits hb)
  · intro admits root place node argument hstands hsolid hargument hall
    have hnode : node.label.isField = true := Label.isField_of_mem_arguments hargument
    rcases Selection.kept_of_prune hpruned htyped hstands hnode hsolid with
      ⟨outer, other, hother, hstandsFor, hfolds⟩
    have hsame := hstandsFor.same
    -- What stands there in the tree takes the argument, and so does what is left there.
    rcases Selection.exists_of_foldsTo hfolds hstands.anyhow with ⟨near, hnear, hnearSame⟩
    have hotherFits := hother.fits (fun f hf => (hwell.fragment f hf).2.2.2.1)
      (List.forall_mem_singleton.2 hwell.root)
    have hmem : argument ∈ other.label.arguments := by
      have hmerges := (Label.sameSelection_iff.1
        (Label.sameSelection_trans hsame (Label.sameSelection_symm hnearSame))).1
      rw [Label.arguments_eq_of_fits hmerges hotherFits (hfits hnear)]
      exact hall outer near hfolds hnear hnearSame
    have hfree := Selection.definitionFree_of_prune hpruned (Label.isField_of_exists hfield)
    rcases Pruned.passes_of_bind hbind hwell hfree hother hmem with
      ⟨x, v, hx, hv, hkey, hpassed⟩
    -- The source of the node itself is of the same identity.
    rcases Label.source?_of_sameSelection hsame hx with ⟨source, hsource, hidentity⟩
    rw [hidentity] at hkey
    refine ⟨source, outer.owner, v, hsource, hv, hkey, ?_, ?_⟩
    · rw [← hkey.1, ← hkey.2]
      exact value_of_declared htree hpruned hbind hv
    · rw [← Selection.foldsTo_eq_with_owner hfolds, ← Label.name_of_mergesWith
        (Label.sameSelection_iff.1 hsame).1]
      exact hpassed

/-! ## Fields of two types -/

/-- The field of the object takes one argument more than that of its interface. -/
def relatedDeclarations : Declarations where
  types := [
    .scalar "Int",
    .interface "Node" [⟨"related", .list (.named "Int"), [⟨"limit", .named "Int"⟩]⟩] [],
    .object "A" [⟨"related", .list (.named "Int"),
      [⟨"limit", .named "Int"⟩, ⟨"offset", .named "Int"⟩]⟩] ["Node"],
    .object "Query" [⟨"nodes", .list (.named "Node"), []⟩] []]
  queryType := none
  distinct := by decide

def relatedCompiler : Compiler where
  schema := (relatedDeclarations.build.toOption).getD ⟨[], ⟨0, "Query"⟩⟩
  naming := Naming.identity
  configuration := { Configuration.standard with recursionLimit := 8 }

def windowSource : ArgumentSource :=
  .ofMembers 0 [("limit", .number (.integer 1)), ("offset", .number (.integer 2))]

/-- The field of all nodes, and that of the nodes of the object type with the same source. -/
def relatedOfBoth : Expression :=
  .including
    (.cast
      (.including (.root "Node" none)
        (.filter (.member .current ⟨"Node", "related"⟩) windowSource))
      "A")
    (.filter (.member .current ⟨"A", "related"⟩) windowSource)

def relatedOfBothQuery : CompiledQuery where
  content := {
    declared := [("var_0", .named "Int")]
    root := .field "nodes" [] [.field "__typename" [] [], .field "related" [("limit", "var_0")] []]
    fragments := [] }
  declared := [⟨"var_0", .named .scalar ⟨0, "Int"⟩, .number (.integer 1), 0, "limit"⟩]
  entryPoint := "nodes"
  entryType := .list (.named .interface ⟨1, "Node"⟩)

theorem compile_relatedOfBoth :
    relatedCompiler.compile relatedOfBoth = .ok relatedOfBothQuery := rfl

theorem relatedOfBoth_wellScoped : relatedOfBoth.WellScoped :=
  ⟨.query, .including (.cast (.including .root (.filter (.member .current))))
    (.filter (.member .current))⟩

def limitArgument : Argument := ⟨"limit", .named .scalar ⟨0, "Int"⟩⟩

def offsetArgument : Argument := ⟨"offset", .named .scalar ⟨0, "Int"⟩⟩

def numbersType : GraphType := .list (.named .scalar ⟨0, "Int"⟩)

/-- The field of an object of the object type. -/
def relatedOfObject : Selection :=
  .node (.field "related" numbersType [limitArgument, offsetArgument] (some windowSource)) []

/-- The tree of both fields. -/
def relatedOfBothTree : Selection :=
  .node (.field "nodes" (.list (.named .interface ⟨1, "Node"⟩)) [] none) [
    .node (.typename (.named .interface ⟨1, "Node"⟩)) [],
    .node (.subtype (.named .object ⟨2, "A"⟩)) [],
    .node (.field "related" numbersType [limitArgument] (some windowSource)) [],
    .node (.subtype (.named .object ⟨2, "A"⟩)) [relatedOfObject]]

theorem tree_relatedOfBoth : relatedCompiler.tree relatedOfBoth = .ok relatedOfBothTree := rfl

/-- All fields of that name take the argument of the interface. -/
theorem limit_mem_of_stands {start place : Place} {node : Selection}
    (h : Selection.StandsAnyhow start [relatedOfBothTree] place node)
    (hname : node.label.name = "related") : limitArgument ∈ node.label.arguments := by
  let P : Label → Prop := fun label => label.name = "related" → limitArgument ∈ label.arguments
  have hleaf : ∀ {label : Label}, P label → (Selection.node label []).Every P :=
    fun hlabel => .node hlabel nofun
  have hevery : relatedOfBothTree.Every P := by
    refine .node nofun ?_
    simp only [List.forall_mem_cons]
    exact ⟨hleaf nofun, hleaf nofun, hleaf fun _ => List.mem_cons_self,
      .node nofun (List.forall_mem_singleton.2 (hleaf fun _ => List.mem_cons_self)), nofun⟩
  exact hevery.contains (Selection.contains_iff_holds.2 ⟨node, h.holds, rfl⟩) hname

/-- The argument that both fields take is passed for objects of the object type: the field of the
object type is folded into that of the interface. -/
theorem keepsArguments_of_relatedOfBoth :
    relatedDeclarations.build = .ok relatedCompiler.schema ∧ relatedOfBoth.WellScoped ∧
      relatedCompiler.compile relatedOfBoth = .ok relatedOfBothQuery ∧
      relatedOfBothQuery.KeepsArguments relatedCompiler.schema [windowSource, windowSource]
        relatedOfBothTree ∧
      ∃ owner v, relatedOfBothQuery.PassesFrom relatedCompiler.schema relatedCompiler.schema.Admits
        relatedCompiler.schema.queryType [windowSource, windowSource]
        ⟨none, [⟨relatedCompiler.schema.queryType, "nodes", none⟩], ⟨2, "A"⟩, owner⟩
        "related" "limit" windowSource v := by
  have hbuild : relatedDeclarations.build = .ok relatedCompiler.schema := rfl
  rcases keepsArguments_of_compile hbuild relatedOfBoth_wellScoped compile_relatedOfBoth with
    ⟨tree, htree, hkeeps⟩
  obtain rfl : relatedOfBothTree = tree := Except.ok.inj (tree_relatedOfBoth.symm.trans htree)
  refine ⟨hbuild, relatedOfBoth_wellScoped, compile_relatedOfBoth, hkeeps, ?_⟩
  have hstands : Selection.Stands relatedCompiler.schema.Admits []
      (relatedCompiler.schema.operation relatedCompiler.schema.queryType) [relatedOfBothTree]
      ⟨none, [⟨relatedCompiler.schema.queryType, "nodes", none⟩], ⟨2, "A"⟩, ⟨2, "A"⟩⟩
      relatedOfObject :=
    .deeper (List.mem_singleton.2 rfl) (.field (.inr (by decide)))
      (.deeper (List.mem_of_getElem? (i := 3) rfl) (.subtype (.inl rfl))
        (.here List.mem_cons_self))
  -- Wherever the field of the object is folded to, what it is folded into takes the argument.
  rcases hkeeps.passed hstands (.leaf rfl) List.mem_cons_self fun _ _ _ hother hsame =>
    limit_mem_of_stands hother (Label.name_of_mergesWith (Label.sameSelection_iff.1 hsame).1) with
    ⟨source, owner, v, hsource, hpasses⟩
  cases hsource
  exact ⟨owner, v, hpasses⟩

/-! ## A field that selects nothing -/

/-- Items are related to other items. -/
def linksDeclarations : Declarations where
  types := [
    .scalar "Int",
    .object "Item" [⟨"number", .named "Int", []⟩,
      ⟨"related", .named "Item", [⟨"limit", .named "Int"⟩]⟩] [],
    .object "Query" [⟨"items", .list (.named "Item"), []⟩] []]
  queryType := none
  distinct := by decide

def linksCompiler : Compiler where
  schema := (linksDeclarations.build.toOption).getD ⟨[], ⟨0, "Query"⟩⟩
  naming := Naming.identity
  configuration := { Configuration.standard with recursionLimit := 8, defaultScalars := false }

/-- The numbers of all items, and their related items, of which nothing is selected. -/
def relatedNothing : Expression :=
  .including
    (.including (.root "Item" none) (.member .current ⟨"Item", "number"⟩))
    (.filter (.member .current ⟨"Item", "related"⟩) windowSource)

theorem relatedNothing_wellScoped : relatedNothing.WellScoped :=
  ⟨.query, .including (.including .root (.member .current)) (.filter (.member .current))⟩

def relatedNothingQuery : CompiledQuery where
  content := {
    declared := []
    root := .field "items" [] [.field "number" [] []]
    fragments := [] }
  declared := []
  entryPoint := "items"
  entryType := .list (.named .object ⟨1, "Item"⟩)

theorem compile_relatedNothing :
    linksCompiler.compile relatedNothing = .ok relatedNothingQuery := rfl

/-- The items that nothing is selected of are left out of the query, and what the field takes with
them: the tree has an argument that no variable stands for. -/
theorem argument_lost_with_selection :
    linksDeclarations.build = .ok linksCompiler.schema ∧ relatedNothing.WellScoped ∧
      linksCompiler.compile relatedNothing = .ok relatedNothingQuery ∧
      (∃ tree node, linksCompiler.tree relatedNothing = .ok tree ∧ tree.Holds node ∧
        limitArgument ∈ node.label.arguments) ∧
      ∀ v ∈ relatedNothingQuery.declared, v.argument ≠ limitArgument.name := by
  refine ⟨rfl, relatedNothing_wellScoped, compile_relatedNothing, ?_, nofun⟩
  exact ⟨_, _, rfl, .deeper (List.mem_of_getElem? (i := 1) rfl) .here, List.mem_cons_self⟩

end Compiler

end GraphQuery
