import GraphQuery.Proofs.Selection.Rejection
import GraphQuery.Proofs.Variables

/-!
# Conflicts — fields that are selected together

What a selection set gathers for an object is what it selects itself, under its subtypes and through
the fragments that it spreads.

- `Pruned.SelectionSet` : the selection sets of a pruned query
- `Pruned.Gathers` : the fields that a selection set gathers
- `Pruned.Compatible` : no set selects a field twice, and fields of one type have one type each
- `Pruned.ConflictFree` : all that is gathered can stand in one response
- `Binder.Spared`, `Pruned.isConflict_of_bind` : binding meets no conflicts
- `Compiler.compatible_of_compile` : compiled queries are compatible, and trees are rejected for a
  conflict just when pruning meets one
- `Compiler.not_conflictFree_between_levels` : what stands at different levels is not compared
-/

set_option autoImplicit false

namespace GraphQuery

namespace Pruned

/-! ## Selection sets -/

/-- The selection sets of a pruned query, with the types that they select from. -/
inductive SelectionSet (s : Schema) (pruned : Pruned) : TypeRef → List Selection → Prop where
  | operation : SelectionSet s pruned s.queryType [pruned.root]
  | fragment {f : FragmentDefinition} :
      f ∈ pruned.fragments → SelectionSet s pruned f.type.typeRef f.children
  | deeper {owner : TypeRef} {nodes : List Selection} {node : Selection} :
      SelectionSet s pruned owner nodes → node ∈ nodes →
      SelectionSet s pruned node.label.type.typeRef node.children

/-- The fields that a selection set gathers, with the types that enclose them and the sources of
their arguments. -/
inductive Gathers (pruned : Pruned) :
    TypeRef → List Selection → TypeRef → Field → Option ArgumentSource → Prop where
  | field {owner : TypeRef} {nodes : List Selection} {node : Selection} {name : String}
      {type : GraphType} {arguments : List Argument} {source : Option ArgumentSource} :
      node ∈ nodes → node.label = .field name type arguments source →
      Gathers pruned owner nodes owner ⟨name, type, arguments⟩ source
  | subtype {owner enclosing : TypeRef} {nodes : List Selection} {node : Selection}
      {field : Field} {source : Option ArgumentSource} :
      node ∈ nodes → node.label.isSubtype = true →
      Gathers pruned node.label.type.typeRef node.children enclosing field source →
      Gathers pruned owner nodes enclosing field source
  | spread {owner enclosing : TypeRef} {nodes : List Selection} {node : Selection}
      {f : FragmentDefinition} {field : Field} {source : Option ArgumentSource} :
      node ∈ nodes → node.label = .spread f.name f.type → f ∈ pruned.fragments →
      Gathers pruned f.type.typeRef f.children enclosing field source →
      Gathers pruned owner nodes enclosing field source

/-- What pruning sees to. -/
structure Compatible (s : Schema) (pruned : Pruned) : Prop where
  /-- No two nodes of a selection set are of one kind and name. -/
  once : ∀ {owner nodes}, pruned.SelectionSet s owner nodes → Selection.Apart nodes
  /-- Gathered fields of one name and one enclosing type are one field of the schema. -/
  sameField : ∀ {owner nodes enclosing a b x y}, pruned.SelectionSet s owner nodes →
    pruned.Gathers owner nodes enclosing a x → pruned.Gathers owner nodes enclosing b y →
      a.name = b.name → a = b

/-- Gathered leaf fields of one name have one type, and gathered fields of one name that an object
can have both have their arguments from one source. -/
def ConflictFree (s : Schema) (pruned : Pruned) : Prop :=
  ∀ {owner nodes first second a b x y}, pruned.SelectionSet s owner nodes →
    pruned.Gathers owner nodes first a x → pruned.Gathers owner nodes second b y →
      a.name = b.name →
        (a.type.isLeaf = true → b.type.isLeaf = true → a.type = b.type) ∧
          ((∃ object, s.IsObject object ∧ s.Admits first object ∧ s.Admits second object) →
            x.map ArgumentSource.identity = y.map ArgumentSource.identity)

variable {s : Schema} {pruned : Pruned} {owner enclosing : TypeRef} {nodes : List Selection}
  {a : Field} {x : Option ArgumentSource}

theorem WellTyped.definition (h : pruned.WellTyped s) {f : FragmentDefinition}
    (hf : f ∈ pruned.fragments) : Selection.AllTyped s f.type.typeRef f.children := by
  rcases h.fragment f hf with ⟨-, -, -, htyped, -⟩
  exact htyped

theorem SelectionSet.allTyped (h : pruned.SelectionSet s owner nodes) (ht : pruned.WellTyped s) :
    Selection.AllTyped s owner nodes := by
  induction h with
  | operation => exact List.forall_mem_singleton.2 ht.root
  | fragment hf => exact ht.definition hf
  | deeper _ hnode ih => exact (ih _ hnode).childrenTyped

theorem SelectionSet.allDistinct (h : pruned.SelectionSet s owner nodes)
    (hroot : Selection.Distinct pruned.root)
    (hfragments : ∀ f ∈ pruned.fragments, Selection.AllDistinct f.children) :
    Selection.AllDistinct nodes := by
  induction h with
  | operation => exact ⟨List.pairwise_singleton _ _, List.forall_mem_singleton.2 hroot⟩
  | fragment hf => exact hfragments _ hf
  | deeper _ hnode ih =>
      have hdistinct := ih.2 _ hnode
      exact ⟨hdistinct.apart, hdistinct.children⟩

/-- What is gathered is a field of the type that encloses it. -/
theorem Gathers.declared (h : pruned.Gathers owner nodes enclosing a x) (ht : pruned.WellTyped s)
    (hnodes : Selection.AllTyped s owner nodes) : s.field? enclosing a.name = some a := by
  induction h with
  | field hnode hlabel =>
      have hfits := (hnodes _ hnode).fits
      rw [hlabel] at hfits
      exact hfits.1
  | subtype hnode _ _ ih => exact ih (hnodes _ hnode).childrenTyped
  | spread _ _ hf _ ih => exact ih (ht.definition hf)

end Pruned

/-! ## Binding meets no conflicts -/

namespace Binder

variable {α β : Type} {x : Binder α} {f : α → Binder β}

/-- If the computation fails, then not for a conflict. -/
def Spared (x : Binder α) : Prop :=
  ∀ declared cause, x.run declared = .error cause → cause.isConflict = false

theorem Spared.pure (a : α) : Spared (pure a : Binder α) := by
  intro declared cause h
  cases h

theorem Spared.throw {cause : CompileError} (h : cause.isConflict = false) :
    Spared (throw cause : Binder α) := by
  intro declared other hother
  cases hother
  exact h

theorem Spared.bind (hx : Spared x) (hf : ∀ a, Spared (f a)) : Spared (x >>= f) := by
  intro declared cause h
  rw [StateT.run_bind] at h
  rcases Outcome.bind_eq_error_iff.1 h with hfirst | ⟨⟨a, next⟩, -, hsecond⟩
  · exact hx declared cause hfirst
  · exact hf a next cause hsecond

theorem Spared.mapM {g : α → Binder β} (hg : ∀ a, Spared (g a)) (xs : List α) :
    Spared (xs.mapM g) := by
  induction xs with
  | nil => exact .pure []
  | cons a xs ih =>
      rw [List.mapM_cons]
      exact (hg a).bind fun b => ih.bind fun bs => .pure (b :: bs)

end Binder

open Binder (Spared)

theorem spared_bindArgument (start : String) (source : ArgumentSource) (argument : Argument) :
    Spared (bindArgument start source argument) := by
  have hget : Spared (get : Binder (List Variable)) := nofun
  have hset : ∀ declared : List Variable, Spared (set declared : Binder PUnit) := by
    intro declared before cause h
    cases h
  unfold bindArgument
  refine hget.bind fun declared => ?_
  split
  · exact .pure _
  · split
    · exact .throw rfl
    · exact (hset _).bind fun _ => .pure _

theorem spared_bindArguments (start field : String) (source : Option ArgumentSource)
    (arguments : List Argument) : Spared (bindArguments start field source arguments) := by
  unfold bindArguments
  split
  · exact .pure []
  · split
    · exact .throw rfl
    · next source =>
        exact .mapM (fun argument => (spared_bindArgument start source argument).bind
          fun name => .pure (argument.name, name)) arguments

namespace Selection

variable {start : String} {children : List Selection}

theorem spared_bindGroup (hall : ∀ child ∈ children, Spared (child.bind start))
    (group : PrintGroup) : Spared (bindGroup start group children) := by
  induction children with
  | nil =>
      rw [bindGroup]
      exact .pure []
  | cons child rest ih =>
      rcases List.forall_mem_cons.1 hall with ⟨hchild, hrest⟩
      rw [bindGroup]
      split
      · exact hchild.bind fun _ => (ih hrest).bind fun _ => .pure _
      · exact ih hrest

theorem spared_bindChildren (hall : ∀ child ∈ children, Spared (child.bind start)) :
    Spared (bindChildren start children) := by
  rw [bindChildren]
  refine (spared_bindGroup hall .fields).bind fun fields => ?_
  refine (spared_bindGroup hall .spreads).bind fun spreads => ?_
  exact (spared_bindGroup hall .subtypes).bind fun subtypes => .pure _

theorem spared_bind (start : String) (node : Selection) : Spared (node.bind start) := by
  induction node with
  | node label children ih =>
      have hchildren := spared_bindChildren ih
      cases label with
      | field name type arguments source =>
          rw [bind]
          exact (spared_bindArguments start name source arguments).bind fun _ =>
            hchildren.bind fun _ => .pure _
      | typename type =>
          rw [bind]
          exact hchildren.bind fun _ => .pure _
      | subtype type =>
          rw [bind]
          exact hchildren.bind fun _ => .pure _
      | spread name type =>
          rw [bind]
          exact .pure _
      | fragment name type =>
          rw [bind]
          exact .pure _

end Selection

theorem Pruned.isConflict_of_bind {pruned : Pruned} {start : String} {cause : CompileError}
    (h : pruned.bind start = .error cause) : cause.isConflict = false := by
  have hfragment : ∀ f : FragmentDefinition, Spared (f.bind start) := fun f =>
    (Selection.spared_bindChildren fun child _ => Selection.spared_bind start child).bind
      fun _ => .pure _
  have hblocks := (Selection.spared_bind start pruned.root).bind fun root =>
    (Spared.mapM hfragment pruned.fragments).bind fun blocks => .pure (root, blocks)
  rcases Outcome.bind_eq_error_iff.1 h with hrun | ⟨_, -, h⟩
  · exact hblocks [] cause hrun
  · cases h

namespace Compiler

variable {c : Compiler} {e : Expression}

/-- Compiling a well-scoped expression fails on a conflict just when pruning its tree does. -/
theorem compile_conflict_iff {tree : Selection} (he : e.WellScoped) (htree : c.tree e = .ok tree) :
    (∃ cause, c.compile e = .error cause ∧ cause.isConflict = true) ↔
      ∃ cause, tree.prune c.configuration.recursionLimit = .error cause ∧
        cause.isConflict = true := by
  rcases rootField_of_tree he htree with ⟨name, type, arguments, source, hlabel⟩
  constructor
  · rintro ⟨cause, h, hcause⟩
    rcases Outcome.bind_eq_error_iff.1 h with hfail | ⟨found, hfound, h⟩
    · cases htree.symm.trans hfail
    · cases htree.symm.trans hfound
      rw [hlabel] at h
      rcases Outcome.bind_eq_error_iff.1 h with hprune | ⟨pruned, -, h⟩
      · exact ⟨cause, hprune, hcause⟩
      · rcases Outcome.bind_eq_error_iff.1 h with hbind | ⟨_, -, h⟩
        · simp [Pruned.isConflict_of_bind hbind] at hcause
        · cases h
  · rintro ⟨cause, hprune, hcause⟩
    refine ⟨cause, Outcome.bind_eq_error_iff.2 (.inr ⟨tree, htree, ?_⟩), hcause⟩
    rw [hlabel]
    exact Outcome.bind_eq_error_iff.2 (.inl hprune)

/-- Whatever the names and the configuration are, queries that are compiled over a built schema are
compatible, and those trees within the limit are rejected for a conflict that have one. -/
theorem compatible_of_compile {d : Declarations} (hs : d.build = .ok c.schema)
    (he : e.WellScoped) :
    (∀ query, c.compile e = .ok query → ∃ tree pruned, c.tree e = .ok tree ∧
      tree.prune c.configuration.recursionLimit = .ok pruned ∧
      pruned.bind c.configuration.variablePrefix = .ok (query.content, query.declared) ∧
      pruned.Compatible c.schema) ∧
    ∀ tree, c.tree e = .ok tree → tree.Within (c.configuration.recursionLimit + 1) →
      ((∃ cause, c.compile e = .error cause ∧ cause.isConflict = true) ↔
        tree.Conflicting c.configuration.recursionLimit) := by
  refine ⟨?_, ?_⟩
  · intro query h
    rcases compile_eq_ok h with ⟨tree, pruned, htree, hfield, hpruned, hbind⟩
    refine ⟨tree.root, pruned, htree, hpruned, hbind, ?_⟩
    have htyped : pruned.WellTyped c.schema :=
      Selection.wellTyped_of_prune hpruned
        (typed_of_tree (Declarations.consistent_of_build hs) he htree) hfield
    rcases Selection.distinct_of_prune hpruned with ⟨hroot, hfragments⟩
    refine ⟨fun hset => (hset.allDistinct hroot hfragments).1, ?_⟩
    intro owner nodes enclosing a b x y hset ha hb hname
    have hnodes := hset.allTyped htyped
    have hsame : some a = some b := by
      calc some a
          = c.schema.field? enclosing a.name := (ha.declared htyped hnodes).symm
        _ = c.schema.field? enclosing b.name := by rw [hname]
        _ = some b := hb.declared htyped hnodes
    exact Option.some.inj hsame
  · intro tree htree hwithin
    exact (compile_conflict_iff he htree).trans (Selection.prune_conflict_iff hwithin)

/-! ## Two sizes of an item -/

/-- A field of an item twice, with arguments from two sources. -/
def twoSmallSizes : Expression :=
  .including
    (.including (.root "Item" none) (.filter (.member .current ⟨"Item", "small"⟩) sizeSource))
    (.filter (.member .current ⟨"Item", "small"⟩) (.ofMembers 1 [("n", .number (.integer 2))]))

theorem twoSmallSizes_wellScoped : twoSmallSizes.WellScoped :=
  ⟨.query, .including (.including .root (.filter (.member .current)))
    (.filter (.member .current))⟩

/-- Two fields with one source are compatible; one field with two sources is rejected. -/
theorem compatible_bothSizes :
    (∃ tree pruned, itemsCompiler.tree bothSizes = .ok tree ∧ tree.prune 8 = .ok pruned ∧
      pruned.bind "var_" = .ok (bothSizesQuery.content, bothSizesQuery.declared) ∧
      pruned.Compatible itemsCompiler.schema) ∧
    ∃ tree, itemsCompiler.tree twoSmallSizes = .ok tree ∧ tree.Within 9 ∧ tree.Conflicting 8 ∧
      ∃ cause, itemsCompiler.compile twoSmallSizes = .error cause ∧ cause.isConflict = true := by
  have hbuild : itemsDeclarations.build = .ok itemsCompiler.schema := rfl
  refine ⟨(compatible_of_compile hbuild bothSizes_wellScoped).1 _ compile_bothSizes, ?_⟩
  obtain ⟨tree, htree⟩ : ∃ tree, itemsCompiler.tree twoSmallSizes = .ok tree := ⟨_, rfl⟩
  have hwithin : tree.Within 9 := by
    cases htree
    refine .node (List.forall_mem_cons.2 ⟨.node nofun, ?_⟩)
    exact List.forall_mem_singleton.2 (.node nofun)
  have hconflicting : tree.Conflicting 8 := by
    cases htree
    exact .tree ⟨_, _, .here List.mem_cons_self (List.mem_cons_of_mem _ List.mem_cons_self),
      rfl, rfl⟩
  exact ⟨tree, htree, hwithin, hconflicting,
    ((compatible_of_compile hbuild twoSmallSizes_wellScoped).2 tree htree hwithin).2 hconflicting⟩

/-! ## Levels that are not compared -/

/-- Two types of one interface have fields of one name and of different types. -/
def shapesDeclarations : Declarations where
  types := [
    .scalar "ID",
    .scalar "Int",
    .scalar "String",
    .interface "Node" [⟨"id", .named "ID", []⟩] [],
    .object "A" [⟨"id", .named "ID", []⟩, ⟨"value", .named "Int", []⟩] ["Node"],
    .object "B" [⟨"id", .named "ID", []⟩, ⟨"value", .named "String", []⟩] ["Node"],
    .object "Query" [⟨"nodes", .list (.named "Node"), []⟩] []]
  queryType := none
  distinct := by decide

def shapesCompiler : Compiler where
  schema := (shapesDeclarations.build.toOption).getD ⟨[], ⟨0, "Query"⟩⟩
  naming := Naming.identity
  configuration := { Configuration.standard with recursionLimit := 8 }

/-- A field of pages takes an argument. -/
def pagesDeclarations : Declarations where
  types := [
    .scalar "Int",
    .object "Page" [⟨"related", .list (.named "Int"), [⟨"limit", .named "Int"⟩]⟩] [],
    .object "Query" [⟨"pages", .list (.named "Page"), []⟩] []]
  queryType := none
  distinct := by decide

def pagesCompiler : Compiler where
  schema := (pagesDeclarations.build.toOption).getD ⟨[], ⟨0, "Query"⟩⟩
  naming := Naming.identity
  configuration := { Configuration.standard with recursionLimit := 8 }

/-- The field of a page, with its argument from one source, and in a fragment from another one. -/
def relatedTwice : Expression :=
  .withFragment
    (.including (.root "Page" none) (.filter (.member .current ⟨"Page", "related"⟩)
      (.ofMembers 0 [("limit", .number (.integer 1))])))
    "F" "Page"
    (.including .current (.filter (.member .current ⟨"Page", "related"⟩)
      (.ofMembers 1 [("limit", .number (.integer 2))])))

theorem relatedTwice_wellScoped : relatedTwice.WellScoped :=
  ⟨.query, .withFragment (.including .root (.filter (.member .current)))
    (.including .current (.filter (.member .current)))⟩

/-- Neither the fields of different subtypes nor those of a fragment and of the selection that
spreads it are compared. -/
theorem not_conflictFree_between_levels :
    (shapesDeclarations.build = .ok shapesCompiler.schema ∧
      (Expression.root "Node" none).WellScoped ∧
      ∃ query tree pruned, shapesCompiler.compile (.root "Node" none) = .ok query ∧
        shapesCompiler.tree (.root "Node" none) = .ok tree ∧ tree.prune 8 = .ok pruned ∧
        ¬ pruned.ConflictFree shapesCompiler.schema) ∧
    pagesDeclarations.build = .ok pagesCompiler.schema ∧ relatedTwice.WellScoped ∧
      ∃ query tree pruned, pagesCompiler.compile relatedTwice = .ok query ∧
        pagesCompiler.tree relatedTwice = .ok tree ∧ tree.prune 8 = .ok pruned ∧
        ¬ pruned.ConflictFree pagesCompiler.schema := by
  refine ⟨⟨rfl, ⟨.query, .root⟩, ?_⟩, rfl, relatedTwice_wellScoped, ?_⟩
  · obtain ⟨query, hquery⟩ : ∃ query, shapesCompiler.compile (.root "Node" none) = .ok query :=
      Outcome.exists_of_isOk rfl
    obtain ⟨tree, htree⟩ : ∃ tree, shapesCompiler.tree (.root "Node" none) = .ok tree := ⟨_, rfl⟩
    obtain ⟨pruned, hpruned⟩ : ∃ pruned, tree.prune 8 = .ok pruned := by
      cases htree
      exact ⟨_, rfl⟩
    refine ⟨query, tree, pruned, hquery, htree, hpruned, ?_⟩
    cases htree
    cases hpruned
    intro hnone
    -- Below the interface, each of the two objects has a value of a type of its own.
    have hconflict := hnone (.deeper .operation List.mem_cons_self)
      (.subtype (List.mem_of_getElem? (i := 2) rfl) rfl (.field List.mem_cons_self rfl))
      (.subtype (List.mem_of_getElem? (i := 3) rfl) rfl (.field List.mem_cons_self rfl)) rfl
    cases hconflict.1 rfl rfl
  · obtain ⟨query, hquery⟩ : ∃ query, pagesCompiler.compile relatedTwice = .ok query :=
      Outcome.exists_of_isOk rfl
    obtain ⟨tree, htree⟩ : ∃ tree, pagesCompiler.tree relatedTwice = .ok tree := ⟨_, rfl⟩
    obtain ⟨pruned, hpruned⟩ : ∃ pruned, tree.prune 8 = .ok pruned := by
      cases htree
      exact ⟨_, rfl⟩
    refine ⟨query, tree, pruned, hquery, htree, hpruned, ?_⟩
    cases htree
    cases hpruned
    intro hnone
    -- A page has the field itself, and once more through the fragment.
    have hconflict := hnone (.deeper .operation List.mem_cons_self)
      (.field List.mem_cons_self rfl)
      (.spread (List.mem_of_getElem? (i := 1) rfl) rfl List.mem_cons_self
        (.field List.mem_cons_self rfl)) rfl
    cases hconflict.2 ⟨⟨1, "Page"⟩, rfl, .inl rfl, .inl rfl⟩

end Compiler

end GraphQuery
