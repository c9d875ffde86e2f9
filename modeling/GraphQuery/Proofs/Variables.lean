import GraphQuery.Proofs.Compiler
import GraphQuery.Proofs.Document.Uses

/-!
# Variables — what a compiled query declares and passes

- `CompiledQuery.Accounts` : variables, their uses in the document and the sources of their values
- `Compiler.variables_of_compile` : every compiled query has its variables in order
- `Compiler.variableTypes_of_compile` : a variable has the type of the argument that it is first
  passed to
- `Compiler.typesAgree_iff` : when it has the types of all the others too
-/

set_option autoImplicit false

namespace GraphQuery

namespace Selection

variable {s : Schema} {owner found : TypeRef} {node : Selection} {label : Label}

theorem Typed.occurs (h : Typed s owner node) (ho : Occurs owner node found label) :
    label.Fits s found := by
  induction ho with
  | here => exact h.fits
  | deeper hchild _ ih => exact ih (h.childrenTyped _ hchild)

theorem Every.occurs {P : Label → Prop} (h : Every P node) (ho : Occurs owner node found label) :
    P label := by
  induction ho with
  | here => exact h.holds
  | deeper hchild _ ih => exact ih (h.children _ hchild)

end Selection

/-- How the variables of a query go together with the arguments that are passed in it, and with
the sources of their values. -/
structure CompiledQuery.Accounts (query : CompiledQuery) (start : String)
    (sources : List ArgumentSource) (passings : List Passing) : Prop where
  /-- Variables are declared in the order of their numbers. -/
  names : query.content.declared.map Prod.fst =
    (List.range query.declared.length).map fun i => start ++ toString i
  distinct : (query.content.declared.map Prod.fst).Nodup
  /-- What the document uses, from top to bottom, are variables for the arguments passed. -/
  passed : List.Forall₂ (fun (u : Use) p => u.field = p.field ∧ u.argument = p.argument.name)
    query.content.uses passings
  /-- What is used is what is declared, and it is first used in the order of declaration. -/
  firstUses : Keyed.distinct (query.content.uses.map Use.var) =
    query.content.declared.map Prod.fst
  /-- Arguments share a variable if they have one name, and values from one source. -/
  shared : ∀ {i j : Nat} {u w : Use} {p q : Passing},
    query.content.uses[i]? = some u → passings[i]? = some p →
    query.content.uses[j]? = some w → passings[j]? = some q →
      (u.var = w.var ↔ p.source.identity = q.source.identity ∧ p.argument.name = q.argument.name)
  /-- Values are sent for the declared variables. -/
  valueNames : query.variableValues.map Prod.fst = query.content.declared.map Prod.fst
  /-- Each value is that of the argument in its source. -/
  value : ∀ {i : Nat} {u : Use} {p : Passing},
    query.content.uses[i]? = some u → passings[i]? = some p →
    ∃ source ∈ sources, source.identity = p.source.identity ∧
      ∃ json, source.value p.argument.name = some json ∧ (u.var, json) ∈ query.variableValues

namespace Compiler

variable {c : Compiler} {e : Expression} {query : CompiledQuery} {tree : Selection}
  {pruned : Pruned} {limit : Nat}

/-- Every argument that is passed is one of a field that some type declares, and its source is one
of the expression. -/
theorem provided_of_mem_passings (htree : c.tree e = .ok tree)
    (hpruned : tree.prune limit = .ok pruned) {owner : TypeRef} {p : Passing}
    (hp : p ∈ pruned.passings owner) :
    p.source ∈ e.sources ∧ ∃ declaring fields field, c.schema.fields? declaring = some fields ∧
      field ∈ fields ∧ field.name = p.field ∧ p.argument ∈ field.arguments := by
  let P : Label → Prop := fun label =>
    label.isSpread = true ∨ label.Provided c.schema e.sources
  have hevery : Selection.Every P tree := (provided_of_tree htree).imp fun _ => .inr
  rcases Selection.every_of_prune (fun _ _ => .inl rfl) hpruned hevery with ⟨hroot, hfragments⟩
  rcases pruned.occurs_of_mem_passings hp with ⟨label, hlabel, hoccurs⟩
  have hprovided : P label := by
    rcases hoccurs with ho | ⟨f, hf, child, hchild, ho⟩
    · exact hroot.occurs ho
    · exact (hfragments f hf child hchild).occurs ho
  rcases Label.mem_passings hlabel with ⟨-, type, arguments, rfl, hargument⟩
  rcases hprovided with hspread | ⟨⟨declaring, fields, hfields, hfield⟩, hsource⟩
  · cases hspread
  · exact ⟨hsource p.source rfl, declaring, fields, _, hfields, hfield, rfl, hargument⟩

/-- The variables of every compiled query are in order. -/
theorem variables_of_compile (h : c.compile e = .ok query) :
    ∃ tree pruned, c.tree e = .ok tree ∧
      tree.prune c.configuration.recursionLimit = .ok pruned ∧
      pruned.bind c.configuration.variablePrefix = .ok (query.content, query.declared) ∧
      query.Accounts c.configuration.variablePrefix e.sources
        (pruned.passings c.schema.queryType) := by
  rcases compile_eq_ok h with ⟨tree, pruned, htree, -, hpruned, hbind⟩
  refine ⟨tree.root, pruned, htree, hpruned, hbind, ?_⟩
  rcases Pruned.bound_of_bind hbind c.schema.queryType with ⟨hbound, hdeclared⟩
  have hregular := hbound.regular (regular_nil _)
  have hnames : query.content.declared.map Prod.fst = query.declared.map Variable.name := by
    simp [hdeclared, Function.comp_def]
  exact {
    names := by rw [hnames, hregular.numbered]
    distinct := by
      rw [hnames]
      exact hregular.names
    passed := hbound.uses_passed.imp fun _ _ h => ⟨h.1, h.2.1⟩
    firstUses := by
      rw [hnames]
      exact hbound.inOrder (regular_nil _)
    shared := by
      intro i j u w p q hu hp hw hq
      exact (hbound.var_eq_iff hu hp hw hq).trans Prod.ext_iff
    valueNames := by
      rw [hnames]
      simp [CompiledQuery.variableValues, Function.comp_def]
    value := by
      intro i u p hu hp
      -- The value was read at the first use, from a source of the same identity.
      rcases hbound.exists_declaredBy hu hp with ⟨v, hv, hname, q, hq, -, -, hvalue⟩
      have hprovided := (provided_of_mem_passings htree hpruned (List.mem_of_find?_eq_some hq)).1
      have hkey : q.key = p.key := by simpa using List.find?_some hq
      have hsame : q.source.identity = p.source.identity ∧ q.argument.name = p.argument.name :=
        Prod.ext_iff.1 hkey
      refine ⟨q.source, hprovided, hsame.1, v.value, ?_, ?_⟩
      · simpa [hsame.2] using hvalue
      · exact List.mem_map.2 ⟨v, hv, by simp [hname]⟩ }

/-! ## Sizes of items -/

/-- Two fields take an argument of one name, but only one of them can do without a value. -/
def itemsDeclarations : Declarations where
  types := [
    .scalar "Int",
    .object "Item" [⟨"small", .named "Int", [⟨"n", .named "Int"⟩]⟩,
      ⟨"large", .named "Int", [⟨"n", .nonNull (.named "Int")⟩]⟩] [],
    .object "Query" [⟨"items", .list (.named "Item"), []⟩] []]
  queryType := none
  distinct := by decide

def itemsCompiler : Compiler where
  schema := (itemsDeclarations.build.toOption).getD ⟨[], ⟨0, "Query"⟩⟩
  naming := Naming.identity
  configuration := { Configuration.standard with recursionLimit := 8 }

def sizeSource : ArgumentSource :=
  .ofMembers 0 [("n", .number (.integer 1))]

/-- Both fields of an item, with their arguments from one source. -/
def bothSizes : Expression :=
  .including
    (.including (.root "Item" none) (.filter (.member .current ⟨"Item", "small"⟩) sizeSource))
    (.filter (.member .current ⟨"Item", "large"⟩) sizeSource)

/-- The query of both sizes. -/
def bothSizesQuery : CompiledQuery where
  content := {
    declared := [("var_0", .named "Int")]
    root := .field "items" [] [.field "small" [("n", "var_0")] [],
      .field "large" [("n", "var_0")] []]
    fragments := [] }
  declared := [⟨"var_0", .named .scalar ⟨0, "Int"⟩, .number (.integer 1), 0, "n"⟩]
  entryPoint := "items"
  entryType := .list (.named .object ⟨1, "Item"⟩)

theorem compile_bothSizes : itemsCompiler.compile bothSizes = .ok bothSizesQuery := rfl

theorem bothSizes_wellScoped : bothSizes.WellScoped :=
  ⟨.query, .including (.including .root (.filter (.member .current)))
    (.filter (.member .current))⟩

/-- Both sizes of an item have their values from one source, and one variable. -/
theorem variables_of_bothSizes :
    itemsCompiler.compile bothSizes = .ok bothSizesQuery ∧
      ∃ tree pruned, itemsCompiler.tree bothSizes = .ok tree ∧ tree.prune 8 = .ok pruned ∧
        pruned.bind "var_" = .ok (bothSizesQuery.content, bothSizesQuery.declared) ∧
        bothSizesQuery.Accounts "var_" [sizeSource, sizeSource]
          (pruned.passings itemsCompiler.schema.queryType) :=
  ⟨compile_bothSizes, variables_of_compile compile_bothSizes⟩

/-! ## Types -/

/-- Arguments of well-scoped expressions are those of fields of the types around them. -/
theorem declared_of_wellTyped {s : Schema} (h : pruned.WellTyped s) {p : Passing}
    (hp : p ∈ pruned.passings s.queryType) :
    ∃ field, s.field? p.owner p.field = some field ∧ p.argument ∈ field.arguments := by
  rcases pruned.occurs_of_mem_passings hp with ⟨label, hlabel, hoccurs⟩
  have hfits : label.Fits s p.owner := by
    rcases hoccurs with ho | ⟨f, hf, child, hchild, ho⟩
    · exact h.root.occurs ho
    · rcases h.fragment f hf with ⟨-, -, -, htyped, -⟩
      exact (htyped child hchild).occurs ho
  rcases Label.mem_passings hlabel with ⟨-, type, arguments, rfl, hargument⟩
  exact ⟨_, hfits.1, hargument⟩

end Compiler

/-- Variables have the types of all arguments that they are passed to. -/
def CompiledQuery.TypesAgree (query : CompiledQuery) (passings : List Passing) : Prop :=
  ∀ (i : Nat) (u : Use) (p : Passing), query.content.uses[i]? = some u →
    passings[i]? = some p → ∀ v ∈ query.declared, v.name = u.var → v.type = p.argument.type

/-- Arguments of one name whose values are from one source have one type. -/
def SourcesAgree (passings : List Passing) : Prop :=
  ∀ p ∈ passings, ∀ q ∈ passings, p.key = q.key → p.argument.type = q.argument.type

/-- How the types of the variables of a query go together with those of the arguments. -/
structure CompiledQuery.TypedBy (query : CompiledQuery) (s : Schema) (passings : List Passing) :
    Prop where
  /-- Variables are printed with their types. -/
  printed : query.content.declared = query.declared.map fun v => (v.name, v.type.expr)
  /-- An argument is one that the schema declares for a field of the name. -/
  declares : ∀ p ∈ passings, ∃ owner field, s.field? owner p.field = some field ∧
    p.argument ∈ field.arguments
  /-- A variable has the type of the first argument that it is passed to. -/
  atFirstUse : ∀ (i : Nat) (u : Use) (p : Passing),
    query.content.uses[i]? = some u → passings[i]? = some p →
      ∃ v ∈ query.declared, v.name = u.var ∧
        ∃ q, passings.find? (fun q => q.key == p.key) = some q ∧ v.type = q.argument.type
  agree : query.TypesAgree passings ↔ SourcesAgree passings

namespace Compiler

variable {c : Compiler} {e : Expression} {query : CompiledQuery}

/-- Variables have the types of all arguments that they are passed to just when there is one type
for what each of them stands for. -/
theorem typesAgree_iff {start : String} {passings : List Passing}
    (h : Bound start [] passings query.content.uses query.declared) :
    query.TypesAgree passings ↔ SourcesAgree passings := by
  have hregular := h.regular (regular_nil start)
  constructor
  · -- One variable stands for both arguments, and has the types of both.
    intro hagree p hp q hq hkey
    rcases h.exists_use hp with ⟨i, u, hu, hpi⟩
    rcases h.exists_use hq with ⟨j, w, hw, hqj⟩
    rcases h.variable_of_use hu hpi with ⟨v, hv, hname, -⟩
    have hother : v.name = w.var := hname.trans ((h.var_eq_iff hu hpi hw hqj).2 hkey)
    calc p.argument.type
        = v.type := (hagree i u p hu hpi v hv hname).symm
      _ = q.argument.type := hagree j w q hw hqj v hv hother
  · -- The type is that of the first argument, with which all others agree.
    intro hagree i u p hu hp v hv hname
    rcases h.exists_declaredBy hu hp with ⟨x, hx, hxName, q, hq, -, htype, -⟩
    obtain rfl : v = x :=
      List.inj_on_of_nodup_map hregular.names hv hx (hname.trans hxName.symm)
    have hkey : q.key = p.key := by simpa using List.find?_some hq
    calc v.type
        = q.argument.type := htype
      _ = p.argument.type :=
          hagree q (List.mem_of_find?_eq_some hq) p (List.mem_of_getElem? hp) hkey

/-- Over a built schema, the variables of every compiled query have the types of the arguments that
they are first passed to. -/
theorem variableTypes_of_compile {d : Declarations} (hs : d.build = .ok c.schema)
    (h : c.compile e = .ok query) :
    ∃ tree pruned, c.tree e = .ok tree ∧
      tree.prune c.configuration.recursionLimit = .ok pruned ∧
      pruned.bind c.configuration.variablePrefix = .ok (query.content, query.declared) ∧
      query.TypedBy c.schema (pruned.passings c.schema.queryType) ∧
      (e.WellScoped → ∀ p ∈ pruned.passings c.schema.queryType, ∃ field,
        c.schema.field? p.owner p.field = some field ∧ p.argument ∈ field.arguments) := by
  rcases compile_eq_ok h with ⟨tree, pruned, htree, hfield, hpruned, hbind⟩
  have hconsistent := Declarations.consistent_of_build hs
  refine ⟨tree.root, pruned, htree, hpruned, hbind, ?_, fun he p hp => ?_⟩
  · rcases Pruned.bound_of_bind hbind c.schema.queryType with ⟨hbound, hdeclared⟩
    refine ⟨hdeclared, ?_, ?_, typesAgree_iff hbound⟩
    · intro p hp
      rcases (provided_of_mem_passings htree hpruned hp).2 with
        ⟨owner, fields, field, hfields, hmem, hname, hargument⟩
      exact ⟨owner, field, hname ▸ hconsistent.field?_of_mem hfields hmem, hargument⟩
    · intro i u p hu hp
      rcases hbound.exists_declaredBy hu hp with ⟨v, hv, hname, q, hq, -, htype, -⟩
      exact ⟨v, hv, hname, q, hq, htype⟩
  · exact declared_of_wellTyped
      (Selection.wellTyped_of_prune hpruned (typed_of_tree hconsistent he htree) hfield) hp

theorem variableTypes_of_bothSizes :
    itemsDeclarations.build = .ok itemsCompiler.schema ∧
      itemsCompiler.compile bothSizes = .ok bothSizesQuery ∧
      ∃ tree pruned, itemsCompiler.tree bothSizes = .ok tree ∧ tree.prune 8 = .ok pruned ∧
        pruned.bind "var_" = .ok (bothSizesQuery.content, bothSizesQuery.declared) ∧
        bothSizesQuery.TypedBy itemsCompiler.schema
          (pruned.passings itemsCompiler.schema.queryType) ∧
        (bothSizes.WellScoped → ∀ p ∈ pruned.passings itemsCompiler.schema.queryType, ∃ field,
          itemsCompiler.schema.field? p.owner p.field = some field ∧
            p.argument ∈ field.arguments) := by
  have hbuild : itemsDeclarations.build = .ok itemsCompiler.schema := rfl
  exact ⟨hbuild, compile_bothSizes, variableTypes_of_compile hbuild compile_bothSizes⟩

/-- The variable is declared for the field without a non-null argument, and passed to the other one
as well. -/
theorem bothSizes_not_typesAgree :
    itemsDeclarations.build = .ok itemsCompiler.schema ∧ bothSizes.WellScoped ∧
      itemsCompiler.compile bothSizes = .ok bothSizesQuery ∧
      ∃ tree pruned, itemsCompiler.tree bothSizes = .ok tree ∧ tree.prune 8 = .ok pruned ∧
        ¬ bothSizesQuery.TypesAgree (pruned.passings itemsCompiler.schema.queryType) := by
  refine ⟨rfl, bothSizes_wellScoped, compile_bothSizes, ?_⟩
  obtain ⟨tree, htree⟩ : ∃ tree, itemsCompiler.tree bothSizes = .ok tree := ⟨_, rfl⟩
  obtain ⟨pruned, hpruned⟩ : ∃ pruned, tree.prune 8 = .ok pruned := by
    cases htree
    exact ⟨_, rfl⟩
  refine ⟨tree, pruned, htree, hpruned, ?_⟩
  cases htree
  cases hpruned
  intro hagree
  have htypes := hagree 1 _ _ rfl rfl _ List.mem_cons_self rfl
  cases htypes

end Compiler

end GraphQuery
