import GraphQuery.Compiler
import GraphQuery.Proofs.Selection.Coverage
import GraphQuery.Proofs.Selection.Nesting
import GraphQuery.Proofs.Selection.Scoping

/-!
# Compiler — what holds of compiled queries

- `Compiler.compile_eq_ok` : the tree, the pruned query and the bound document of a compilation
- `Compiler.compile_wellTyped` : what is printed for a well-scoped expression is typed
- `Compiler.prune_keeps_paths` : and it asks for all that the expression selects
-/

set_option autoImplicit false

namespace GraphQuery

namespace Compiler

variable {c : Compiler} {e : Expression} {query : CompiledQuery}

/-- A compiled query is the pruned tree of its expression, bound to variables. -/
theorem compile_eq_ok (h : c.compile e = .ok query) :
    ∃ (tree : Unpruned) (pruned : Pruned), c.tree e = .ok tree.root ∧
      (∃ name type arguments source, tree.root.label = .field name type arguments source) ∧
      tree.root.prune c.configuration.recursionLimit = .ok pruned ∧
      pruned.bind c.configuration.variablePrefix = .ok (query.content, query.declared) := by
  rcases Outcome.bind_eq_ok_iff.1 h with ⟨tree, htree, h⟩
  rcases exists_unpruned htree with ⟨tree, rfl⟩
  split at h
  · next name type arguments source hlabel =>
      rcases Outcome.bind_eq_ok_iff.1 h with ⟨pruned, hpruned, h⟩
      rcases Outcome.bind_eq_ok_iff.1 h with ⟨⟨content, declared⟩, hbind, h⟩
      cases h
      exact ⟨tree, pruned, htree, ⟨name, type, arguments, source, hlabel⟩, hpruned, hbind⟩
  · cases h

/-! ## A library -/

/-- Books and films are media. -/
def libraryDeclarations : Declarations where
  types := [
    .scalar "ID",
    .scalar "Int",
    .interface "Media" [⟨"id", .named "ID", []⟩, ⟨"maker", .named "Person", []⟩] [],
    .object "Person" [⟨"id", .named "ID", []⟩] [],
    .object "Book" [⟨"id", .named "ID", []⟩, ⟨"maker", .named "Person", []⟩,
      ⟨"pages", .named "Int", []⟩] ["Media"],
    .object "Film" [⟨"id", .named "ID", []⟩, ⟨"maker", .named "Person", []⟩] ["Media"],
    .object "Query" [⟨"media", .list (.named "Media"), [⟨"first", .named "Int"⟩]⟩] []]
  queryType := none
  distinct := by decide

def libraryCompiler : Compiler where
  schema := (libraryDeclarations.build.toOption).getD ⟨[], ⟨0, "Query"⟩⟩
  naming := Naming.identity
  configuration := { Configuration.standard with recursionLimit := 8 }

/-- The first media with their makers, which a fragment selects as well. -/
def allMakers : Expression :=
  .filter
    (.withFragment
      (.including (.root "Media" (some "media")) (.member .current ⟨"Media", "maker"⟩))
      "Named" "Media" (.member .current ⟨"Media", "maker"⟩))
    (.ofMembers 0 [("first", .null)])

theorem makers_wellScoped : allMakers.WellScoped :=
  ⟨.query, .filter (.withFragment (.including .root (.member .current)) (.member .current))⟩

/-! ## Types -/

/-- Whatever the names and the configuration are, the query of a well-scoped expression over a
built schema is one that the schema allows, with all of its fragments, and all of it is printed. -/
theorem compile_wellTyped {d : Declarations} (hs : d.build = .ok c.schema) (he : e.WellScoped)
    (h : c.compile e = .ok query) :
    ∃ tree pruned, c.tree e = .ok tree ∧
      tree.prune c.configuration.recursionLimit = .ok pruned ∧
      pruned.bind c.configuration.variablePrefix = .ok (query.content, query.declared) ∧
      pruned.WellTyped c.schema ∧ pruned.DefinitionFree := by
  rcases compile_eq_ok h with ⟨tree, pruned, htree, hfield, hpruned, hbind⟩
  refine ⟨tree.root, pruned, htree, hpruned, hbind, ?_, ?_⟩
  · have hconsistent := Declarations.consistent_of_build hs
    exact Selection.wellTyped_of_prune hpruned (typed_of_tree hconsistent he htree) hfield
  · exact Selection.definitionFree_of_prune hpruned (Label.isField_of_exists hfield)

theorem compile_makers_wellTyped :
    ∃ query, libraryCompiler.compile allMakers = .ok query ∧
      ∃ tree pruned, libraryCompiler.tree allMakers = .ok tree ∧ tree.prune 8 = .ok pruned ∧
        pruned.bind "var_" = .ok (query.content, query.declared) ∧
        pruned.WellTyped libraryCompiler.schema ∧ pruned.DefinitionFree := by
  have hbuild : libraryDeclarations.build = .ok libraryCompiler.schema := rfl
  obtain ⟨query, h⟩ : ∃ query, libraryCompiler.compile allMakers = .ok query :=
    Outcome.exists_of_isOk rfl
  exact ⟨query, h, compile_wellTyped hbuild makers_wellScoped h⟩

/-! ## Paths -/

/-- Every path of a response that the tree of an expression asks for is asked for by the pruned
query, whose spreads stand for its fragments, each for the one of its name. -/
theorem prune_keeps_paths {tree : Selection} {limit : Nat} {pruned : Pruned}
    (htree : c.tree e = .ok tree) (hpruned : tree.prune limit = .ok pruned) :
    Selection.DistinctNames pruned.fragments ∧
      ∀ path, Selection.Selects c.schema [] [tree] path →
        Selection.Selects c.schema pruned.fragments [pruned.root] path := by
  refine ⟨Selection.distinctNames_of_prune hpruned, ?_⟩
  intro path h
  rcases exists_unpruned htree with ⟨tree, rfl⟩
  exact Selection.selects_of_prune hpruned h

/-- The pages of a book among the media. -/
def bookPages : List Step :=
  [⟨⟨6, "Query"⟩, "media", some 0⟩, ⟨⟨4, "Book"⟩, "pages", none⟩]

/-- The pages are asked for under a subtype, which goes where the fragment covers it. -/
theorem prune_keeps_bookPages :
    ∃ tree pruned, libraryCompiler.tree allMakers = .ok tree ∧ tree.prune 8 = .ok pruned ∧
      Selection.Selects libraryCompiler.schema [] [tree] bookPages ∧
      Selection.Selects libraryCompiler.schema pruned.fragments [pruned.root] bookPages := by
  obtain ⟨tree, htree⟩ : ∃ tree, libraryCompiler.tree allMakers = .ok tree := ⟨_, rfl⟩
  obtain ⟨pruned, hpruned⟩ : ∃ pruned, tree.prune 8 = .ok pruned := by
    cases htree
    exact ⟨_, rfl⟩
  have hselects : Selection.Selects libraryCompiler.schema [] [tree] bookPages := by
    cases htree
    refine .deeper List.mem_cons_self ⟨rfl, rfl, rfl⟩ rfl (.inr (by decide)) ?_
    refine .within (List.mem_of_getElem? (i := 2) rfl) rfl (.inl rfl) ?_
    exact .leaf (List.mem_of_getElem? (i := 1) rfl) ⟨rfl, rfl, rfl⟩ rfl
  rcases prune_keeps_paths htree hpruned with ⟨-, hkeeps⟩
  exact ⟨tree, pruned, htree, hpruned, hselects, hkeeps bookPages hselects⟩

end Compiler

end GraphQuery
