import GraphQuery.Proofs.Compiler
import GraphQuery.Proofs.Selection.Defaults

/-!
# Defaults — pruned queries select all leaf fields that are selected by default

- `Compiler.defaults_of_compile` : for every object that a node with default scalars can have
- `Compiler.defaults_of_makers` : the pages of a book among the media
-/

set_option autoImplicit false

namespace GraphQuery

namespace Compiler

variable {c : Compiler} {e : Expression} {query : CompiledQuery}

/-- The scope that a query is compiled in. -/
def queryScope (c : Compiler) : Scope where
  current := .unbound
  defaultScalars := c.configuration.defaultScalars
  arguments := none
  depth := 0

/-- Where a node of the tree of a well-scoped expression was expanded with default scalars, and a
path of a response leads to objects of a type that the node can have, the pruned query asks for all
leaf fields without arguments of these objects: wherever the node, its subtypes and what stands in
them have gone. All of the pruned query is printed. -/
theorem defaults_of_compile {d : Declarations} (hs : d.build = .ok c.schema) (he : e.WellScoped)
    (h : c.compile e = .ok query) :
    ∃ selected pruned, c.select e c.queryScope = .ok selected ∧
      selected.root.prune c.configuration.recursionLimit = .ok pruned ∧
      pruned.bind c.configuration.variablePrefix = .ok (query.content, query.declared) ∧
      pruned.DefinitionFree ∧ ∀ position, c.Expands e c.queryScope selected position →
        ∃ node, selected.root.descendant? position = some node ∧
          ∀ object path, Selection.LeadsTo c.schema node object [selected.root] path →
            ∀ fields field, c.schema.fields? object = some fields → field ∈ fields →
              field.type.isLeaf = true → field.arguments = [] →
                Selection.Selects c.schema pruned.fragments [pruned.root]
                  (path ++ [⟨object, field.name, none⟩]) := by
  rcases compile_eq_ok h with ⟨tree, pruned, htree, hfield, hpruned, hbind⟩
  have hconsistent := Declarations.consistent_of_build hs
  have htyped := typed_of_tree hconsistent he htree
  have hfree := Selection.definitionFree_of_prune hpruned (Label.isField_of_exists hfield)
  rcases Outcome.bind_eq_ok_iff.1 htree with ⟨selected, hselected, htree⟩
  have hroot : selected.root = tree.root := Except.ok.inj htree
  rw [← hroot] at htyped
  refine ⟨selected, pruned, hselected, hroot ▸ hpruned, hbind, hfree, ?_⟩
  intro position hexpands
  rcases hexpands.selectsDefaults with ⟨node, hnode, hdefaults⟩
  refine ⟨node, hnode, ?_⟩
  intro object path hleads fields field hfields hmem hleaf harguments
  rcases htyped.at_position hnode with ⟨owner, hnodeTyped⟩
  have hdeclares := hnodeTyped.declares hconsistent hleads.opens_or_narrows
  have hfield := hdefaults hdeclares object fields field hleads.admits hfields hmem hleaf harguments
  exact Selection.selects_of_prune hpruned (hroot ▸ hleads.selects rfl hfield)

/-- The media are expanded, so the pages of a book among them are asked for. -/
theorem defaults_of_makers :
    ∃ query selected pruned, libraryCompiler.compile allMakers = .ok query ∧
      libraryCompiler.select allMakers libraryCompiler.queryScope = .ok selected ∧
      selected.root.prune 8 = .ok pruned ∧ pruned.DefinitionFree ∧
      libraryCompiler.Expands allMakers libraryCompiler.queryScope selected [] ∧
      Selection.Selects libraryCompiler.schema pruned.fragments [pruned.root] bookPages := by
  obtain ⟨query, h⟩ : ∃ query, libraryCompiler.compile allMakers = .ok query :=
    Outcome.exists_of_isOk rfl
  have hbuild : libraryDeclarations.build = .ok libraryCompiler.schema := rfl
  rcases defaults_of_compile hbuild makers_wellScoped h with
    ⟨selected, pruned, hselected, hpruned, -, hfree, hdefaults⟩
  have hexpands : libraryCompiler.Expands allMakers libraryCompiler.queryScope selected [] := by
    cases derives_of_select hselected with
    | filter hderives =>
        cases hderives with
        | withFragment hderives _ _ _ _ _ _ _ =>
            cases hderives with
            | including hderives _ _ _ =>
                cases hderives with
                | root _ _ hnode =>
                    exact .filter (.withFragmentSource (.includingSource (.root rfl hnode)))
  refine ⟨query, selected, pruned, h, hselected, hpruned, hfree, hexpands, ?_⟩
  rcases hdefaults [] hexpands with ⟨node, hnode, hselects⟩
  cases hnode
  have hleads : Selection.LeadsTo libraryCompiler.schema selected.root ⟨4, "Book"⟩
      [selected.root] [⟨⟨6, "Query"⟩, "media", some 0⟩] := by
    cases hselected
    exact .field List.mem_cons_self ⟨rfl, rfl, rfl⟩ rfl (.inr (by decide))
  exact hselects _ _ hleads
    [⟨"id", .named .scalar ⟨0, "ID"⟩, []⟩, ⟨"maker", .named .object ⟨3, "Person"⟩, []⟩,
      ⟨"pages", .named .scalar ⟨1, "Int"⟩, []⟩]
    ⟨"pages", .named .scalar ⟨1, "Int"⟩, []⟩ rfl (by decide) rfl rfl

end Compiler

end GraphQuery
