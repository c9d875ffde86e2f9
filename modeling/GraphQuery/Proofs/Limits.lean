import GraphQuery.Proofs.Compiler
import GraphQuery.Proofs.Document.Text
import GraphQuery.Proofs.Document.Uses
import GraphQuery.Proofs.Selection.Limits

/-!
# Limits — queries under two recursion limits

The recursion limit decides whether there is a query, and not which one: under a higher limit an
expression has the query that it has under a lower one, or fails as it does. A query that there is
has no field, discriminator or subtype that lies deeper below the root of its block than the limit
allows.

- `Document.Lies` : the nodes of a document by the level at which they lie
- `DocumentNode.Shallow` : nodes with a bounded number of levels, but for spreads
- `Document.Lies.levels` : where levels are bounded at the roots, they are everywhere
- `Pruned.shallow_of_bind` : printing adds no levels
- `Compiler.compile_of_limit_le` : the limit does nothing but cut off
-/

set_option autoImplicit false

namespace GraphQuery

/-! ## Levels of documents -/

namespace DocumentNode

def isSpread : DocumentNode → Bool
  | .spread _ => true
  | _ => false

/-- A node of at most so many levels, where spreads do not count. -/
inductive Shallow : Nat → DocumentNode → Prop where
  | spread {n : Nat} {name : String} : Shallow n (.spread name)
  | node {n : Nat} {k : DocumentNode} :
      (∀ child ∈ k.children, Shallow n child) → Shallow (n + 1) k

variable {n : Nat} {k child : DocumentNode}

/-- What has a child takes a level. -/
theorem Shallow.exists_children (h : Shallow n k) (hchild : child ∈ k.children) :
    ∃ m, n = m + 1 ∧ Shallow m child := by
  cases h with
  | spread => cases hchild
  | node hall => exact ⟨_, rfl, hall child hchild⟩

theorem Shallow.pos (h : Shallow n k) (hk : k.isSpread = false) : 0 < n := by
  cases h with
  | spread => cases hk
  | node _ => exact Nat.succ_pos _

end DocumentNode

namespace Document

variable {document : Document} {limit level : Nat} {node : DocumentNode}

/-- A node lies so many levels below the root of its block, which is the field of the operation or
the definition of a fragment. -/
inductive Lies (document : Document) : Nat → DocumentNode → Prop where
  | operation : Lies document 0 document.root
  | definition {block : FragmentBlock} {node : DocumentNode} :
      block ∈ document.fragments → node ∈ block.children → Lies document 1 node
  | deeper {level : Nat} {node child : DocumentNode} :
      Lies document level node → child ∈ node.children → Lies document (level + 1) child

/-- No block has more levels below its root, where spreads do not count. -/
structure Shallow (limit : Nat) (document : Document) : Prop where
  operation : document.root.Shallow (limit + 1)
  definition : ∀ block ∈ document.fragments, ∀ node ∈ block.children, node.Shallow limit

/-- From level to level, one fewer is left. -/
theorem Lies.levels (h : document.Lies level node) (hs : document.Shallow limit) :
    ∃ left, level + left = limit + 1 ∧ node.Shallow left := by
  -- A step down adds a level to those above and takes one from those that are left.
  induction h with
  | operation => exact ⟨limit + 1, Nat.zero_add _, hs.operation⟩
  | definition hblock hnode => exact ⟨limit, Nat.add_comm 1 limit, hs.definition _ hblock _ hnode⟩
  | deeper _ hchild ih =>
      rcases ih with ⟨left, hlevels, hnode⟩
      rcases hnode.exists_children hchild with ⟨fewer, rfl, hfewer⟩
      exact ⟨fewer, by omega, hfewer⟩

theorem Shallow.level_le (hs : document.Shallow limit) (h : document.Lies level node)
    (hnode : node.isSpread = false) : level ≤ limit := by
  rcases h.levels hs with ⟨left, hlevels, hshallow⟩
  have hpos := hshallow.pos hnode
  omega

end Document

/-! ## Printing -/

namespace Selection

variable {start : String} {before after : List Variable} {children : List Selection}
  {printed : List DocumentNode} {k : DocumentNode} {node : Selection} {n : Nat}

/-- What is printed of a node, whatever variables there are before. -/
def Prints (start : String) (node : Selection) (k : DocumentNode) : Prop :=
  ∃ before after, (node.bind start).run before = .ok (k, after)

theorem GroupBinds.exists_prints {group : PrintGroup}
    (h : GroupBinds start group children before printed after) (hk : k ∈ printed) :
    ∃ child ∈ children, Prints start child k := by
  induction h with
  | nil => cases hk
  | @print child rest before next after first others _ hfirst _ ih =>
      rcases List.mem_cons.1 hk with rfl | hk
      · exact ⟨child, List.mem_cons_self, before, next, hfirst⟩
      · rcases ih hk with ⟨c, hc, hprints⟩
        exact ⟨c, List.mem_cons_of_mem _ hc, hprints⟩
  | skip _ _ ih =>
      rcases ih hk with ⟨c, hc, hprints⟩
      exact ⟨c, List.mem_cons_of_mem _ hc, hprints⟩

theorem exists_prints_of_bindChildren
    (h : (bindChildren start children).run before = .ok (printed, after)) (hk : k ∈ printed) :
    ∃ child ∈ children, Prints start child k := by
  rcases bindChildren_eq_ok h with ⟨_, _, _, _, _, hfields, hspreads, hsubtypes, rfl⟩
  rcases List.mem_append.1 hk with hk | hk
  · rcases List.mem_append.1 hk with hk | hk
    · exact hfields.exists_prints hk
    · exact hspreads.exists_prints hk
  · exact hsubtypes.exists_prints hk

/-- A node is printed as a spread, or with what is printed of its children. -/
theorem Prints.cases {label : Label} (h : Prints start (.node label children) k) :
    (∃ name, k = .spread name) ∨
      (label.isSpread = false ∧ ∀ child ∈ k.children, ∃ c ∈ children, Prints start c child) := by
  rcases h with ⟨before, after, h⟩
  cases binds_of_bind h with
  | field _ hbelow | typename hbelow | subtype hbelow =>
      exact .inr ⟨rfl, fun _ hchild => exists_prints_of_bindChildren hbelow hchild⟩
  | spread | fragment => exact .inl ⟨_, rfl⟩

/-- Printing adds no levels. -/
theorem Prints.shallow (h : Prints start node k) (hs : Shallow n node) : k.Shallow n := by
  -- Whatever stands below what is printed is printed of a child, which is one level shallower.
  induction hs generalizing k with
  | spread =>
      rcases h.cases with ⟨name, rfl⟩ | ⟨hnot, -⟩
      · exact .spread
      · cases hnot
  | node _ ih =>
      rcases h.cases with ⟨name, rfl⟩ | ⟨-, hchildren⟩
      · exact .spread
      · refine .node fun child hchild => ?_
        rcases hchildren child hchild with ⟨c, hc, hprints⟩
        exact ih c hc hprints

end Selection

namespace Pruned

variable {start : String} {pruned : Pruned} {document : Document} {declared : List Variable}
  {limit : Nat}

theorem exists_definition_of_allBind {fragments : List FragmentDefinition}
    {blocks : List FragmentBlock} {before after : List Variable}
    (h : FragmentDefinition.AllBind start fragments before blocks after) :
    ∀ block ∈ blocks, ∃ f ∈ fragments, ∀ k ∈ block.children,
      ∃ child ∈ f.children, Selection.Prints start child k := by
  induction h with
  | nil => nofun
  | @cons f rest _ _ _ _ _ hbelow _ ih =>
      refine List.forall_mem_cons.2 ⟨⟨f, List.mem_cons_self, fun _ hk => ?_⟩, ?_⟩
      · exact Selection.exists_prints_of_bindChildren hbelow hk
      · intro block hblock
        rcases ih block hblock with ⟨g, hg, hprints⟩
        exact ⟨g, List.mem_cons_of_mem _ hg, hprints⟩

theorem shallow_of_bind (h : pruned.bind start = .ok (document, declared))
    (hroot : pruned.root.Shallow (limit + 1))
    (hfragments : ∀ f ∈ pruned.fragments, ∀ child ∈ f.children, child.Shallow limit) :
    document.Shallow limit := by
  rcases Pruned.bind_eq_ok h with ⟨next, hoperation, hblocks, -⟩
  have hprinted : Selection.Prints start pruned.root document.root := ⟨[], next, hoperation⟩
  refine ⟨hprinted.shallow hroot, fun block hblock k hk => ?_⟩
  rcases exists_definition_of_allBind hblocks block hblock with ⟨f, hf, hprints⟩
  rcases hprints k hk with ⟨child, hchild, hprints⟩
  exact hprints.shallow (hfragments f hf child hchild)

end Pruned

/-! ## Expressions -/

namespace Compiler

variable {limit limit' : Nat} {query : CompiledQuery}

theorem stopsShort_compile (h : limit ≤ limit') (c : Compiler) (e : Expression) :
    Outcome.StopsShort (.recursionLimitExceeded limit) ((c.limited limit).compile e)
      ((c.limited limit').compile e) := by
  rw [compile, compile]
  refine (stopsShort_tree h c e).bind fun tree => ?_
  -- Only a tree that starts at a field is pruned; binding does not look at the limit.
  split
  · exact (Selection.stopsShort_prune h tree).bind fun _ => .same _
  · exact .same _

theorem shallow_of_compile {c : Compiler} {e : Expression} (h : c.compile e = .ok query) :
    query.content.Shallow c.configuration.recursionLimit := by
  rcases compile_eq_ok h with ⟨tree, pruned, -, -, hpruned, hbind⟩
  rcases Selection.shallow_of_prune hpruned with ⟨hroot, hfragments⟩
  exact Pruned.shallow_of_bind hbind hroot hfragments

/-- Whatever the schema, the naming, the rest of the configuration and the expression are, a
compiler with a higher recursion limit has the same query as one with a lower limit, or the same
failure, unless the lower limit is exceeded. In a query that there is under a limit, no field,
discriminator or subtype lies deeper below the root of the operation or of the definition of a
fragment. -/
theorem compile_of_limit_le (h : limit ≤ limit') (c : Compiler) (e : Expression) :
    ((c.limited limit).compile e ≠ .error (.recursionLimitExceeded limit) →
        (c.limited limit').compile e = (c.limited limit).compile e) ∧
      ∀ query, (c.limited limit).compile e = .ok query → ∀ level node,
        query.content.Lies level node → node.isSpread = false → level ≤ limit := by
  refine ⟨(stopsShort_compile h c e).eq_of_ne, fun query hquery level node hlies hnode => ?_⟩
  exact (shallow_of_compile hquery).level_le hlies hnode

/-- The first media, with the pages of those that are books. -/
def firstMedia : Expression :=
  .filter (.root "Media" (some "media")) (.ofMembers 0 [("first", .null)])

def firstMediaQuery : CompiledQuery where
  content := {
    declared := [("var_0", .named "Int")]
    root := .field "media" [("first", "var_0")] [.field "id" [] [], .field "__typename" [] [],
      .subtype "Book" [.field "pages" [] []]]
    fragments := [] }
  declared := [⟨"var_0", .named .scalar ⟨1, "Int"⟩, .null, 0, "first"⟩]
  entryPoint := "media"
  entryType := .list (.named .interface ⟨2, "Media"⟩)

/-- The pages lie two levels below the root, so a limit of one is exceeded. Two levels are enough,
and more levels change nothing. -/
theorem compile_firstMedia_of_limits :
    (libraryCompiler.limited 1).compile firstMedia = .error (.recursionLimitExceeded 1) ∧
      (libraryCompiler.limited 2).compile firstMedia = .ok firstMediaQuery ∧
      (libraryCompiler.limited 512).compile firstMedia = .ok firstMediaQuery ∧
      firstMediaQuery.content.Lies 2 (.field "pages" [] []) ∧
      ∀ level node, firstMediaQuery.content.Lies level node → node.isSpread = false →
        level ≤ 2 := by
  have hcut : (libraryCompiler.limited 1).compile firstMedia =
      .error (.recursionLimitExceeded 1) := rfl
  have hquery : (libraryCompiler.limited 2).compile firstMedia = .ok firstMediaQuery := rfl
  have hne : (libraryCompiler.limited 2).compile firstMedia ≠
      .error (.recursionLimitExceeded 2) := by
    intro hfails
    cases hquery.symm.trans hfails
  rcases compile_of_limit_le (by decide : 2 ≤ 512) libraryCompiler firstMedia with ⟨hsame, hlevels⟩
  refine ⟨hcut, hquery, (hsame hne).trans hquery, ?_, hlevels firstMediaQuery hquery⟩
  refine .deeper (.deeper .operation (List.mem_of_getElem? (i := 2) rfl)) ?_
  exact List.mem_of_getElem? (i := 0) rfl

end Compiler

end GraphQuery
