import GraphQuery.Proofs.Compiler
import GraphQuery.Proofs.Selection.Nesting
import Mathlib.Logic.Relation

/-!
# Nesting — fragments that are defined by themselves

The definitions of a query spread each other as the fragments of its expression are nested in each
other. So they form a cycle just when a fragment is applied within its own selection: directly, or
within the selections of fragments of other names on the way.

- `Expression.applications`, `Expression.Nests` : the fragments of an expression
- `Focused.Outside` : a head that stands in no other definition than the root
- `Focused.Applies`, `Compiler.Derives.applies` : where the tree of an expression applies fragments
- `Compiler.spreads_iff_nests` : what the definitions of a compiled query spread
- `Pruned.Acyclic`, `Compiler.acyclic_iff_of_compile` : cycles of definitions
- `Compiler.parents_spread_themselves` : a definition that spreads itself
-/

set_option autoImplicit false

namespace GraphQuery

/-- The fragments that an expression applies, each with the innermost one around it, from left to
right. The expression itself stands in `outer`. -/
def Expression.applications (outer : Option String) : Expression → List (Option String × String)
  | .root _ _ | .current => []
  | .member target _ => target.applications outer
  | .project source selector | .projectMany source selector | .including source selector =>
      source.applications outer ++ selector.applications outer
  | .filter source _ => source.applications outer
  | .cast source _ => source.applications outer
  | .withFragment source name _ selection =>
      source.applications outer ++ (outer, name) :: selection.applications (some name)

/-- A fragment is applied in the selection of another one, and in that of none between them. -/
def Expression.Nests (e : Expression) (outer inner : String) : Prop :=
  (some outer, inner) ∈ e.applications none

/-- No definition spreads itself, be it through others. -/
def Pruned.Acyclic (pruned : Pruned) : Prop :=
  ∀ name, ¬ Relation.TransGen pruned.Spreads name name

/-! ## Places in a tree -/

namespace Selection

variable {outer around : Option String} {name : String} {root node child tree : Selection}
  {children : List Selection}

/-- The innermost fragment around what is below the node at the end of a path. -/
def contextAt : List Nat → Option String → Selection → Option String
  | [], outer, s => s.label.inside outer
  | i :: path, outer, .node label children =>
      match children[i]? with
      | some child => contextAt path (label.inside outer) child
      | none => label.inside outer

theorem appliedAmong_modify {f : Selection → Selection} {i : Nat} {P : Prop}
    (hchild : children[i]? = some child)
    (hf : Applied outer (f child) around name ↔ Applied outer child around name ∨ P) :
    AppliedAmong outer (children.modify i f) around name ↔
      AppliedAmong outer children around name ∨ P := by
  induction children generalizing i with
  | nil => simp at hchild
  | cons first rest ih =>
      cases i with
      | zero =>
          obtain rfl : first = child := by simpa using hchild
          rw [List.modify_zero_cons, appliedAmong_cons, appliedAmong_cons, hf, or_right_comm]
      | succ i =>
          have hrest := ih (by simpa using hchild)
          rw [List.modify_succ_cons, appliedAmong_cons, appliedAmong_cons, hrest, or_assoc]

/-- A tree that is added applies its fragments where it is added. -/
theorem applied_push {path : List Nat} (h : root.descendant? path = some node) :
    Applied outer (root.modifyAt (push tree) path) around name ↔
      Applied outer root around name ∨ Applied (root.contextAt path outer) tree around name := by
  induction path generalizing root outer with
  | nil =>
      rw [modifyAt, applied_iff, label_push, children_push, appliedAmong_append, appliedAmong_cons,
        ← or_assoc, ← applied_iff, contextAt]
      simp [not_appliedAmong_nil]
  | cons i path ih =>
      rcases root with ⟨label, children⟩
      rw [descendant?] at h
      split at h
      · next inner hinner =>
          rw [modifyAt, applied_iff, applied_iff, contextAt, hinner, or_assoc]
          exact or_congr_right (appliedAmong_modify hinner (ih h))
      · cases h

theorem contextAt_stay {path : List Nat} (h : root.descendant? path = some node) :
    (root.modifyAt (push tree) path).contextAt path outer = root.contextAt path outer := by
  induction path generalizing root outer with
  | nil => rw [modifyAt, contextAt, contextAt, label_push]
  | cons i path ih =>
      rcases root with ⟨label, children⟩
      rw [descendant?] at h
      split at h
      · next inner hinner =>
          rw [modifyAt, contextAt, contextAt, List.getElem?_modify_eq, hinner]
          exact ih h
      · cases h

theorem contextAt_move {path rest : List Nat} (h : root.descendant? path = some node) :
    (root.modifyAt (push tree) path).contextAt (path ++ node.children.length :: rest) outer =
      tree.contextAt rest (root.contextAt path outer) := by
  induction path generalizing root outer with
  | nil =>
      cases h
      rcases node with ⟨label, children⟩
      simp [modifyAt, push, contextAt, Selection.children, Selection.label]
  | cons i path ih =>
      rcases root with ⟨label, children⟩
      rw [descendant?] at h
      split at h
      · next inner hinner =>
          rw [modifyAt, List.cons_append, contextAt, contextAt, List.getElem?_modify_eq, hinner]
          exact ih h
      · cases h

/-- Nothing is applied in a tree without fragments. -/
theorem not_applied_of_every (h : Every (fun label => label.fragment? = none) node) :
    ¬ Applied outer node around name := by
  intro happlied
  induction happlied with
  | here hhere => simp [h.holds] at hhere
  | deeper hchild _ ih => exact ih (h.children _ hchild)

end Selection

open Selection (Applied Every)

namespace Focused

variable {f g : Focused} {outer around : Option String} {name : String}

/-- No definition is on the way from the root to the head, but for the root. -/
def Outside (f : Focused) : Prop :=
  ∀ outer, f.root.contextAt f.path outer = f.root.label.inside outer

theorem outside_ofRoot (root : Selection) : (ofRoot root).Outside := fun _ => rfl

theorem Outside.move (hf : f.Headed) (hfo : f.Outside) (hgo : g.Outside)
    (hg : ∀ outer, g.root.label.inside outer = outer) : (f.attach g true).Outside := by
  intro outer
  calc (f.attach g true).root.contextAt (f.attach g true).path outer
      = g.root.contextAt g.path (f.root.contextAt f.path outer) := Selection.contextAt_move hf
    _ = f.root.contextAt f.path outer := (hgo _).trans (hg _)
    _ = f.root.label.inside outer := hfo outer
    _ = (f.attach g true).root.label.inside outer := by rw [label_attach]

theorem Outside.stay (hf : f.Headed) (hfo : f.Outside) (g : Focused) :
    (f.attach g false).Outside := by
  intro outer
  calc (f.attach g false).root.contextAt (f.attach g false).path outer
      = f.root.contextAt f.path outer := Selection.contextAt_stay hf
    _ = f.root.label.inside outer := hfo outer
    _ = (f.attach g false).root.label.inside outer := by rw [label_attach]

/-- The tree applies the fragments that an expression does, each inside the same one. -/
def Applies (f : Focused) (e : Expression) : Prop :=
  ∀ outer around name, Applied outer f.root around name ↔
    (f.root.label.fragment? = some name ∧ around = outer) ∨
      (around, name) ∈ e.applications (f.root.label.inside outer)

/-- What is added below the head is applied in the same definition as what is there. -/
theorem Applies.attach {e e' : Expression} (hf : f.Headed) (hfo : f.Outside) (he : f.Applies e)
    (moveHead : Bool)
    (hg : ∀ outer around name, (around, name) ∈ e'.applications outer ↔
      (around, name) ∈ e.applications outer ∨ Applied outer g.root around name) :
    (f.attach g moveHead).Applies e' := by
  intro outer around name
  have hpush : Applied outer (f.attach g moveHead).root around name ↔
      Applied outer f.root around name ∨
        Applied (f.root.contextAt f.path outer) g.root around name := Selection.applied_push hf
  rw [hpush, hfo, he, label_attach, hg, or_assoc]

end Focused

/-! ## Expressions -/

namespace Compiler

variable {c : Compiler} {e : Expression} {scope : Scope} {f : Focused} {query : CompiledQuery}
  {outer around : Option String} {name : String}

theorem bare_expansion (s : Schema) (type : GraphType) (defaultScalars : Bool) :
    ∀ node ∈ s.expansion type defaultScalars, Every (fun label => label.fragment? = none) node :=
  every_expansion s type defaultScalars (fun _ _ _ _ _ _ => rfl) (fun _ => rfl) (fun _ => rfl)

theorem bare_fieldNode {field : Field} {node : Selection}
    (h : c.fieldNode field scope = .ok node) :
    Every (fun label => label.fragment? = none) node ∧ node.label.isField = true := by
  rcases fieldNode_eq_ok h with ⟨source, -, -, rfl⟩
  refine ⟨.node rfl ?_, rfl⟩
  intro child hchild
  split at hchild
  · exact bare_expansion _ _ _ child hchild
  · cases hchild

/-- What is selected from an element starts at a field. -/
theorem Derives.isField_of_element (h : c.Derives e scope f) {owner : TypeRef}
    (hcurrent : scope.current = .element owner) : f.root.label.isField = true := by
  rcases h.rootLabel with hfield | ⟨name, type, -, hfragment⟩
  · exact hfield
  · rw [hcurrent] at hfragment
    cases hfragment

theorem Derives.outside (h : c.Derives e scope f) : f.Outside := by
  induction h with
  | root | fragment | elementMember => exact Focused.outside_ofRoot _
  | member hsource _ hnode ih =>
      exact ih.move hsource.headed (Focused.outside_ofRoot _) fun _ =>
        Label.inside_of_isField (bare_fieldNode hnode).2
  | project hsource hselector ihSource ihSelector
  | projectMany hsource hselector ihSource ihSelector =>
      exact ihSource.move hsource.headed ihSelector fun _ =>
        Label.inside_of_isField (hselector.isField_of_element rfl)
  | filter _ ih => exact ih
  | including hsource _ _ _ ihSource _ => exact ihSource.stay hsource.headed _
  | cast hsource _ _ ih => exact ih.move hsource.headed (Focused.outside_ofRoot _) fun _ => rfl
  | withFragment hsource _ _ _ _ _ _ _ ihSource _ => exact ihSource.stay hsource.headed _

theorem Derives.applies (h : c.Derives e scope f) : f.Applies e := by
  have hbare : ∀ {outer : Option String} {around : Option String} {name : String}
      {node : Selection}, Every (fun label => label.fragment? = none) node →
      ¬ Applied outer node around name := fun hnode => Selection.not_applied_of_every hnode
  -- Below a selector's element, the selector applies what it does below its own root.
  have hselected : ∀ {selector : Expression} {selected : Focused} {outer : Option String}
      {around : Option String} {name : String}, selected.Applies selector →
      selected.root.label.isField = true →
      (Applied outer selected.root around name ↔ (around, name) ∈ selector.applications outer) := by
    intro selector selected outer around name happlies hfield
    rw [happlies, Label.fragment?_of_isField hfield, Label.inside_of_isField hfield]
    simp
  induction h with
  | root _ _ hnode | elementMember _ _ hnode =>
      rcases bare_fieldNode hnode with ⟨hevery, hfield⟩
      have hfragment := Label.fragment?_of_isField hfield
      intro outer around name
      simp [Focused.ofRoot, hbare hevery, hfragment, Expression.applications]
  | @fragment _ _ type _ =>
      intro outer around name
      rw [Selection.applied_iff]
      refine or_congr_right (iff_of_false ?_ List.not_mem_nil)
      rintro ⟨node, hnode, happlied⟩
      exact hbare (bare_expansion _ _ _ node hnode) happlied
  | member hsource _ hnode ih =>
      refine ih.attach hsource.headed hsource.outside true fun outer around name => ?_
      simp [Focused.ofRoot, hbare (bare_fieldNode hnode).1, Expression.applications]
  | project hsource hselector ihSource ihSelector
  | projectMany hsource hselector ihSource ihSelector =>
      refine ihSource.attach hsource.headed hsource.outside true fun outer around name => ?_
      rw [hselected ihSelector (hselector.isField_of_element rfl)]
      simp [Expression.applications]
  | filter _ ih => exact ih
  | including hsource hcurrent _ hselector ihSource ihSelector =>
      refine ihSource.attach hsource.headed hsource.outside false fun outer around name => ?_
      rw [hselected ihSelector (hselector.isField_of_element hcurrent)]
      simp [Expression.applications]
  | @cast _ _ scope _ target hsource _ _ ih =>
      have hnode : Every (fun label => label.fragment? = none)
          (.node (.subtype target) (c.schema.expansion target scope.defaultScalars)) :=
        .node rfl (bare_expansion _ _ _)
      refine ih.attach hsource.headed hsource.outside true fun outer around name => ?_
      simp [Focused.ofRoot, hbare hnode, Expression.applications]
  | @withFragment _ _ name fragment _ _ _ _ _ _ _ hsource _ _ _ hcurrent _ hdefinition hlabel
      ihSource ihDefinition =>
      -- The definition is of the fragment that is applied, which its selection stands in.
      obtain rfl : fragment = name := by
        rcases hdefinition.rootLabel with hfield | ⟨_, _, hroot, hscope⟩
        · rw [hlabel] at hfield
          cases hfield
        · rw [hlabel] at hroot
          rw [hcurrent] at hscope
          cases hroot
          cases hscope
          rfl
      refine ihSource.attach hsource.headed hsource.outside false fun outer around name => ?_
      show _ ↔ _ ∨ Applied outer _ around name
      rw [Focused.ofRoot, ihDefinition, hlabel]
      simp [Expression.applications, Label.fragment?, Label.inside, and_comm, eq_comm]

/-- The definitions of a compiled query spread each other as the fragments of its expression are
nested in each other. -/
theorem spreads_iff_nests {tree : Selection} {pruned : Pruned} {limit : Nat}
    (htree : c.tree e = .ok tree) (hfield : tree.label.isField = true)
    (hpruned : tree.prune limit = .ok pruned) (outer inner : String) :
    pruned.Spreads outer inner ↔ e.Nests outer inner := by
  rcases Outcome.bind_eq_ok_iff.1 htree with ⟨selected, hselected, htree⟩
  cases htree
  rw [Selection.spreads_of_prune hpruned hfield, (derives_of_select hselected).applies,
    Label.inside_of_isField hfield]
  simp [Expression.Nests]

/-- The definitions of a compiled query form a cycle just when fragments of the expression are
nested in a cycle. -/
theorem acyclic_iff_of_compile (h : c.compile e = .ok query) :
    ∃ tree pruned, c.tree e = .ok tree ∧
      tree.prune c.configuration.recursionLimit = .ok pruned ∧
      pruned.bind c.configuration.variablePrefix = .ok (query.content, query.declared) ∧
      (∀ outer inner, pruned.Spreads outer inner ↔ e.Nests outer inner) ∧
      (pruned.Acyclic ↔ ∀ name, ¬ Relation.TransGen e.Nests name name) := by
  rcases compile_eq_ok h with ⟨tree, pruned, htree, hfield, hpruned, hbind⟩
  have hspreads := spreads_iff_nests htree (Label.isField_of_exists hfield) hpruned
  refine ⟨tree.root, pruned, htree, hpruned, hbind, hspreads, ?_⟩
  have hsame : pruned.Spreads = e.Nests := by
    funext outer inner
    exact propext (hspreads outer inner)
  rw [Pruned.Acyclic, hsame]

/-! ## Folders -/

def foldersDeclarations : Declarations where
  types := [
    .scalar "String",
    .object "Folder" [⟨"name", .named "String", []⟩, ⟨"parent", .named "Folder", []⟩] [],
    .object "Query" [⟨"folders", .list (.named "Folder"), []⟩] []]
  queryType := none
  distinct := by decide

def foldersCompiler : Compiler where
  schema := (foldersDeclarations.build.toOption).getD ⟨[], ⟨0, "Query"⟩⟩
  naming := Naming.identity
  configuration := { Configuration.standard with recursionLimit := 8 }

/-- Folders with their parents, by a fragment in which another one selects the parents. -/
def parentsWith (inner : String) : Expression :=
  .withFragment (.root "Folder" none) "Nested" "Folder"
    (.including .current
      (.withFragment (.member .current ⟨"Folder", "parent"⟩) inner "Folder" .current))

/-- The query of folders and parents where both fragments have one name. -/
def parentsQuery : CompiledQuery where
  content := {
    declared := []
    root := .field "folders" [] [.spread "Nested"]
    fragments := [⟨"Nested", "Folder", [.field "name" [] [],
      .field "parent" [] [.field "name" [] [], .spread "Nested"]]⟩] }
  declared := []
  entryPoint := "folders"
  entryType := .list (.named .object ⟨1, "Folder"⟩)

theorem acyclic_parents :
    ∃ query, foldersCompiler.compile (parentsWith "Inner") = .ok query ∧
      ∃ tree pruned, foldersCompiler.tree (parentsWith "Inner") = .ok tree ∧
        tree.prune 8 = .ok pruned ∧
        pruned.bind "var_" = .ok (query.content, query.declared) ∧
        (∀ outer inner, pruned.Spreads outer inner ↔ (parentsWith "Inner").Nests outer inner) ∧
        (pruned.Acyclic ↔ ∀ name, ¬ Relation.TransGen (parentsWith "Inner").Nests name name) := by
  obtain ⟨query, h⟩ : ∃ query, foldersCompiler.compile (parentsWith "Inner") = .ok query :=
    Outcome.exists_of_isOk rfl
  exact ⟨query, h, acyclic_iff_of_compile h⟩

/-- A fragment that is applied in its own selection is printed with a definition that spreads
itself, and the query compiles. -/
theorem parents_spread_themselves :
    foldersCompiler.compile (parentsWith "Nested") = .ok parentsQuery ∧
      ∃ tree pruned, foldersCompiler.tree (parentsWith "Nested") = .ok tree ∧
        tree.prune 8 = .ok pruned ∧
        pruned.bind "var_" = .ok (parentsQuery.content, parentsQuery.declared) ∧
        ¬ pruned.Acyclic := by
  have h : foldersCompiler.compile (parentsWith "Nested") = .ok parentsQuery := rfl
  rcases compile_eq_ok h with ⟨tree, pruned, htree, hlabel, hpruned, hbind⟩
  refine ⟨h, tree.root, pruned, htree, hpruned, hbind, fun hacyclic => hacyclic "Nested" ?_⟩
  have hfield := Label.isField_of_exists hlabel
  have hnests : (parentsWith "Nested").Nests "Nested" "Nested" := by
    unfold Expression.Nests
    decide
  exact .single ((spreads_iff_nests htree hfield hpruned "Nested" "Nested").2 hnests)

end Compiler

end GraphQuery
