import GraphQuery.Document.Binding
import GraphQuery.Proofs.Outcome

/-!
# Document.Binding — the binding of a tree, taken apart

Binding either fails or prints a tree from top to bottom, and on its way it adds to the variables.
The rules say what is printed of a node, of a group of children and of definitions, from the
variables before to the variables after, so that what holds of every document can be shown rule by
rule.

- `Binder.run_bind_eq_ok`, `Binder.run_pure_eq_ok` : one step and the rest
- `Selection.Binds`, `Selection.binds_of_bind` : what is printed of a node
- `Selection.GroupBinds`, `Selection.groupBinds_of_bindGroup` : what is printed of a group
- `Selection.bindChildren_eq_ok` : the groups, one after the other
- `FragmentDefinition.AllBind`, `FragmentDefinition.allBind_of_mapM` : the blocks of definitions
- `Pruned.bind_eq_ok` : the operation and the definitions
-/

set_option autoImplicit false

namespace GraphQuery

namespace Binder

variable {α β : Type} {x : Binder α} {f : α → Binder β} {declared last : List Variable} {b : β}

theorem run_bind_eq_ok : (x >>= f).run declared = .ok (b, last) →
    ∃ a next, x.run declared = .ok (a, next) ∧ (f a).run next = .ok (b, last) := by
  intro h
  rw [StateT.run_bind] at h
  rcases Outcome.bind_eq_ok_iff.1 h with ⟨⟨a, next⟩, hx, hf⟩
  exact ⟨a, next, hx, hf⟩

theorem run_pure_eq_ok {a : β} (h : (pure a : Binder β).run declared = .ok (b, last)) :
    a = b ∧ declared = last := by
  cases h
  exact ⟨rfl, rfl⟩

end Binder

namespace Selection

/-! ## Nodes -/

/-- What is printed of a node, with a rule for each kind. -/
inductive Binds (start : String) :
    Selection → List Variable → DocumentNode → List Variable → Prop where
  | field {name : String} {type : GraphType} {arguments : List Argument}
      {source : Option ArgumentSource} {children : List Selection}
      {before next after : List Variable} {passed : List (String × String)}
      {below : List DocumentNode} :
      (bindArguments start name source arguments).run before = .ok (passed, next) →
      (bindChildren start children).run next = .ok (below, after) →
      Binds start (.node (.field name type arguments source) children) before
        (.field name passed below) after
  | typename {type : GraphType} {children : List Selection} {before after : List Variable}
      {below : List DocumentNode} :
      (bindChildren start children).run before = .ok (below, after) →
      Binds start (.node (.typename type) children) before
        (.field Name.discriminator [] below) after
  | subtype {type : GraphType} {children : List Selection} {before after : List Variable}
      {below : List DocumentNode} :
      (bindChildren start children).run before = .ok (below, after) →
      Binds start (.node (.subtype type) children) before (.subtype type.name below) after
  | spread {name : String} {type : GraphType} {children : List Selection}
      {before : List Variable} :
      Binds start (.node (.spread name type) children) before (.spread name) before
  | fragment {name : String} {type : GraphType} {children : List Selection}
      {before : List Variable} :
      Binds start (.node (.fragment name type) children) before (.spread name) before

variable {start : String} {before after : List Variable} {children : List Selection}

theorem binds_of_bind {node : Selection} {printed : DocumentNode}
    (h : (bind start node).run before = .ok (printed, after)) :
    Binds start node before printed after := by
  rcases node with ⟨label, children⟩
  cases label with
  | field name type arguments source =>
      rw [bind] at h
      rcases Binder.run_bind_eq_ok h with ⟨passed, next, hown, h⟩
      rcases Binder.run_bind_eq_ok h with ⟨below, last, hbelow, h⟩
      rcases Binder.run_pure_eq_ok h with ⟨rfl, rfl⟩
      exact .field hown hbelow
  | typename type =>
      rw [bind] at h
      rcases Binder.run_bind_eq_ok h with ⟨below, last, hbelow, h⟩
      rcases Binder.run_pure_eq_ok h with ⟨rfl, rfl⟩
      exact .typename hbelow
  | subtype type =>
      rw [bind] at h
      rcases Binder.run_bind_eq_ok h with ⟨below, last, hbelow, h⟩
      rcases Binder.run_pure_eq_ok h with ⟨rfl, rfl⟩
      exact .subtype hbelow
  | spread name type =>
      rw [bind] at h
      rcases Binder.run_pure_eq_ok h with ⟨rfl, rfl⟩
      exact .spread
  | fragment name type =>
      rw [bind] at h
      rcases Binder.run_pure_eq_ok h with ⟨rfl, rfl⟩
      exact .fragment

/-! ## Children -/

/-- What is printed of the children of one group, in their order. -/
inductive GroupBinds (start : String) (group : PrintGroup) :
    List Selection → List Variable → List DocumentNode → List Variable → Prop where
  | nil {before : List Variable} : GroupBinds start group [] before [] before
  | print {child : Selection} {rest : List Selection} {before next after : List Variable}
      {node : DocumentNode} {nodes : List DocumentNode} :
      child.label.printGroup? = some group →
      (bind start child).run before = .ok (node, next) →
      GroupBinds start group rest next nodes after →
      GroupBinds start group (child :: rest) before (node :: nodes) after
  | skip {child : Selection} {rest : List Selection} {before after : List Variable}
      {nodes : List DocumentNode} :
      child.label.printGroup? ≠ some group → GroupBinds start group rest before nodes after →
      GroupBinds start group (child :: rest) before nodes after

theorem groupBinds_of_bindGroup {group : PrintGroup} {printed : List DocumentNode}
    (h : (bindGroup start group children).run before = .ok (printed, after)) :
    GroupBinds start group children before printed after := by
  induction children generalizing before printed with
  | nil =>
      rw [bindGroup] at h
      rcases Binder.run_pure_eq_ok h with ⟨rfl, rfl⟩
      exact .nil
  | cons child rest ih =>
      rw [bindGroup] at h
      split at h
      · next hgroup =>
          rcases Binder.run_bind_eq_ok h with ⟨node, next, hnode, h⟩
          rcases Binder.run_bind_eq_ok h with ⟨nodes, last, hnodes, h⟩
          rcases Binder.run_pure_eq_ok h with ⟨rfl, rfl⟩
          exact .print hgroup hnode (ih hnodes)
      · next hgroup => exact .skip hgroup (ih h)

/-- Fields are printed first, then spreads, and then subtypes. -/
theorem bindChildren_eq_ok {printed : List DocumentNode}
    (h : (bindChildren start children).run before = .ok (printed, after)) :
    ∃ fields spreads subtypes afterFields afterSpreads,
      GroupBinds start .fields children before fields afterFields ∧
      GroupBinds start .spreads children afterFields spreads afterSpreads ∧
      GroupBinds start .subtypes children afterSpreads subtypes after ∧
      printed = fields ++ spreads ++ subtypes := by
  rw [bindChildren] at h
  rcases Binder.run_bind_eq_ok h with ⟨fields, afterFields, hfields, h⟩
  rcases Binder.run_bind_eq_ok h with ⟨spreads, afterSpreads, hspreads, h⟩
  rcases Binder.run_bind_eq_ok h with ⟨subtypes, afterSubtypes, hsubtypes, h⟩
  rcases Binder.run_pure_eq_ok h with ⟨rfl, rfl⟩
  exact ⟨fields, spreads, subtypes, afterFields, afterSpreads, groupBinds_of_bindGroup hfields,
    groupBinds_of_bindGroup hspreads, groupBinds_of_bindGroup hsubtypes, rfl⟩

end Selection

/-! ## Definitions -/

namespace FragmentDefinition

/-- What is printed of definitions: a block for each of them. -/
inductive AllBind (start : String) :
    List FragmentDefinition → List Variable → List FragmentBlock → List Variable → Prop where
  | nil {before : List Variable} : AllBind start [] before [] before
  | cons {f : FragmentDefinition} {rest : List FragmentDefinition}
      {before next after : List Variable} {below : List DocumentNode}
      {blocks : List FragmentBlock} :
      (Selection.bindChildren start f.children).run before = .ok (below, next) →
      AllBind start rest next blocks after →
      AllBind start (f :: rest) before (⟨f.name, f.type.name, below⟩ :: blocks) after

theorem allBind_of_mapM {start : String} {fragments : List FragmentDefinition}
    {before after : List Variable} {blocks : List FragmentBlock}
    (h : (fragments.mapM (FragmentDefinition.bind start)).run before = .ok (blocks, after)) :
    AllBind start fragments before blocks after := by
  induction fragments generalizing before blocks with
  | nil =>
      rcases Binder.run_pure_eq_ok h with ⟨rfl, rfl⟩
      exact .nil
  | cons f rest ih =>
      rw [List.mapM_cons] at h
      rcases Binder.run_bind_eq_ok h with ⟨block, next, hblock, h⟩
      rcases Binder.run_bind_eq_ok hblock with ⟨below, mid, hbelow, hblock⟩
      rcases Binder.run_pure_eq_ok hblock with ⟨rfl, rfl⟩
      rcases Binder.run_bind_eq_ok h with ⟨others, last, hothers, h⟩
      rcases Binder.run_pure_eq_ok h with ⟨rfl, rfl⟩
      exact .cons hbelow (ih hothers)

end FragmentDefinition

/-- The operation is bound from no variables on, and the definitions after it. -/
theorem Pruned.bind_eq_ok {start : String} {pruned : Pruned} {document : Document}
    {declared : List Variable} (h : pruned.bind start = .ok (document, declared)) :
    ∃ next, (pruned.root.bind start).run [] = .ok (document.root, next) ∧
      FragmentDefinition.AllBind start pruned.fragments next document.fragments declared ∧
      document.declared = declared.map fun v => (v.name, v.type.expr) := by
  unfold Pruned.bind at h
  rcases Outcome.bind_eq_ok_iff.1 h with ⟨⟨⟨root, fragments⟩, bound⟩, hrun, h⟩
  cases h
  rcases Binder.run_bind_eq_ok hrun with ⟨operation, next, hoperation, hrun⟩
  rcases Binder.run_bind_eq_ok hrun with ⟨blocks, last, hblocks, hrun⟩
  rcases Binder.run_pure_eq_ok hrun with ⟨heq, rfl⟩
  cases heq
  exact ⟨next, hoperation, FragmentDefinition.allBind_of_mapM hblocks, rfl⟩

end GraphQuery
