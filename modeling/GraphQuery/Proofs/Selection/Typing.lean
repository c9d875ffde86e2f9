import GraphQuery.Proofs.Schema.Consistency
import GraphQuery.Proofs.Selection.Passes

/-!
# Selection.Typing — trees that a schema allows

A tree is typed where each node can be selected from the type of the node around it. Pruning moves
nodes up a level, under other nodes and into fragments, but never under a node of another type.

- `Label.Fits` : a node that can be selected from a type
- `Selection.Typed` : a tree whose nodes all fit
- `Selection.Filled` : a tree in which no composite selection is empty
- `Pruned.WellTyped` : a query that a server for the schema accepts
- `Selection.wellTyped_of_prune` : pruning a typed tree gives such a query
-/

set_option autoImplicit false

namespace GraphQuery

namespace Label

/-- Whether something can be selected below a node. -/
def opens : Label → Bool
  | .field _ type _ _ => type.isComposite
  | .subtype type => type.isComposite
  | .fragment _ type => type.isComposite
  | .typename _ => false
  | .spread _ _ => false

/-- Whether a node can be selected from a type: a field is one that the type declares, with just
the arguments that it declares, and reads these from a source where there are any. -/
def Fits (s : Schema) (owner : TypeRef) : Label → Prop
  | .field name type arguments source =>
      s.field? owner name = some ⟨name, type, arguments⟩ ∧
        (source.isSome = true ↔ arguments ≠ [])
  | .typename _ => True
  | .subtype type => s.Declares type ∧ type.isComposite = true
  | .fragment _ type => s.Declares type ∧ type.isComposite = true
  | .spread _ type => s.Declares type ∧ type.isComposite = true

theorem opens_of_needsChildren {a : Label} (h : a.needsChildren = true) : a.opens = true := by
  cases a <;> first | exact h | cases h

theorem opens_eq_of_sameSelection {a b : Label} (h : a.sameSelection b = true) :
    a.opens = b.opens := by
  have hm : a.mergesWith b = true := (sameSelection_iff.1 h).1
  -- Both are of one kind; where that kind goes by its type, the types are equal.
  cases a <;> cases b <;> first | cases hm | skip
  all_goals
    first
      | rfl
      | exact congrArg GraphType.isComposite (type_eq_of_sameSelection h rfl)

theorem type_eq_of_opens {a b : Label} (h : a.sameSelection b = true) (hopens : b.opens = true) :
    a.type = b.type := by
  refine type_eq_of_sameSelection h ?_
  rw [← opens_eq_of_sameSelection h] at hopens
  cases a <;> first | rfl | cases hopens

end Label

namespace Selection

/-- A tree whose root can be selected from a type, and so on below. -/
inductive Typed (s : Schema) : TypeRef → Selection → Prop where
  | node {owner : TypeRef} {label : Label} {children : List Selection} :
      label.Fits s owner → (label.opens = false → children = []) →
      (∀ child ∈ children, Typed s label.type.typeRef child) → Typed s owner (.node label children)

/-- Trees that can all be selected from one type. -/
abbrev AllTyped (s : Schema) (owner : TypeRef) (children : List Selection) : Prop :=
  ∀ child ∈ children, Typed s owner child

/-- No field or subtype of composite type is without children. -/
inductive Filled : Selection → Prop where
  | node {label : Label} {children : List Selection} :
      (label.needsChildren = true → children ≠ []) → (∀ child ∈ children, Filled child) →
      Filled (.node label children)

variable {s : Schema} {owner : TypeRef} {children merged out : List Selection}

namespace Typed

theorem fits {node : Selection} (h : Typed s owner node) : node.label.Fits s owner := by
  cases h with
  | node hfits _ _ => exact hfits

theorem childrenTyped {node : Selection} (h : Typed s owner node) :
    AllTyped s node.label.type.typeRef node.children := by
  cases h with
  | node _ _ hbelow => exact hbelow

theorem opens {node child : Selection} (h : Typed s owner node) (hchild : child ∈ node.children) :
    node.label.opens = true := by
  cases h with
  | @node _ label children _ hleaf _ =>
      by_contra hclosed
      have hnil : children = [] := hleaf (by simpa [Selection.label] using hclosed)
      rw [hnil] at hchild
      cases hchild

/-- A node is typed when its label fits and each child is typed, and opens the node. -/
theorem of_children {node : Selection} (hfits : node.label.Fits s owner)
    (hopens : ∀ child ∈ node.children, node.label.opens = true)
    (hbelow : AllTyped s node.label.type.typeRef node.children) : Typed s owner node := by
  rcases node with ⟨label, children⟩
  refine .node hfits ?_ hbelow
  intro hclosed
  refine List.eq_nil_iff_forall_not_mem.2 fun child hchild => ?_
  have hopen : label.opens = true := hopens child hchild
  simp [hclosed] at hopen

/-- The children of a node are typed below every node that selects the same. -/
theorem child_of_sameSelection {node child : Selection} {label : Label}
    (h : Typed s owner node) (hchild : child ∈ node.children)
    (hsame : label.sameSelection node.label = true) :
    label.opens = true ∧ Typed s label.type.typeRef child := by
  have hopens := h.opens hchild
  refine ⟨(Label.opens_eq_of_sameSelection hsame).trans hopens, ?_⟩
  rw [Label.type_eq_of_opens hsame hopens]
  exact h.childrenTyped child hchild

end Typed

/-! ## Passes keep types -/

theorem typed_of_merges (h : Merges children merged) (ht : AllTyped s owner children) :
    AllTyped s owner merged := by
  intro node hnode
  rcases h.label node hnode with ⟨child, hchild, hlabel⟩
  -- Whatever is below the node was below a child that selects the same, so of the same type.
  have hbelow : ∀ g ∈ node.children,
      node.label.opens = true ∧ Typed s node.label.type.typeRef g := by
    intro g hg
    rcases h.below node hnode g hg with ⟨c, hc, hsame, hg⟩
    exact (ht c hc).child_of_sameSelection hg hsame
  refine .of_children ?_ (fun g hg => (hbelow g hg).1) fun g hg => (hbelow g hg).2
  rw [hlabel]
  exact (ht child hchild).fits

theorem typed_of_folds (h : Folds children out) (ht : AllTyped s owner children) :
    AllTyped s owner out := by
  intro node hnode
  rcases h.label node hnode with ⟨child, hchild, hlabel, hgrandchild⟩
  have hbelow : ∀ g ∈ node.children,
      node.label.opens = true ∧ Typed s node.label.type.typeRef g := by
    intro g hg
    rcases hgrandchild g hg with hg | ⟨subtype, hsubtype, -, field, hfield, haccepts, hg⟩
    · rw [hlabel]
      exact ⟨(ht child hchild).opens hg, (ht child hchild).childrenTyped g hg⟩
    · -- It was below a field of a subtype that selects the same as the node.
      exact ((ht subtype hsubtype).childrenTyped field hfield).child_of_sameSelection hg haccepts.2
  refine .of_children ?_ (fun g hg => (hbelow g hg).1) fun g hg => (hbelow g hg).2
  rw [hlabel]
  exact (ht child hchild).fits

theorem typed_of_normalize {limit levels : Nat} (h : normalize limit levels children = .ok out)
    (ht : AllTyped s owner children) : AllTyped s owner out := by
  -- Induction on the levels that are left, since folding moves children between the levels.
  induction levels generalizing owner children out with
  | zero => cases h
  | succ levels ih =>
      rcases normalize_eq_ok h with ⟨merged, hmerged, hout⟩
      have hfolded : AllTyped s owner (foldSubtypes merged) :=
        typed_of_folds (foldSubtypes_folds merged) (typed_of_merges (mergeAll_merges hmerged) ht)
      intro node hnode
      rcases Outcome.mem_right hout hnode with ⟨child, hchild, hlabel, hbelow⟩
      have hnodeBelow := ih hbelow (hfolded child hchild).childrenTyped
      refine .of_children (hlabel ▸ (hfolded child hchild).fits) ?_ (hlabel ▸ hnodeBelow)
      intro g hg
      rw [hlabel]
      rcases exists_mem_of_normalize hbelow hg with ⟨c, hc⟩
      exact (hfolded child hchild).opens hc

/-- The children of a definition are selected from its type. -/
def DefinitionTyped (s : Schema) (fragment : FragmentDefinition) : Prop :=
  (s.Declares fragment.type ∧ fragment.type.isComposite = true) ∧
    AllTyped s fragment.type.typeRef fragment.children

theorem typed_of_define {fragment : FragmentDefinition} {found defined : List FragmentDefinition}
    (h : define fragment found = .ok defined) (hf : DefinitionTyped s fragment)
    (hfound : ∀ f ∈ found, DefinitionTyped s f) : ∀ f ∈ defined, DefinitionTyped s f := by
  rcases define_eq_ok h with ⟨rfl, -⟩ | ⟨before, other, after, rfl, -, htype, rfl⟩
  · intro f hmem
    rcases List.mem_append.1 hmem with hmem | hmem
    · exact hfound f hmem
    · rw [List.mem_singleton.1 hmem]
      exact hf
  · -- Definitions of one name are put together only where their types are equal.
    have hother : DefinitionTyped s other :=
      hfound other (List.mem_append_right _ List.mem_cons_self)
    have hadded : AllTyped s other.type.typeRef fragment.children := htype ▸ hf.2
    refine forall_mem_replace hfound ⟨hother.1, ?_⟩
    exact List.forall_mem_append.2 ⟨hother.2, hadded⟩

theorem typed_of_extraction {found last : List FragmentDefinition}
    (h : Extraction found children out last) (ht : AllTyped s owner children)
    (hfound : ∀ f ∈ found, DefinitionTyped s f) :
    AllTyped s owner out ∧ ∀ f ∈ last, DefinitionTyped s f := by
  induction h generalizing owner with
  | nil => exact ⟨ht, hfound⟩
  | @keep _ _ _ label children below rest nodes _ hbelow _ ihBelow ihRest =>
      have hnode := ht _ List.mem_cons_self
      rcases ihBelow hnode.childrenTyped hfound with ⟨htBelow, hmid⟩
      rcases ihRest (fun c hc => ht c (List.mem_cons_of_mem _ hc)) hmid with ⟨htRest, hlast⟩
      refine ⟨List.forall_mem_cons.2 ⟨?_, htRest⟩, hlast⟩
      refine .of_children hnode.fits ?_ htBelow
      intro g hg
      rcases exists_mem_of_extraction hbelow hg with ⟨c, hc⟩
      exact hnode.opens hc
  | @define _ _ _ _ name type _ _ _ _ _ hdefine _ ihBelow ihRest =>
      have hnode := ht _ List.mem_cons_self
      rcases ihBelow hnode.childrenTyped hfound with ⟨htBelow, hmid⟩
      -- The spread fits where the definition did.
      have hdefined := typed_of_define hdefine ⟨hnode.fits, htBelow⟩ hmid
      rcases ihRest (fun c hc => ht c (List.mem_cons_of_mem _ hc)) hdefined with ⟨htRest, hlast⟩
      refine ⟨List.forall_mem_cons.2 ⟨?_, htRest⟩, hlast⟩
      exact .node hnode.fits (fun _ => rfl) nofun

theorem typed_spreadNode {fragment : FragmentDefinition} (h : DefinitionTyped s fragment) :
    Typed s owner (spreadNode fragment) :=
  .node h.1 (fun _ => rfl) nofun

theorem typed_substitute {fragments : List FragmentDefinition}
    (hf : ∀ f ∈ fragments, DefinitionTyped s f) {node : Selection} (h : Typed s owner node) :
    Typed s owner (substitute fragments node) := by
  induction node generalizing owner with
  | node label children ih =>
      rw [substitute, substituteAll_eq_map]
      have hbelow : AllTyped s label.type.typeRef (children.map (substitute fragments)) := by
        intro child hchild
        rcases List.mem_map.1 hchild with ⟨c, hc, rfl⟩
        exact ih c hc (h.childrenTyped c hc)
      refine .of_children h.fits ?_ ?_
      · intro child hchild
        rcases mem_spreadAll hchild with hchild | ⟨hneeds, -⟩
        · rcases List.mem_map.1 hchild with ⟨c, hc, -⟩
          exact h.opens hc
        · exact Label.opens_of_needsChildren hneeds
      · intro child hchild
        rcases mem_spreadAll hchild with hchild | ⟨-, fragment, hfragment, rfl⟩
        · exact hbelow child hchild
        · exact typed_spreadNode (hf fragment hfragment)

theorem typed_elide {node : Selection} (h : Typed s owner node) : Typed s owner (elide node) := by
  induction node generalizing owner with
  | node label children ih =>
      rw [elide]
      refine .of_children h.fits ?_ ?_
      · intro child hchild
        rcases mem_elideAll.1 hchild with ⟨c, hc, -⟩
        exact h.opens hc
      · intro child hchild
        rcases mem_elideAll.1 hchild with ⟨c, hc, rfl, -⟩
        exact ih c hc (h.childrenTyped c hc)

theorem typed_elideAll (h : AllTyped s owner children) : AllTyped s owner (elideAll children) := by
  intro node hnode
  rcases mem_elideAll.1 hnode with ⟨child, hchild, rfl, -⟩
  exact typed_elide (h child hchild)

/-! ## Nothing empty is left -/

theorem filled_elide {node : Selection} (h : (elide node).isVoid = false) :
    Filled (elide node) := by
  induction node with
  | node label children ih =>
      rw [elide] at h ⊢
      refine .node ?_ ?_
      · -- A node that needs children and has none is void.
        intro hneeds hnil
        have hvoid : (node label (elideAll children)).isVoid = true := by
          simp [isVoid, Selection.label, Selection.children, hneeds, hnil]
        simp [hvoid] at h
      · intro child hchild
        rcases mem_elideAll.1 hchild with ⟨c, hc, rfl, hfilled⟩
        exact ih c hc hfilled

theorem filled_of_mem_elideAll {node : Selection} (h : node ∈ elideAll children) :
    Filled node := by
  rcases mem_elideAll.1 h with ⟨child, -, rfl, hfilled⟩
  exact filled_elide hfilled

end Selection

/-! ## Pruned queries -/

/-- A query that a schema allows: the root is a field of the query type, every node fits the type
around it and every selection of composite type selects something. -/
structure Pruned.WellTyped (s : Schema) (pruned : Pruned) : Prop where
  root : Selection.Typed s s.queryType pruned.root
  rootField : ∃ name type arguments source, pruned.root.label = .field name type arguments source
  filled : Selection.Filled pruned.root
  fragment : ∀ f ∈ pruned.fragments, s.Declares f.type ∧ f.type.isComposite = true ∧
    f.children ≠ [] ∧ (∀ child ∈ f.children, Selection.Typed s f.type.typeRef child) ∧
      ∀ child ∈ f.children, Selection.Filled child

theorem Selection.typed_of_prune {s : Schema} {owner : TypeRef} {limit : Nat} {tree : Selection}
    {pruned : Pruned} (h : tree.prune limit = .ok pruned) (ht : Selection.Typed s owner tree) :
    Selection.Typed s owner pruned.root ∧ ∀ f ∈ pruned.fragments, DefinitionTyped s f := by
  rcases prune_eq_ok h with ⟨children, nodes, found, fragments, p⟩
  have hchildren := typed_of_normalize p.normal ht.childrenTyped
  rcases typed_of_extraction p.extracted hchildren nofun with ⟨hnodes, hfound⟩
  have hfragments : ∀ f ∈ fragments, DefinitionTyped s f := by
    intro f hf
    rcases Outcome.mem_right p.fragmentsNormal hf with ⟨g, hg, -, htype, hnormal⟩
    have hgTyped := hfound g hg
    unfold DefinitionTyped
    rw [htype]
    exact ⟨hgTyped.1, typed_of_normalize hnormal hgTyped.2⟩
  have hroot : Typed s owner (.node tree.label nodes) := by
    -- There are children below the root only if there were some before.
    refine .of_children ht.fits ?_ hnodes
    intro child hchild
    rcases exists_mem_of_extraction p.extracted hchild with ⟨c, hc⟩
    rcases exists_mem_of_normalize p.normal hc with ⟨g, hg⟩
    exact ht.opens hg
  refine ⟨?_, fun f hf => ?_⟩
  · rw [p.root]
    exact typed_elide (typed_substitute hfragments hroot)
  · rcases Outcome.mem_right p.fragmentsElided hf with ⟨g, hg, -, htype, helided, -⟩
    unfold DefinitionTyped
    rw [htype, helided]
    exact ⟨(hfragments g hg).1, typed_elideAll (hfragments g hg).2⟩

/-- Pruning makes a query that a schema allows of every tree that the schema allows. -/
theorem Selection.wellTyped_of_prune {s : Schema} {limit : Nat} {tree : Selection} {pruned : Pruned}
    (h : tree.prune limit = .ok pruned) (ht : Selection.Typed s s.queryType tree)
    (hfield : ∃ name type arguments source, tree.label = .field name type arguments source) :
    pruned.WellTyped s := by
  rcases typed_of_prune h ht with ⟨hroot, hfragments⟩
  rcases prune_eq_ok h with ⟨children, nodes, found, fragments, p⟩
  refine ⟨hroot, ?_, ?_, ?_⟩
  · rw [p.root]
    exact hfield
  · have hfilled := p.rootFilled
    rw [p.root] at hfilled ⊢
    exact filled_elide hfilled
  · intro f hf
    rcases Outcome.mem_right p.fragmentsElided hf with ⟨g, -, -, -, helided, hne⟩
    rcases hfragments f hf with ⟨⟨hdeclares, hcomposite⟩, hbelow⟩
    refine ⟨hdeclares, hcomposite, hne, hbelow, ?_⟩
    rw [helided]
    intro child hchild
    exact filled_of_mem_elideAll hchild

end GraphQuery
