import GraphQuery.Proofs.Selection.Spreads
import Mathlib.Data.List.Pairwise

/-!
# Selection.Distinct — no two nodes of a level merge

Merging leaves one node of each kind and name, and the passes after it add no node that merges with
one that is there. So no selection of a pruned query selects a field twice.

- `Selection.Apart` : nodes of which no two merge
- `Selection.sameSelection_of_mergeAll` : nodes that are merged select the same
- `Selection.Distinct` : trees in which the children of every node are apart
- `Selection.distinct_of_normalize`, `Selection.distinct_of_extraction`,
  `Selection.distinct_substitute`, `Selection.distinct_elide` : passes give and keep this
- `Selection.distinct_of_prune` : pruned queries
-/

set_option autoImplicit false

namespace GraphQuery

namespace Selection

/-! ## Apart -/

/-- No two of the nodes merge. This is up to their labels only. -/
def Apart (nodes : List Selection) : Prop :=
  (nodes.map Selection.label).Pairwise fun a b => a.mergesWith b = false

theorem apart_nil : Apart [] := List.Pairwise.nil

/-- Nodes of the same labels are apart as well. -/
theorem Apart.congr {nodes others : List Selection} (h : Apart nodes)
    (hlabels : others.map Selection.label = nodes.map Selection.label) : Apart others := by
  unfold Apart
  rw [hlabels]
  exact h

theorem Apart.sublist {nodes others : List Selection} (h : Apart nodes)
    (hsub : List.Sublist (others.map Selection.label) (nodes.map Selection.label)) :
    Apart others :=
  List.Pairwise.sublist hsub h

theorem Apart.push {nodes : List Selection} {node : Selection} (h : Apart nodes)
    (hnode : ∀ other ∈ nodes, other.label.mergesWith node.label = false) :
    Apart (nodes ++ [node]) := by
  unfold Apart
  rw [List.map_append, List.pairwise_append]
  refine ⟨h, List.pairwise_singleton _ _, ?_⟩
  intro a ha b hb
  rcases List.mem_map.1 ha with ⟨other, hother, rfl⟩
  rw [List.map_singleton, List.mem_singleton] at hb
  rw [hb]
  exact hnode other hother

/-- Nodes that merge are one node. -/
theorem Apart.eq {nodes : List Selection} (h : Apart nodes) {a b : Selection} (ha : a ∈ nodes)
    (hb : b ∈ nodes) (hm : a.label.mergesWith b.label = true) : a = b := by
  have hsymm : Std.Symm fun a b : Selection => a.label.mergesWith b.label = false := by
    refine ⟨fun a b hab => ?_⟩
    rw [Bool.eq_false_iff] at hab ⊢
    exact fun hba => hab (Label.mergesWith_symm hba)
  by_contra hne
  have hapart := (List.pairwise_map.1 h).forall ha hb hne
  simp [hm] at hapart

/-! ## Merging -/

section Merging

variable {children merged : List Selection}

theorem apart_of_mergeAll (h : mergeAll children = .ok merged) : Apart merged := by
  refine Outcome.foldlM_induction (motive := fun _ merged => Apart merged) h apart_nil ?_
  intro _ child found next hfound hnext
  rcases mergeInto_eq_ok hnext with ⟨rfl, hnone⟩ | ⟨before, other, after, rfl, -, rfl⟩
  · exact hfound.push hnone
  · exact hfound.congr (by simp [Selection.label])

/-- Nodes that are merged select the same, or merging fails. -/
theorem sameSelection_of_mergeAll (h : mergeAll children = .ok merged) {x y : Selection}
    (hx : x ∈ children) (hy : y ∈ children) (hxy : x.label.mergesWith y.label = true) :
    x.label.sameSelection y.label = true := by
  have hmerges := mergeAll_merges h
  rcases hmerges.kept x hx with ⟨a, ha, hax, -⟩
  rcases hmerges.kept y hy with ⟨b, hb, hby, -⟩
  -- What stands for the one node merges with what stands for the other, so it is the same.
  have hab : a.label.mergesWith b.label = true := by
    have hay := Label.mergesWith_trans (Label.sameSelection_iff.1 hax).1 hxy
    have hyb := Label.mergesWith_symm (Label.sameSelection_iff.1 hby).1
    exact Label.mergesWith_trans hay hyb
  obtain rfl : a = b := (apart_of_mergeAll h).eq ha hb hab
  exact Label.sameSelection_trans (Label.sameSelection_symm hax) hby

theorem labels_addToField (node : Selection) (found : List Selection) :
    (addToField node found).map Selection.label = found.map Selection.label := by
  induction found with
  | nil => rfl
  | cons child rest ih =>
      rw [addToField]
      split
      · rfl
      · rw [List.map_cons, List.map_cons, ih]

theorem labels_foldSubtypes (children : List Selection) :
    (foldSubtypes children).map Selection.label = children.map Selection.label := by
  have hgen : ∀ (nodes found : List Selection),
      (nodes.foldl (fun found node => addToField node found) found).map Selection.label =
        found.map Selection.label := by
    intro nodes
    induction nodes with
    | nil => exact fun _ => rfl
    | cons node rest ih =>
        intro found
        rw [List.foldl_cons, ih, labels_addToField]
  rw [foldSubtypes, hgen, List.map_map]
  exact List.map_congr_left fun child _ => label_keepUnselected children child

end Merging

/-! ## Trees -/

/-- The children of the node are apart, and so are those of the nodes below it. -/
inductive Distinct : Selection → Prop where
  | node {label : Label} {children : List Selection} :
      Apart children → (∀ child ∈ children, Distinct child) → Distinct (.node label children)

theorem Distinct.apart {node : Selection} (h : Distinct node) : Apart node.children := by
  cases h with
  | node h _ => exact h

theorem Distinct.children {node : Selection} (h : Distinct node) :
    ∀ child ∈ node.children, Distinct child := by
  cases h with
  | node _ h => exact h

theorem Distinct.of_children {node : Selection} (h : Apart node.children)
    (hbelow : ∀ child ∈ node.children, Distinct child) : Distinct node := by
  rcases node with ⟨label, children⟩
  exact .node h hbelow

variable {children out : List Selection}

/-- Nodes that are apart, and in which all nodes are apart. -/
def AllDistinct (nodes : List Selection) : Prop :=
  Apart nodes ∧ ∀ node ∈ nodes, Distinct node

theorem distinct_of_normalize {limit levels : Nat}
    (h : normalize limit levels children = .ok out) : AllDistinct out := by
  induction levels generalizing children out with
  | zero => cases h
  | succ levels ih =>
      rcases normalize_eq_ok h with ⟨merged, hmerged, hout⟩
      have hlabels : out.map Selection.label = merged.map Selection.label := by
        have hfolded : List.Forall₂ Eq ((foldSubtypes merged).map Selection.label)
            (out.map Selection.label) := by
          rw [List.forall₂_map_left_iff, List.forall₂_map_right_iff]
          exact hout.imp fun _ _ hnode => hnode.1.symm
        rw [List.forall₂_eq_eq_eq] at hfolded
        rw [← hfolded, labels_foldSubtypes]
      refine ⟨(apart_of_mergeAll hmerged).congr hlabels, ?_⟩
      intro node hnode
      rcases Outcome.mem_right hout hnode with ⟨child, -, -, hbelow⟩
      rcases ih hbelow with ⟨hapart, hdistinct⟩
      exact .of_children hapart hdistinct

/-- What is left of a label when definitions are taken out. -/
def extractedLabel : Label → Label
  | .fragment name type => .spread name type
  | label => label

theorem mergesWith_extractedLabel {a b : Label} (ha : a.isSpread = false)
    (hb : b.isSpread = false) :
    (extractedLabel a).mergesWith (extractedLabel b) = a.mergesWith b := by
  cases a <;> cases b <;> simp_all [extractedLabel, Label.mergesWith, Label.isSpread]

theorem labels_of_extraction {found last : List FragmentDefinition}
    (h : Extraction found children out last) :
    out.map Selection.label = children.map fun child => extractedLabel child.label := by
  induction h with
  | nil => rfl
  | keep hlabel _ _ _ ih =>
      rw [List.map_cons, List.map_cons, ih]
      refine congrArg (· :: _) ?_
      unfold extractedLabel
      split
      · next hfragment => exact absurd hfragment (hlabel _ _)
      · rfl
  | define _ _ _ _ ih =>
      rw [List.map_cons, List.map_cons, ih]
      rfl

/-- Without spreads before, a spread that is left behind merges with none but those of its name. -/
theorem apart_of_extraction {found last : List FragmentDefinition}
    (h : Extraction found children out last) (hfree : ∀ child ∈ children, SpreadFree child)
    (hapart : Apart children) : Apart out := by
  unfold Apart
  rw [labels_of_extraction h, List.pairwise_map]
  refine (List.pairwise_map.1 hapart).imp_of_mem ?_
  intro a b ha hb hab
  rw [mergesWith_extractedLabel (hfree a ha).holds (hfree b hb).holds]
  exact hab

theorem distinct_of_extraction {found last : List FragmentDefinition}
    (h : Extraction found children out last) (hfree : ∀ child ∈ children, SpreadFree child)
    (hd : ∀ child ∈ children, Distinct child) : ∀ node ∈ out, Distinct node := by
  induction h with
  | nil => nofun
  | keep _ hbelow _ ihBelow ihRest =>
      rcases List.forall_mem_cons.1 hfree with ⟨hfreeNode, hfreeRest⟩
      rcases List.forall_mem_cons.1 hd with ⟨hnode, hrest⟩
      have hapart := apart_of_extraction hbelow hfreeNode.children hnode.apart
      have hchildren := ihBelow hfreeNode.children hnode.children
      exact List.forall_mem_cons.2 ⟨.node hapart hchildren, ihRest hfreeRest hrest⟩
  | define _ _ _ _ ihRest =>
      have hrest := ihRest (List.forall_mem_cons.1 hfree).2 (List.forall_mem_cons.1 hd).2
      exact List.forall_mem_cons.2 ⟨.node apart_nil nofun, hrest⟩

/-- A spread is added only where none merges with it. -/
theorem allDistinct_spread (fragment : FragmentDefinition) (hd : AllDistinct children) :
    AllDistinct (spread fragment children) := by
  refine ⟨?_, ?_⟩
  · have hkept : ∀ p : Selection → Bool, Apart (children.filter p) := fun p =>
      hd.1.sublist (List.filter_sublist.map Selection.label)
    unfold spread
    dsimp only
    split
    · exact hkept _
    · next hnone =>
        refine (hkept _).push fun other hother => ?_
        have hnot := mt List.any_eq_true.2 hnone
        exact Bool.eq_false_iff.2 fun hm => hnot ⟨other, hother, hm⟩
  · intro node hnode
    rcases mem_spread hnode with hnode | rfl
    · exact hd.2 node hnode
    · exact .node apart_nil nofun

theorem distinct_substitute (fragments : List FragmentDefinition) {node : Selection}
    (h : Distinct node) : Distinct (substitute fragments node) := by
  induction node with
  | node label children ih =>
      rw [substitute, substituteAll_eq_map]
      have hlabels : (children.map (substitute fragments)).map Selection.label =
          children.map Selection.label := by
        rw [List.map_map]
        exact List.map_congr_left fun child _ => label_substitute fragments child
      have hchildren : AllDistinct (children.map (substitute fragments)) := by
        refine ⟨h.apart.congr hlabels, ?_⟩
        intro child hchild
        rcases List.mem_map.1 hchild with ⟨c, hc, rfl⟩
        exact ih c hc (h.children c hc)
      have hspread : AllDistinct
          (spreadAll fragments label (children.map (substitute fragments))) := by
        refine spreadAll_induction hchildren ?_
        intro _ fragment _ _ _ hfound
        exact allDistinct_spread fragment hfound
      exact .node hspread.1 hspread.2

theorem labels_elideAll (children : List Selection) :
    List.Sublist ((elideAll children).map Selection.label) (children.map Selection.label) := by
  induction children with
  | nil => exact List.Sublist.refl _
  | cons child rest ih =>
      rw [elideAll, List.map_cons]
      split
      · exact ih.cons _
      · rw [List.map_cons, label_elide]
        exact ih.cons_cons _

theorem distinct_elide {node : Selection} (h : Distinct node) : Distinct (elide node) := by
  induction node with
  | node label children ih =>
      rw [elide]
      refine .node (h.apart.sublist (labels_elideAll children)) ?_
      intro child hchild
      rcases mem_elideAll.1 hchild with ⟨c, hc, rfl, -⟩
      exact ih c hc (h.children c hc)

theorem allDistinct_elideAll (hd : AllDistinct children) : AllDistinct (elideAll children) := by
  refine ⟨hd.1.sublist (labels_elideAll children), ?_⟩
  intro node hnode
  rcases mem_elideAll.1 hnode with ⟨child, hchild, rfl, -⟩
  exact distinct_elide (hd.2 child hchild)

/-- No selection of a pruned query repeats anything. -/
theorem distinct_of_prune {limit : Nat} {tree : Unpruned} {pruned : Pruned}
    (h : tree.root.prune limit = .ok pruned) :
    Distinct pruned.root ∧ ∀ f ∈ pruned.fragments, AllDistinct f.children := by
  rcases prune_eq_ok h with ⟨children, nodes, found, fragments, p⟩
  refine ⟨?_, ?_⟩
  · have hchildren := distinct_of_normalize p.normal
    have hchildrenFree := every_of_normalize p.normal tree.spreadFree.children
    have hapart := apart_of_extraction p.extracted hchildrenFree hchildren.1
    have hnodes := distinct_of_extraction p.extracted hchildrenFree hchildren.2
    rw [p.root]
    exact distinct_elide (distinct_substitute fragments (.node hapart hnodes))
  · intro f hf
    rcases Outcome.mem_right p.fragmentsElided hf with ⟨g, hg, -, -, hchildren, -⟩
    rcases Outcome.mem_right p.fragmentsNormal hg with ⟨k, -, -, -, hnormal⟩
    rw [hchildren]
    exact allDistinct_elideAll (distinct_of_normalize hnormal)

end Selection

end GraphQuery
