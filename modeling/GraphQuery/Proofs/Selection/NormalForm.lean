import GraphQuery.Proofs.Selection.Conflicts

/-!
# Selection.NormalForm — one pass reaches the normal form

Merging leaves no two nodes of a level that merge, and folding leaves no field of a subtype that is
selected beside the subtype. What comes to a field from subtypes is below it, and so at a level that
is still to be gone through. The passes after the normal form only take nodes away and put spreads
in, neither of which brings work back.

- `Selection.Folded` : no subtype selects a field that stands beside it
- `Selection.folded_of_normalize` : a level in normal form is folded
- `Selection.mergeAll_of_apart`, `Selection.foldSubtypes_of_folded` : there is nothing left to do
- `Selection.normalize_again` : the normal form is its own normal form
- `Selection.Tidy`, `Selection.Thins`, `Selection.Tidy.thin` : what nodes keep when some go and
  spreads come
- `Selection.tidy_of_prune` : all levels of pruned queries
-/

set_option autoImplicit false

namespace GraphQuery

namespace Label

variable {label : Label}

theorem isSpread_of_isField (h : label.isField = true) : label.isSpread = false := by
  cases label <;> first | rfl | cases h

theorem isSubtype_of_isSpread (h : label.isSpread = true) : label.isSubtype = false := by
  cases label <;> first | rfl | cases h

end Label

namespace Selection

variable {nodes others children merged out : List Selection} {limit levels : Nat}

/-! ## Levels that are merged and folded -/

/-- No field of a subtype is selected beside the subtype as well. -/
def Folded (nodes : List Selection) : Prop :=
  ∀ subtype ∈ nodes, subtype.label.isSubtype = true →
    ∀ node ∈ subtype.children, ∀ field ∈ nodes, ¬ Accepts node field

theorem mergeInto_of_none {child : Selection}
    (h : ∀ other ∈ merged, other.label.mergesWith child.label = false) :
    mergeInto merged child = .ok (merged ++ [child]) := by
  induction merged with
  | nil => rfl
  | cons other rest ih =>
      rcases List.forall_mem_cons.1 h with ⟨hother, hrest⟩
      rw [mergeInto, if_neg (by simp [hother]), ih hrest]
      rfl

/-- Merging leaves nodes as they are of which no two merge. -/
theorem mergeAll_of_apart (h : Apart nodes) : mergeAll nodes = .ok nodes := by
  -- Every node is put behind those before it.
  have hall : ∀ rest done, Apart (done ++ rest) →
      rest.foldlM mergeInto done = .ok (done ++ rest) := by
    intro rest
    induction rest with
    | nil =>
        intro done _
        rw [List.append_nil]
        rfl
    | cons node rest ih =>
        intro done hapart
        have hnone : ∀ other ∈ done, other.label.mergesWith node.label = false := by
          intro other hother
          have hpairs := hapart
          rw [Apart, List.map_append, List.pairwise_append] at hpairs
          exact hpairs.2.2 _ (List.mem_map_of_mem hother) _ List.mem_cons_self
        rw [List.foldlM_cons, mergeInto_of_none hnone]
        have hassoc : done ++ node :: rest = done ++ [node] ++ rest := by simp
        rw [hassoc] at hapart ⊢
        exact ih (done ++ [node]) hapart
  exact hall nodes [] h

theorem keepUnselected_of_folded (h : Folded nodes) {node : Selection} (hnode : node ∈ nodes) :
    keepUnselected nodes node = node := by
  rcases node with ⟨label, children⟩
  rw [keepUnselected]
  split
  · next hsubtype =>
      have hall : ∀ g ∈ children, (!selectedBy nodes g) = true := by
        intro g hg
        rw [Bool.not_eq_true', Bool.eq_false_iff]
        intro hselected
        rcases selectedBy_iff.1 hselected with ⟨field, hfield, haccepts⟩
        exact h _ hnode hsubtype g hg field hfield haccepts
      rw [List.filter_eq_self.2 hall]
  · rfl

/-- Folding leaves nodes as they are when none has a field to fold. -/
theorem foldSubtypes_of_folded (h : Folded nodes) : foldSubtypes nodes = nodes := by
  have hnone : selectedElsewhere nodes = [] := by
    rw [List.eq_nil_iff_forall_not_mem]
    intro node hnode
    rcases mem_selectedElsewhere.1 hnode with ⟨subtype, hsubtype, his, hin, hselected⟩
    rcases selectedBy_iff.1 hselected with ⟨field, hfield, haccepts⟩
    exact h subtype hsubtype his node hin field hfield haccepts
  rw [foldSubtypes, hnone, List.foldl_nil]
  exact (List.map_congr_left fun node hnode => keepUnselected_of_folded h hnode).trans
    (List.map_id nodes)

/-! ## Normal forms -/

theorem label_of_normalize (h : normalize limit levels children = .ok out) {node : Selection}
    (hnode : node ∈ out) : ∃ child ∈ children, node.label = child.label := by
  cases levels with
  | zero => cases h
  | succ levels =>
      rcases exists_source_of_normalize h hnode with ⟨child, hchild, hlabel, -⟩
      exact ⟨child, hchild, hlabel⟩

/-- Selecting the same is up to labels. -/
theorem Accepts.congr {node field node' field' : Selection} (h : Accepts node field)
    (hnode : node'.label = node.label) (hfield : field'.label = field.label) :
    Accepts node' field' := by
  unfold Accepts at h ⊢
  rw [hnode, hfield]
  exact h

theorem Accepts.isSpread_eq_false {node field : Selection} (h : Accepts node field) :
    node.label.isSpread = false ∧ field.label.isSpread = false := by
  rcases h with ⟨hfield, hsame⟩
  have hspread : field.label.isSpread = false := Label.isSpread_of_isField hfield
  refine ⟨?_, hspread⟩
  rw [← Label.isSpread_of_mergesWith (Label.sameSelection_iff.1 hsame).1]
  exact hspread

theorem folded_of_normalize (h : normalize limit levels children = .ok out) : Folded out := by
  cases levels with
  | zero => cases h
  | succ levels =>
      intro subtype hsubtype his node hnode field hfield haccepts
      rcases exists_source_of_normalize h hsubtype with ⟨child, -, hlabel, below, hbelow, hnormal⟩
      rcases label_of_normalize hnormal hnode with ⟨g, hg, hgLabel⟩
      rcases label_of_normalize h hfield with ⟨other, hother, hotherLabel⟩
      have hg := (hbelow g).1 hg
      rw [hlabel] at his
      cases hg with
      | child _ hmerges _ hstays =>
          -- It stayed in the subtype, so no field beside that took it.
          rw [isSubtype_of_mergesWith hmerges] at his
          exact hstays his ⟨other, hother, haccepts.congr hgLabel.symm hotherLabel.symm⟩
      | folded _ _ _ htakes _ =>
          -- Nothing comes to a subtype from another one.
          exact absurd htakes.1 (by simp [Label.isField_of_isSubtype his])

/-- The normal form is its own normal form, to the same limit. -/
theorem normalize_again (h : normalize limit levels children = .ok out) :
    normalize limit levels out = .ok out := by
  induction levels generalizing children out with
  | zero => cases h
  | succ levels ih =>
      have hmerge : mergeAll out = .ok out := mergeAll_of_apart (distinct_of_normalize h).1
      have hfold : foldSubtypes out = out := foldSubtypes_of_folded (folded_of_normalize h)
      rcases normalize_eq_ok h with ⟨merged, -, hout⟩
      rw [normalize, hmerge]
      refine Outcome.bind_eq_ok_iff.2 ⟨out, rfl, ?_⟩
      rw [hfold, Outcome.mapM_eq_ok_iff, List.forall₂_same]
      intro node hnode
      rcases Outcome.mem_right hout hnode with ⟨child, -, -, hbelow⟩
      rw [ih hbelow]
      rcases node with ⟨label, grandchildren⟩
      rfl

/-! ## Levels that lose nodes -/

/-- A level, and all levels below it, as the normal form has them, where spreads do not count. -/
inductive Tidy : List Selection → Prop where
  | of {nodes : List Selection} :
      Apart (nodes.filter fun node => !node.label.isSpread) → Folded nodes →
      (∀ node ∈ nodes, Tidy node.children) → Tidy nodes

theorem Tidy.apart (h : Tidy nodes) :
    Apart (nodes.filter fun node => !node.label.isSpread) := by
  cases h with
  | of h _ _ => exact h

theorem Tidy.folded (h : Tidy nodes) : Folded nodes := by
  cases h with
  | of _ h _ => exact h

theorem tidy_nil : Tidy [] :=
  .of apart_nil nofun nofun

theorem tidy_of_normalize (h : normalize limit levels children = .ok out) : Tidy out := by
  induction levels generalizing children out with
  | zero => cases h
  | succ levels ih =>
      have hapart := (distinct_of_normalize h).1
      refine .of (hapart.sublist (List.filter_sublist.map _)) (folded_of_normalize h) ?_
      intro node hnode
      rcases exists_source_of_normalize h hnode with ⟨child, -, -, below, -, hnormal⟩
      exact ih hnormal

/-- Some nodes go, at all levels, and spreads come between the others. -/
inductive Thins : List Selection → List Selection → Prop where
  | nil : Thins [] []
  | keep {label : Label} {children below nodes others : List Selection} :
      Thins children below → Thins nodes others →
      Thins (.node label children :: nodes) (.node label below :: others)
  | drop {node : Selection} {nodes others : List Selection} :
      Thins nodes others → Thins (node :: nodes) others
  | spread {name : String} {type : GraphType} {nodes others : List Selection} :
      Thins nodes others → Thins nodes (.node (.spread name type) [] :: others)

namespace Thins

theorem exists_mem (h : Thins nodes others) {node : Selection} (hnode : node ∈ others) :
    (node.label.isSpread = true ∧ node.children = []) ∨
      ∃ old ∈ nodes, node.label = old.label ∧ Thins old.children node.children := by
  induction h with
  | nil => cases hnode
  | keep hbelow _ _ ih =>
      rcases List.mem_cons.1 hnode with rfl | hnode
      · exact .inr ⟨_, List.mem_cons_self, rfl, hbelow⟩
      · exact (ih hnode).imp_right fun ⟨old, hold, hrest⟩ =>
          ⟨old, List.mem_cons_of_mem _ hold, hrest⟩
  | drop _ ih =>
      exact (ih hnode).imp_right fun ⟨old, hold, hrest⟩ =>
        ⟨old, List.mem_cons_of_mem _ hold, hrest⟩
  | spread _ ih =>
      rcases List.mem_cons.1 hnode with rfl | hnode
      · exact .inl ⟨rfl, rfl⟩
      · exact ih hnode

theorem labels (h : Thins nodes others) :
    List.Sublist ((others.filter fun node => !node.label.isSpread).map Selection.label)
      ((nodes.filter fun node => !node.label.isSpread).map Selection.label) := by
  induction h with
  | nil => exact List.Sublist.refl _
  | @keep label _ _ _ _ _ _ _ ih =>
      cases hspread : label.isSpread with
      | true => simpa [List.filter_cons, Selection.label, hspread] using ih
      | false => simpa [List.filter_cons, Selection.label, hspread] using ih
  | @drop node _ _ _ ih =>
      cases hspread : node.label.isSpread with
      | true => simpa [List.filter_cons, hspread] using ih
      | false => simpa [List.filter_cons, hspread] using ih.cons _
  | spread _ ih => simpa [List.filter_cons, Selection.label, Label.isSpread] using ih

/-- Nodes that are filtered thin out. -/
theorem filter (h : Thins nodes others) (p : Selection → Bool) :
    Thins nodes (others.filter p) := by
  induction h with
  | nil => exact .nil
  | keep hbelow _ _ ih =>
      rw [List.filter_cons]
      split
      · exact .keep hbelow ih
      · exact .drop ih
  | drop _ ih => exact .drop ih
  | spread _ ih =>
      rw [List.filter_cons]
      split
      · exact .spread ih
      · exact ih

theorem push (h : Thins nodes others) (fragment : FragmentDefinition) :
    Thins nodes (others ++ [spreadNode fragment]) := by
  induction h with
  | nil => exact .spread .nil
  | keep hbelow _ _ ih => exact .keep hbelow ih
  | drop _ ih => exact .drop ih
  | spread _ ih => exact .spread ih

theorem spreadIn (h : Thins nodes others) (fragment : FragmentDefinition) :
    Thins nodes (Selection.spread fragment others) := by
  unfold Selection.spread
  dsimp only
  split
  · exact h.filter _
  · exact (h.filter _).push fragment

end Thins

theorem thins_map {f : Selection → Selection} (hlabel : ∀ node, (f node).label = node.label)
    (h : ∀ node ∈ nodes, Thins node.children (f node).children) : Thins nodes (nodes.map f) := by
  induction nodes with
  | nil => exact .nil
  | cons node rest ih =>
      rcases List.forall_mem_cons.1 h with ⟨hnode, hrest⟩
      rw [List.map_cons]
      rcases node with ⟨label, children⟩
      have hsame := hlabel (.node label children)
      cases hf : f (.node label children) with
      | node label' below =>
          rw [hf] at hsame hnode
          obtain rfl : label' = label := hsame
          exact .keep hnode (ih hrest)

/-! ## Passes that thin levels out -/

theorem thins_of_extraction {found last : List FragmentDefinition}
    (h : Extraction found children out last) : Thins children out := by
  induction h with
  | nil => exact .nil
  | keep _ _ _ ihBelow ihRest => exact .keep ihBelow ihRest
  | define _ _ _ _ ihRest => exact .spread (.drop ihRest)

theorem thins_substitute (fragments : List FragmentDefinition) (node : Selection) :
    Thins node.children (substitute fragments node).children := by
  induction node with
  | node label children ih =>
      rw [substitute, substituteAll_eq_map]
      refine spreadAll_induction (thins_map (label_substitute fragments) ih) ?_
      intro _ fragment _ _ found hfound
      exact hfound.spreadIn fragment

theorem thins_elideAll (h : ∀ child ∈ children, Thins child.children (elide child).children) :
    Thins children (elideAll children) := by
  induction children with
  | nil => exact .nil
  | cons child rest ih =>
      rcases List.forall_mem_cons.1 h with ⟨hchild, hrest⟩
      rw [elideAll]
      split
      · exact .drop (ih hrest)
      · rcases child with ⟨label, grandchildren⟩
        rw [elide] at hchild ⊢
        exact .keep hchild (ih hrest)

theorem thins_elide (node : Selection) : Thins node.children (elide node).children := by
  induction node with
  | node label children ih => exact thins_elideAll ih

theorem Folded.thin (h : Folded nodes) (hthin : Thins nodes others) : Folded others := by
  intro subtype hsubtype his node hnode field hfield haccepts
  rcases haccepts.isSpread_eq_false with ⟨hnodeSpread, hfieldSpread⟩
  -- A subtype, a field in it and one beside it are no spreads, so they were there before.
  rcases hthin.exists_mem hsubtype with ⟨hspread, -⟩ | ⟨old, hold, hlabel, hbelow⟩
  · exact absurd his (by simp [Label.isSubtype_of_isSpread hspread])
  · rcases hbelow.exists_mem hnode with ⟨hspread, -⟩ | ⟨oldNode, holdNode, hnodeLabel, -⟩
    · simp [hnodeSpread] at hspread
    · rcases hthin.exists_mem hfield with ⟨hspread, -⟩ | ⟨oldField, holdField, hfieldLabel, -⟩
      · simp [hfieldSpread] at hspread
      · rw [hlabel] at his
        exact h old hold his oldNode holdNode oldField holdField
          (haccepts.congr hnodeLabel.symm hfieldLabel.symm)

/-- What stays where nodes go and spreads come: nothing that merges is brought together, and no
field is put beside a subtype. -/
theorem Tidy.thin (h : Tidy nodes) (hthin : Thins nodes others) : Tidy others := by
  induction h generalizing others with
  | of hapart hfolded _ ih =>
      refine .of (hapart.sublist hthin.labels) (hfolded.thin hthin) ?_
      intro node hnode
      rcases hthin.exists_mem hnode with ⟨-, hnone⟩ | ⟨old, hold, -, hchildren⟩
      · rw [hnone]
        exact tidy_nil
      · exact ih old hold hchildren

/-! ## All passes -/

/-- No level of a pruned query repeats anything but spreads, or selects beside a subtype what it
selects in it. -/
theorem tidy_of_prune {tree : Selection} {pruned : Pruned} (h : tree.prune limit = .ok pruned) :
    Tidy pruned.root.children ∧ ∀ f ∈ pruned.fragments, Tidy f.children := by
  rcases prune_eq_ok h with ⟨children, nodes, found, fragments, p⟩
  refine ⟨?_, ?_⟩
  · have hnodes := (tidy_of_normalize p.normal).thin (thins_of_extraction p.extracted)
    have hspread := hnodes.thin (thins_substitute fragments (.node tree.label nodes))
    rw [p.root]
    exact hspread.thin (thins_elide _)
  · intro f hf
    rcases Outcome.mem_right p.fragmentsElided hf with ⟨g, hg, -, -, hchildren, -⟩
    rcases Outcome.mem_right p.fragmentsNormal hg with ⟨k, -, -, -, hnormal⟩
    rw [hchildren]
    exact (tidy_of_normalize hnormal).thin (thins_elideAll fun child _ => thins_elide child)

end Selection

end GraphQuery
