import GraphQuery.Proofs.Selection.Conflicts

/-!
# Selection.Repetition — nodes that stand there once more

A node that follows itself is merged into what the first one has become, and all that is below it is
there already. So whatever pruning makes of a tree, it makes of the tree in which nodes are repeated
behind themselves, at any level.

- `Selection.Repeats` : a list and the same list with some of its nodes repeated
- `Selection.RepeatsBelow` : a node and the same node with repetitions below it
- `Selection.agree_mergeAll_of_repeats`, `Selection.repeatsBelow_foldedInto` : merging and folding
- `Selection.normalize_eq_of_repeats` : normal forms
- `Selection.prune_eq_of_repeatsBelow` : pruning
-/

set_option autoImplicit false

namespace GraphQuery

namespace Selection

/-! ## Repetitions -/

/-- The nodes of the first list stand in the second in their order, with repetitions below them, and
all that is between them and behind them repeats what stands before it. -/
inductive Repeats : List Selection → List Selection → Prop where
  | nil : Repeats [] []
  | node {xs ys children below : List Selection} (label : Label) :
      Repeats xs ys → Repeats children below →
        Repeats (xs ++ [.node label children]) (ys ++ [.node label below])
  | again {xs ys : List Selection} {node : Selection} :
      Repeats xs ys → node ∈ ys → Repeats xs (ys ++ [node])

/-- The second node is the first one with repetitions below it. -/
structure RepeatsBelow (s t : Selection) : Prop where
  label : s.label = t.label
  children : Repeats s.children t.children

variable {s t node : Selection} {xs ys as bs nodes : List Selection}

theorem Repeats.push (h : Repeats xs ys) (hst : RepeatsBelow s t) :
    Repeats (xs ++ [s]) (ys ++ [t]) := by
  rcases s with ⟨label, children⟩
  rcases t with ⟨_, below⟩
  rcases hst with ⟨rfl, hchildren⟩
  exact .node label h hchildren

theorem Repeats.againAll (h : Repeats xs ys) (hnodes : nodes ⊆ ys) : Repeats xs (ys ++ nodes) := by
  induction nodes generalizing ys with
  | nil => simpa using h
  | cons node nodes ih =>
      rcases List.cons_subset.1 hnodes with ⟨hnode, hrest⟩
      rw [List.append_cons]
      exact ih (h.again hnode) (List.subset_append_of_subset_left _ hrest)

theorem Repeats.append (h : Repeats xs ys) (h' : Repeats as bs) :
    Repeats (xs ++ as) (ys ++ bs) := by
  -- The second list grows at its end, as the lists that are repeated do.
  induction h' with
  | nil => simpa using h
  | node label _ hbelow ih =>
      rw [← List.append_assoc, ← List.append_assoc]
      exact ih.node label hbelow
  | again _ hnode ih =>
      rw [← List.append_assoc]
      exact ih.again (List.mem_append_right _ hnode)

theorem Repeats.of_forall₂ (h : List.Forall₂ RepeatsBelow xs ys) : Repeats xs ys := by
  induction h with
  | nil => exact .nil
  | cons hst _ ih => exact (Repeats.nil.push hst).append ih

theorem RepeatsBelow.refl (s : Selection) : RepeatsBelow s s := by
  induction s with
  | node label children ih => exact ⟨rfl, .of_forall₂ (List.forall₂_same.2 ih)⟩

theorem Repeats.refl (xs : List Selection) : Repeats xs xs :=
  .of_forall₂ (List.forall₂_same.2 fun node _ => .refl node)

/-- What is decided by labels is decided alike for the nodes of both lists. -/
theorem Repeats.filter {p q : Selection → Bool} (h : Repeats xs ys)
    (hpq : ∀ s t, s.label = t.label → p s = q t) : Repeats (xs.filter p) (ys.filter q) := by
  induction h with
  | nil => exact .nil
  | @node _ _ children below label _ hbelow ih _ =>
      have hdecided : p (.node label children) = q (.node label below) := hpq _ _ rfl
      rw [List.filter_append, List.filter_append, List.filter_singleton, List.filter_singleton,
        hdecided]
      cases q (.node label below) with
      | true => exact ih.node label hbelow
      | false => simpa using ih
  | @again _ ys node _ hnode ih =>
      rw [List.filter_append, List.filter_singleton]
      cases hkept : q node with
      | true => exact ih.again (List.mem_filter.2 ⟨hnode, hkept⟩)
      | false => simpa using ih

/-- The children of a node that is repeated are repeated. -/
theorem Repeats.flatMap_children (h : Repeats xs ys) :
    Repeats (xs.flatMap Selection.children) (ys.flatMap Selection.children) := by
  induction h with
  | nil => exact .nil
  | node label _ hbelow ih _ =>
      rw [List.flatMap_append, List.flatMap_append, List.flatMap_singleton,
        List.flatMap_singleton]
      exact ih.append hbelow
  | again _ hnode ih =>
      rw [List.flatMap_append, List.flatMap_singleton]
      exact ih.againAll fun child hchild => List.mem_flatMap.2 ⟨_, hnode, hchild⟩

theorem Repeats.flatMap {f g : Selection → List Selection} (h : List.Forall₂ RepeatsBelow xs ys)
    (hfg : ∀ s t, RepeatsBelow s t → Repeats (f s) (g t)) :
    Repeats (xs.flatMap f) (ys.flatMap g) := by
  induction h with
  | nil => exact .nil
  | cons hst _ ih =>
      rw [List.flatMap_cons, List.flatMap_cons]
      exact (hfg _ _ hst).append ih

/-! ## Merging -/

theorem labels_eq_of_forall₂ (h : List.Forall₂ RepeatsBelow xs ys) :
    ys.map Selection.label = xs.map Selection.label := by
  induction h with
  | nil => rfl
  | cons hst _ ih => rw [List.map_cons, List.map_cons, hst.label, ih]

theorem agree_absorb_of_repeats {s' t' : Selection} (hst : RepeatsBelow s t)
    (hst' : RepeatsBelow s' t') :
    Outcome.Agree Eq RepeatsBelow (s.absorb s') (t.absorb t') := by
  unfold absorb
  rw [hst.label, hst'.label]
  split
  · exact .error rfl
  · split
    · exact .error rfl
    · exact .ok ⟨rfl, hst.children.append hst'.children⟩

/-- A node is merged as the node with repetitions below it is. -/
theorem agree_mergeInto_of_repeats (h : List.Forall₂ RepeatsBelow xs ys) (hst : RepeatsBelow s t) :
    Outcome.Agree Eq (List.Forall₂ RepeatsBelow) (mergeInto xs s) (mergeInto ys t) := by
  induction h with
  | nil => exact .ok (.cons hst .nil)
  | @cons x y _ _ hxy hrest ih =>
      rw [mergeInto, mergeInto, hxy.label, hst.label]
      split
      · refine (agree_absorb_of_repeats hxy hst).bind fun _ _ habsorbed => ?_
        exact .ok (.cons habsorbed hrest)
      · exact ih.bind fun _ _ hmerged => .ok (.cons hxy hmerged)

/-- A node that one of the merged nodes stands for is merged into that one, where all that is below
it is repeated. -/
theorem exists_mergeInto_again (h : List.Forall₂ RepeatsBelow xs ys) (hapart : Apart ys)
    (ht : t ∈ ys) (hsame : t.label.sameSelection node.label = true)
    (hchildren : node.children ⊆ t.children) :
    ∃ merged, mergeInto ys node = .ok merged ∧ List.Forall₂ RepeatsBelow xs merged := by
  induction h with
  | nil => cases ht
  | @cons x y xs ys hxy hrest ih =>
      rw [mergeInto]
      by_cases hmerges : y.label.mergesWith node.label = true
      · -- Of nodes that are apart, the first that it merges with is the one that stands for it.
        obtain rfl : t = y := hapart.eq ht List.mem_cons_self
          (Label.mergesWith_trans (Label.sameSelection_iff.1 hsame).1
            (Label.mergesWith_symm hmerges))
        rcases Label.sameSelection_iff.1 hsame with ⟨-, htype, hsource⟩
        rw [if_pos hmerges, absorb, if_neg (by simp [htype]), if_neg (by simp [hsource])]
        exact ⟨_, rfl, .cons ⟨hxy.label, hxy.children.againAll hchildren⟩ hrest⟩
      · have htail : t ∈ ys := by
          rcases List.mem_cons.1 ht with rfl | ht
          · exact absurd (Label.sameSelection_iff.1 hsame).1 hmerges
          · exact ht
        rcases ih (hapart.sublist (List.sublist_cons_self _ _)) htail with
          ⟨merged, hmerged, hrepeats⟩
        rw [if_neg hmerges, hmerged]
        exact ⟨_, rfl, .cons hxy hrepeats⟩

theorem mergeAll_concat (nodes : List Selection) (node : Selection) :
    mergeAll (nodes ++ [node]) = mergeAll nodes >>= fun merged => mergeInto merged node := by
  rw [mergeAll, List.foldlM_append]
  simp only [List.foldlM_cons, List.foldlM_nil, bind_pure]
  rfl

/-- Merging fails alike with the repetitions and without, or leaves repetitions below its nodes
only. -/
theorem agree_mergeAll_of_repeats (h : Repeats xs ys) :
    Outcome.Agree Eq (List.Forall₂ RepeatsBelow) (mergeAll xs) (mergeAll ys) := by
  induction h with
  | nil => exact .ok .nil
  | @node _ _ children below label _ hbelow ih _ =>
      have hst : RepeatsBelow (.node label children) (.node label below) := ⟨rfl, hbelow⟩
      rw [mergeAll_concat, mergeAll_concat]
      exact ih.bind fun _ _ hmerged => agree_mergeInto_of_repeats hmerged hst
  | @again xs ys node _ hnode ih =>
      -- On one side nothing comes after the merging, on the other one more node.
      have hdone := ih.imp (T := fun merged merged' => mergeAll ys = .ok merged' ∧
        List.Forall₂ RepeatsBelow merged merged') fun _ _ _ hys hmerged => ⟨hys, hmerged⟩
      rw [mergeAll_concat, ← bind_pure (mergeAll xs)]
      refine hdone.bind fun merged merged' ⟨hys, hmerged⟩ => ?_
      -- What the node was merged into before stands for it.
      rcases (mergeAll_merges hys).kept node hnode with ⟨t, ht, hsame, hsub⟩
      rcases exists_mergeInto_again hmerged (apart_of_mergeAll hys) ht hsame hsub with
        ⟨again, hagain, hrepeats⟩
      rw [hagain]
      exact .ok hrepeats

/-! ## Folding subtypes -/

theorem selectedBy_eq_of_labels (h : ys.map Selection.label = xs.map Selection.label)
    (hst : s.label = t.label) : selectedBy xs s = selectedBy ys t := by
  have hany : ∀ nodes : List Selection,
      (nodes.any fun field => field.label.isField && field.label.sameSelection t.label) =
        (nodes.map Selection.label).any fun label => label.isField &&
          label.sameSelection t.label := by
    intro nodes
    rw [List.any_map]
    rfl
  unfold selectedBy
  rw [hst, hany xs, hany ys, h]

theorem repeats_keepUnselected (h : List.Forall₂ RepeatsBelow xs ys) (hst : RepeatsBelow s t) :
    Repeats (keepUnselected xs s).children (keepUnselected ys t).children := by
  rcases s with ⟨label, children⟩
  rcases t with ⟨label', below⟩
  rcases hst with ⟨hlabel, hbelow⟩
  obtain rfl : label = label' := hlabel
  rw [keepUnselected, keepUnselected]
  split
  · exact hbelow.filter fun _ _ hlabel =>
      congrArg not (selectedBy_eq_of_labels (labels_eq_of_forall₂ h) hlabel)
  · exact hbelow

theorem repeats_selectedElsewhere (h : List.Forall₂ RepeatsBelow xs ys) :
    Repeats (selectedElsewhere xs) (selectedElsewhere ys) := by
  refine .flatMap h fun s t hst => ?_
  rw [hst.label]
  split
  · exact hst.children.filter fun _ _ hlabel =>
      selectedBy_eq_of_labels (labels_eq_of_forall₂ h) hlabel
  · exact .nil

theorem repeatsBelow_foldedInto (h : List.Forall₂ RepeatsBelow xs ys) (hst : RepeatsBelow s t) :
    RepeatsBelow (foldedInto xs s) (foldedInto ys t) := by
  have hlabel : (keepUnselected xs s).label = (keepUnselected ys t).label := by
    rw [label_keepUnselected, label_keepUnselected, hst.label]
  have htaken := (repeats_selectedElsewhere h).filter (p := accepts (keepUnselected xs s))
    (q := accepts (keepUnselected ys t)) fun _ _ hnode => by
      unfold accepts
      rw [hlabel, hnode]
  exact ⟨hlabel, (repeats_keepUnselected h hst).append htaken.flatMap_children⟩

theorem repeatsBelow_foldSubtypes (h : List.Forall₂ RepeatsBelow xs ys) (hxs : Apart xs) :
    List.Forall₂ RepeatsBelow (foldSubtypes xs) (foldSubtypes ys) := by
  -- Nodes that are apart are folded one by one, so that they correspond afterwards.
  have hys : Apart ys := hxs.congr (labels_eq_of_forall₂ h)
  rw [foldSubtypes_eq_map hxs, foldSubtypes_eq_map hys, List.forall₂_map_left_iff,
    List.forall₂_map_right_iff]
  exact h.imp fun _ _ hst => repeatsBelow_foldedInto h hst

/-! ## All levels -/

/-- With the repetitions and without, there is the same normal form, or the same failure. -/
theorem normalize_eq_of_repeats {limit levels : Nat} (h : Repeats xs ys) :
    normalize limit levels xs = normalize limit levels ys := by
  induction levels generalizing xs ys with
  | zero => rfl
  | succ levels ih =>
      rw [normalize, normalize]
      refine (agree_mergeAll_of_repeats h).bind_eq fun merged merged' hxs hmerged => ?_
      refine Outcome.mapM_eq_of_forall₂
        (repeatsBelow_foldSubtypes hmerged (apart_of_mergeAll hxs)) fun s t hst => ?_
      rw [hst.label, ih hst.children]

/-- Pruning makes the same of a tree with repetitions as of the tree without them, or fails
alike. -/
theorem prune_eq_of_repeatsBelow {limit : Nat} (h : RepeatsBelow s t) :
    s.prune limit = t.prune limit := by
  rw [prune, prune, h.label, normalize_eq_of_repeats h.children]

end Selection

end GraphQuery
