import GraphQuery.Proofs.Selection.Distinct

/-!
# Selection.Conflicts — nodes that cannot be one

Pruning brings nodes together: those below nodes that merge, and those below a field that stands
both beside a subtype and in it. Where two nodes that are brought together merge but select
something different, there is no normal form.

- `Selection.foldSubtypes_eq_map` : what folding makes of nodes of which no two merge
- `Selection.Below`, `Selection.mem_foldedInto_iff_below` : what pruning puts below a node
- `Selection.exists_source_of_normalize`, `Selection.exists_image_of_normalize` : normal form, level
  by level
- `Selection.Together` : nodes that pruning brings together
- `Selection.sameSelection_of_together` : in a normal form, such nodes select the same if they merge
- `Selection.Conflict` : nodes that merge, but do not select the same
- `Selection.not_conflict_of_normalize`, `Selection.conflict_of_normalize` : where normal form fails
-/

set_option autoImplicit false

namespace GraphQuery

namespace Selection

variable {children merged out : List Selection} {limit : Nat}

/-! ## Folding nodes that are apart -/

/-- Whether a field takes what is below a node. -/
def accepts (field node : Selection) : Bool :=
  field.label.isField && field.label.sameSelection node.label

theorem accepts_iff {field node : Selection} : accepts field node = true ↔ Accepts node field := by
  simp [accepts, Accepts]

/-- A field with the children of the nodes that it accepts behind its own. -/
def grownBy (nodes : List Selection) (field : Selection) : Selection :=
  .node field.label (field.children ++ (nodes.filter (accepts field)).flatMap Selection.children)

theorem grownBy_nil (field : Selection) : grownBy [] field = field := by
  rcases field with ⟨label, children⟩
  simp [grownBy, Selection.label, Selection.children]

theorem grownBy_of_accepts {field node : Selection} (h : accepts field node = true) :
    grownBy [node] field = .node field.label (field.children ++ node.children) := by
  simp [grownBy, h]

theorem grownBy_of_not_accepts {field node : Selection} (h : accepts field node = false) :
    grownBy [node] field = field := by
  have hnone : grownBy [node] field = grownBy [] field := by simp [grownBy, h]
  exact hnone.trans (grownBy_nil field)

theorem grownBy_grownBy (node : Selection) (rest : List Selection) (field : Selection) :
    grownBy rest (grownBy [node] field) = grownBy (node :: rest) field := by
  cases h : accepts field node with
  | false =>
      rw [grownBy_of_not_accepts h]
      simp [grownBy, h]
  | true =>
      rw [grownBy_of_accepts h]
      calc grownBy rest (.node field.label (field.children ++ node.children))
          = .node field.label ((field.children ++ node.children) ++
              (rest.filter (accepts field)).flatMap Selection.children) := rfl
        _ = grownBy (node :: rest) field := by
            rw [grownBy, List.filter_cons_of_pos h, List.flatMap_cons, List.append_assoc]

/-- Among nodes that are apart, at most one accepts a node. -/
theorem addToField_eq_map (node : Selection) {found : List Selection} (h : Apart found) :
    addToField node found = found.map (grownBy [node]) := by
  induction found with
  | nil => rfl
  | cons field rest ih =>
      have hrest : Apart rest := h.sublist (List.sublist_cons_self _ _)
      rw [addToField, List.map_cons]
      split
      · next haccepts =>
          rw [grownBy_of_accepts haccepts]
          have hothers : rest.map (grownBy [node]) = rest := by
            refine (List.map_congr_left fun other hother => ?_).trans (List.map_id rest)
            refine grownBy_of_not_accepts (Bool.eq_false_iff.2 fun hother' => ?_)
            -- It would select the same as the first node, and merge with it.
            have hsame := Label.sameSelection_trans (accepts_iff.1 haccepts).2
              (Label.sameSelection_symm (accepts_iff.1 hother').2)
            have hapart := List.rel_of_pairwise_cons h (List.mem_map_of_mem hother)
            simp [(Label.sameSelection_iff.1 hsame).1] at hapart
          rw [hothers]
      · next haccepts =>
          have hnot : accepts field node = false := by simpa [accepts] using haccepts
          rw [grownBy_of_not_accepts hnot, ih hrest]

theorem foldl_addToField_eq_map (nodes : List Selection) {found : List Selection}
    (h : Apart found) :
    nodes.foldl (fun found node => addToField node found) found = found.map (grownBy nodes) := by
  induction nodes generalizing found with
  | nil =>
      refine (List.map_id found).symm.trans ?_
      exact List.map_congr_left fun field _ => (grownBy_nil field).symm
  | cons node rest ih =>
      have hnext : Apart (addToField node found) := h.congr (labels_addToField node found)
      rw [List.foldl_cons, ih hnext, addToField_eq_map node h, List.map_map]
      exact List.map_congr_left fun field _ => grownBy_grownBy node rest field

/-- A node after folding: without what its siblings take, if it is a subtype, and with what it
takes from subtypes, if it is a field. -/
def foldedInto (siblings : List Selection) (child : Selection) : Selection :=
  grownBy (selectedElsewhere siblings) (keepUnselected siblings child)

theorem foldSubtypes_eq_map (h : Apart children) :
    foldSubtypes children = children.map (foldedInto children) := by
  have hkept : Apart (children.map (keepUnselected children)) := by
    refine h.congr ?_
    rw [List.map_map]
    exact List.map_congr_left fun child _ => label_keepUnselected children child
  rw [foldSubtypes, foldl_addToField_eq_map _ hkept, List.map_map]
  rfl

theorem mem_keepUnselected {siblings : List Selection} {child g : Selection} :
    g ∈ (keepUnselected siblings child).children ↔ g ∈ child.children ∧
      (child.label.isSubtype = true → selectedBy siblings g = false) := by
  rcases child with ⟨label, grandchildren⟩
  rw [keepUnselected]
  cases hsubtype : label.isSubtype <;> simp [Selection.label, Selection.children, hsubtype]

theorem mem_foldedInto {siblings : List Selection} {child g : Selection} :
    g ∈ (foldedInto siblings child).children ↔
      (g ∈ child.children ∧ (child.label.isSubtype = true → selectedBy siblings g = false)) ∨
        ∃ field ∈ selectedElsewhere siblings, Accepts field child ∧ g ∈ field.children := by
  have hlabel : ∀ field, accepts (keepUnselected siblings child) field = true ↔
      Accepts field child := by
    intro field
    rw [accepts_iff, Accepts, Accepts, label_keepUnselected]
  have hchildren : (foldedInto siblings child).children =
      (keepUnselected siblings child).children ++
        ((selectedElsewhere siblings).filter
          (accepts (keepUnselected siblings child))).flatMap Selection.children := rfl
  rw [hchildren, List.mem_append, mem_keepUnselected, List.mem_flatMap]
  refine or_congr_right (exists_congr fun field => ?_)
  rw [List.mem_filter, hlabel, and_assoc]

/-! ## Bringing nodes together -/

/-- Whether a node of the level takes what is below the given node, which then goes. -/
def Takes (level : Selection → Prop) (node : Selection) : Prop :=
  ∃ field, level field ∧ Accepts node field

/-- What pruning puts below a node of a level: what is below the nodes that it merges with, unless
it goes from a subtype to a field beside it, and what comes to it from subtypes. -/
inductive Below (level : Selection → Prop) (node : Selection) : Selection → Prop where
  | child {other g : Selection} :
      level other → node.label.mergesWith other.label = true → g ∈ other.children →
      (other.label.isSubtype = true → ¬ Takes level g) → Below level node g
  | folded {subtype field g : Selection} :
      level subtype → subtype.label.isSubtype = true → field ∈ subtype.children →
      Accepts field node → g ∈ field.children → Below level node g

/-- Two nodes that pruning brings together, at a level or below one of its nodes. -/
inductive Together : (Selection → Prop) → Selection → Selection → Prop where
  | here {level : Selection → Prop} {x y : Selection} : level x → level y → Together level x y
  | deeper {level : Selection → Prop} {node x y : Selection} :
      level node → Together (Below level node) x y → Together level x y

theorem mem_children_of_merges (h : mergeAll children = .ok merged) {m g : Selection}
    (hm : m ∈ merged) :
    g ∈ m.children ↔
      ∃ child ∈ children, m.label.mergesWith child.label = true ∧ g ∈ child.children := by
  have hmerges := mergeAll_merges h
  constructor
  · intro hg
    rcases hmerges.below m hm g hg with ⟨child, hchild, hsame, hg⟩
    exact ⟨child, hchild, (Label.sameSelection_iff.1 hsame).1, hg⟩
  · rintro ⟨child, hchild, hm', hg⟩
    rcases hmerges.kept child hchild with ⟨other, hother, hsame, hsub⟩
    have hmerge : m.label.mergesWith other.label = true :=
      Label.mergesWith_trans hm' (Label.mergesWith_symm (Label.sameSelection_iff.1 hsame).1)
    obtain rfl : m = other := (apart_of_mergeAll h).eq hm hother hmerge
    exact hsub hg

theorem takes_iff_selectedBy (h : mergeAll children = .ok merged) {node : Selection} :
    Takes (· ∈ children) node ↔ selectedBy merged node = true := by
  have hmerges := mergeAll_merges h
  rw [selectedBy_iff]
  constructor
  · rintro ⟨field, hfield, hisField, hsame⟩
    rcases hmerges.kept field hfield with ⟨m, hm, hkept, -⟩
    refine ⟨m, hm, ?_, Label.sameSelection_trans hkept hsame⟩
    rw [Label.isField_of_mergesWith (Label.sameSelection_iff.1 hkept).1]
    exact hisField
  · rintro ⟨m, hm, haccepts⟩
    rcases hmerges.label m hm with ⟨field, hfield, hlabel⟩
    refine ⟨field, hfield, ?_⟩
    unfold Accepts at haccepts ⊢
    rw [← hlabel]
    exact haccepts

theorem isSubtype_of_mergesWith {a b : Label} (h : a.mergesWith b = true) :
    a.isSubtype = b.isSubtype := by
  cases a <;> cases b <;> first | rfl | cases h

/-- What is below the node that stands for a child after merging and folding is what pruning puts
below the child. -/
theorem mem_foldedInto_iff_below (h : mergeAll children = .ok merged) {m node g : Selection}
    (hm : m ∈ merged) (hsame : m.label.sameSelection node.label = true) :
    g ∈ (foldedInto merged m).children ↔ Below (· ∈ children) node g := by
  have hmnode : m.label.mergesWith node.label = true := (Label.sameSelection_iff.1 hsame).1
  have haccepts : ∀ field, Accepts field m ↔ Accepts field node := by
    intro field
    unfold Accepts
    rw [Label.isField_of_mergesWith hmnode]
    refine and_congr_right fun _ => ⟨?_, Label.sameSelection_trans hsame⟩
    exact Label.sameSelection_trans (Label.sameSelection_symm hsame)
  rw [mem_foldedInto]
  constructor
  · rintro (⟨hg, hkept⟩ | ⟨field, hfield, hfieldAccepts, hg⟩)
    · rcases (mem_children_of_merges h hm).1 hg with ⟨child, hchild, hmchild, hg⟩
      refine .child hchild (Label.mergesWith_trans (Label.mergesWith_symm hmnode) hmchild) hg ?_
      intro hsubtype htakes
      have hnot := hkept ((isSubtype_of_mergesWith hmchild).trans hsubtype)
      rw [takes_iff_selectedBy h] at htakes
      simp [hnot] at htakes
    · rcases mem_selectedElsewhere.1 hfield with ⟨subtype, hsubtype, his, hin, -⟩
      rcases (mem_children_of_merges h hsubtype).1 hin with ⟨child, hchild, hmerges, hin⟩
      exact .folded hchild ((isSubtype_of_mergesWith hmerges).symm.trans his) hin
        ((haccepts field).1 hfieldAccepts) hg
  · rintro (⟨hother, hmerges, hg, hkept⟩ | ⟨hsubtype, his, hin, hfieldAccepts, hg⟩)
    · have hmother := Label.mergesWith_trans hmnode hmerges
      refine .inl ⟨(mem_children_of_merges h hm).2 ⟨_, hother, hmother, hg⟩, ?_⟩
      intro hsubtype
      have hnot := hkept ((isSubtype_of_mergesWith hmother).symm.trans hsubtype)
      rw [takes_iff_selectedBy h] at hnot
      simpa using hnot
    · -- The subtype is merged with others, which takes no field away.
      rcases (mergeAll_merges h).kept _ hsubtype with ⟨s, hs, hssame, hsub⟩
      have hssub := isSubtype_of_mergesWith (Label.sameSelection_iff.1 hssame).1
      have hmAccepts := (haccepts _).2 hfieldAccepts
      refine .inr ⟨_, mem_selectedElsewhere.2 ⟨s, hs, hssub.trans his, hsub hin, ?_⟩,
        hmAccepts, hg⟩
      exact selectedBy_iff.2 ⟨m, hm, hmAccepts⟩

/-- A node of a normal form has the label of a node before, and below it is the normal form of what
pruning puts below that node. -/
theorem exists_source_of_normalize {levels : Nat}
    (h : normalize limit (levels + 1) children = .ok out) {node : Selection} (hnode : node ∈ out) :
    ∃ child ∈ children, node.label = child.label ∧ ∃ below,
      (∀ g, g ∈ below ↔ Below (· ∈ children) child g) ∧
        normalize limit levels below = .ok node.children := by
  rcases normalize_eq_ok h with ⟨merged, hmerged, hout⟩
  rw [foldSubtypes_eq_map (apart_of_mergeAll hmerged)] at hout
  rcases Outcome.mem_right hout hnode with ⟨_, hfolded, hlabel, hbelow⟩
  rcases List.mem_map.1 hfolded with ⟨m, hm, rfl⟩
  rcases (mergeAll_merges hmerged).label m hm with ⟨child, hchild, hmLabel⟩
  have hnodeLabel := (hlabel.trans (label_keepUnselected merged m)).trans hmLabel
  refine ⟨child, hchild, hnodeLabel, _, ?_, hbelow⟩
  exact fun g => mem_foldedInto_iff_below hmerged hm (hmLabel ▸ Label.sameSelection_refl m.label)

/-- Every node has one in the normal form that selects the same, with the normal form of what
pruning puts below the node. -/
theorem exists_image_of_normalize {levels : Nat}
    (h : normalize limit (levels + 1) children = .ok out) {child : Selection}
    (hchild : child ∈ children) :
    ∃ node ∈ out, node.label.sameSelection child.label = true ∧ ∃ below,
      (∀ g, g ∈ below ↔ Below (· ∈ children) child g) ∧
        normalize limit levels below = .ok node.children := by
  rcases normalize_eq_ok h with ⟨merged, hmerged, hout⟩
  rw [foldSubtypes_eq_map (apart_of_mergeAll hmerged)] at hout
  rcases (mergeAll_merges hmerged).kept child hchild with ⟨m, hm, hsame, -⟩
  rcases Outcome.mem_left hout (List.mem_map_of_mem hm) with ⟨node, hnode, hlabel, hbelow⟩
  refine ⟨node, hnode, ?_, _, fun g => mem_foldedInto_iff_below hmerged hm hsame, hbelow⟩
  rw [hlabel.trans (label_keepUnselected merged m)]
  exact hsame

/-- In a tree that has a normal form, nodes that are brought together select the same if they
merge. -/
theorem sameSelection_of_together {level : Selection → Prop} {x y : Selection}
    (ht : Together level x y) {levels : Nat} (hlevel : level = (· ∈ children))
    (h : normalize limit levels children = .ok out) (hxy : x.label.mergesWith y.label = true) :
    x.label.sameSelection y.label = true := by
  -- Induction on the way down to the two nodes; the normal form goes down with it.
  induction ht generalizing children out levels with
  | here hx hy =>
      subst hlevel
      cases levels with
      | zero => cases h
      | succ levels =>
          rcases normalize_eq_ok h with ⟨merged, hmerged, -⟩
          exact sameSelection_of_mergeAll hmerged hx hy hxy
  | deeper hnode _ ih =>
      subst hlevel
      cases levels with
      | zero => cases h
      | succ levels =>
          rcases exists_image_of_normalize h hnode with ⟨_, -, -, below, hbelow, hnormal⟩
          exact ih (funext fun g => propext (hbelow g).symm) hnormal hxy

/-! ## Conflicts -/

/-- Two nodes that pruning brings together at or below the given ones merge, but do not select the
same. -/
def Conflict (children : List Selection) : Prop :=
  ∃ x y : Selection, Together (· ∈ children) x y ∧ x.label.mergesWith y.label = true ∧
    x.label.sameSelection y.label = false

theorem not_conflict_of_normalize {levels : Nat} (h : normalize limit levels children = .ok out) :
    ¬ Conflict children := by
  rintro ⟨x, y, htogether, hmerges, hdiffer⟩
  have hsame := sameSelection_of_together htogether rfl h hmerges
  simp [hdiffer] at hsame

theorem not_sameSelection_of_absorb {a b : Selection} {e : CompileError}
    (h : a.absorb b = .error e) : a.label.sameSelection b.label = false := by
  unfold absorb at h
  split at h
  · next htype =>
      have hdiffer : a.label.sameType b.label = false := by simpa using htype
      simp [Label.sameSelection, hdiffer]
  · split at h
    · next hsource =>
        have hdiffer : a.label.sameSource b.label = false := by simpa using hsource
        simp [Label.sameSelection, hdiffer]
    · cases h

/-- Merging a node fails where it meets one that does not absorb it. -/
theorem exists_of_mergeInto_eq_error {child : Selection} {e : CompileError}
    (h : mergeInto merged child = .error e) :
    ∃ other ∈ merged, other.label.mergesWith child.label = true ∧
      other.absorb child = .error e := by
  induction merged with
  | nil => cases h
  | cons other rest ih =>
      unfold mergeInto at h
      split at h
      · next hmerges =>
          rcases Outcome.bind_eq_error_iff.1 h with habsorb | ⟨_, -, h⟩
          · exact ⟨other, List.mem_cons_self, hmerges, habsorb⟩
          · cases h
      · rcases Outcome.bind_eq_error_iff.1 h with hrest | ⟨_, -, h⟩
        · rcases ih hrest with ⟨found, hfound, habsorb⟩
          exact ⟨found, List.mem_cons_of_mem _ hfound, habsorb⟩
        · cases h

/-- Merging fails only where two of the nodes are in conflict themselves. -/
theorem exists_of_mergeAll_eq_error {e : CompileError} (h : mergeAll children = .error e) :
    ∃ x ∈ children, ∃ y ∈ children, x.label.mergesWith y.label = true ∧
      x.label.sameSelection y.label = false := by
  rcases Outcome.exists_of_foldlM_eq_error h with ⟨done, child, rest, found, rfl, hdone, hinto⟩
  rcases exists_of_mergeInto_eq_error hinto with ⟨other, hother, hmerges, habsorb⟩
  have hdiffer := not_sameSelection_of_absorb habsorb
  -- What the child does not merge with has the label of a node before it.
  rcases (mergeAll_merges hdone).label other hother with ⟨before, hbefore, hlabel⟩
  rw [hlabel] at hmerges hdiffer
  exact ⟨before, List.mem_append_left _ hbefore, child,
    List.mem_append_right _ List.mem_cons_self, hmerges, hdiffer⟩

theorem conflict_of_mergeAll {e : CompileError} (h : mergeAll children = .error e) :
    Conflict children := by
  rcases exists_of_mergeAll_eq_error h with ⟨x, hx, y, hy, hmerges, hdiffer⟩
  exact ⟨x, y, .here hx hy, hmerges, hdiffer⟩

end Selection

/-- Whether two nodes were not allowed to be one. -/
def CompileError.isConflict : CompileError → Bool
  | .conflictingFieldShape _ _ _ | .conflictingArguments _ => true
  | _ => false

namespace Selection

variable {children merged out : List Selection} {limit : Nat}

/-- A conflict is reported only where there is one. -/
theorem conflict_of_normalize {levels : Nat} {e : CompileError}
    (h : normalize limit levels children = .error e) (he : e.isConflict = true) :
    Conflict children := by
  induction levels generalizing children with
  | zero =>
      cases h
      cases he
  | succ levels ih =>
      unfold normalize at h
      rcases Outcome.bind_eq_error_iff.1 h with hmerge | ⟨merged, hmerged, h⟩
      · exact conflict_of_mergeAll hmerge
      · rcases Outcome.exists_of_mapM_eq_error h with ⟨node, hnode, h⟩
        rcases Outcome.bind_eq_error_iff.1 h with hbelow | ⟨_, -, h⟩
        · rcases ih hbelow with ⟨x, y, htogether, hconflict⟩
          -- The nodes are below one that stands for a child, so they are brought together there.
          rw [foldSubtypes_eq_map (apart_of_mergeAll hmerged)] at hnode
          rcases List.mem_map.1 hnode with ⟨m, hm, rfl⟩
          rcases (mergeAll_merges hmerged).label m hm with ⟨child, hchild, hlabel⟩
          have hsame : m.label.sameSelection child.label = true := by
            simpa [hlabel] using Label.sameSelection_refl child.label
          have hlevel : (· ∈ (foldedInto merged m).children) = Below (· ∈ children) child := by
            funext g
            exact propext (mem_foldedInto_iff_below hmerged hm hsame)
          rw [hlevel] at htogether
          exact ⟨x, y, .deeper hchild htogether, hconflict⟩
        · cases h

end Selection

end GraphQuery
