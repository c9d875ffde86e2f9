import GraphQuery.Proofs.Selection.Rejection

/-!
# Selection.Extraction — what taking out and spreading fragments gives, whatever the order

Extraction goes through a tree in order and puts definitions together as it meets them, and
spreading goes through the fragments one after the other. What they give is described here by
membership alone: which nodes end up in a definition, and which are left of a selection.

- `Selection.hollow`, `Selection.eq_map_hollow_of_extraction` : what extraction leaves
- `Selection.Supplies`, `Selection.mem_children_of_extraction` : what is in a definition
- `Selection.Stays`, `Selection.mem_spreadAll_iff` : what spreading all fragments gives
-/

set_option autoImplicit false

namespace GraphQuery

namespace Selection

/-! ## What is left -/

mutual

/-- What is left of a tree when the definitions are taken out. -/
def hollow : Selection → Selection
  | .node (.fragment name type) _ => .node (.spread name type) []
  | .node label children => .node label (hollowAll children)

def hollowAll : List Selection → List Selection
  | [] => []
  | child :: rest => hollow child :: hollowAll rest

end

theorem hollowAll_eq_map (children : List Selection) :
    hollowAll children = children.map hollow := by
  induction children with
  | nil => rfl
  | cons child rest ih => rw [hollowAll, ih, List.map_cons]

theorem hollow_of_ne_fragment {label : Label} {children : List Selection}
    (h : ∀ name type, label ≠ .fragment name type) :
    hollow (.node label children) = .node label (children.map hollow) := by
  rw [← hollowAll_eq_map, hollow]
  exact h

theorem eq_map_hollow_of_extraction {children out : List Selection}
    {found last : List FragmentDefinition} (h : Extraction found children out last) :
    out = children.map hollow := by
  induction h with
  | nil => rfl
  | keep hlabel _ _ ihBelow ihRest =>
      rw [List.map_cons, hollow_of_ne_fragment hlabel, ihBelow, ihRest]
  | define _ _ _ _ ihRest =>
      rw [List.map_cons, ihRest, hollow]

/-! ## What is taken out -/

/-- A node of a tree, with all that is below it. -/
inductive Holds : Selection → Selection → Prop where
  | here {node : Selection} : Holds node node
  | deeper {node child found : Selection} :
      child ∈ node.children → Holds child found → Holds node found

theorem holds_iff {node found : Selection} :
    node.Holds found ↔ node = found ∨ ∃ child ∈ node.children, child.Holds found := by
  constructor
  · intro h
    cases h with
    | here => exact .inl rfl
    | deeper hchild hbelow => exact .inr ⟨_, hchild, hbelow⟩
  · rintro (rfl | ⟨child, hchild, hbelow⟩)
    · exact .here
    · exact .deeper hchild hbelow

theorem contains_iff_holds {node : Selection} {label : Label} :
    node.Contains label ↔ ∃ found, node.Holds found ∧ found.label = label := by
  constructor
  · intro h
    induction h with
    | here => exact ⟨_, .here, rfl⟩
    | deeper hchild _ ih =>
        rcases ih with ⟨found, hfound, hlabel⟩
        exact ⟨found, .deeper hchild hfound, hlabel⟩
  · rintro ⟨found, h, hlabel⟩
    induction h with
    | here => exact hlabel ▸ .here
    | deeper hchild _ ih => exact .deeper hchild (ih hlabel)

/-- The nodes below the definitions of a fragment in a list, without the definitions in them. -/
def Supplies (children : List Selection) (name : String) (type : GraphType) (g : Selection) :
    Prop :=
  ∃ child ∈ children, ∃ definition, child.Holds definition ∧
    definition.label = .fragment name type ∧ ∃ k ∈ definition.children, hollow k = g

theorem supplies_cons_iff {label : Label} {below rest : List Selection} {name : String}
    {type : GraphType} {g : Selection} :
    Supplies (.node label below :: rest) name type g ↔
      ((label = .fragment name type ∧ ∃ k ∈ below, hollow k = g) ∨ Supplies below name type g) ∨
        Supplies rest name type g := by
  have hnode : (∃ definition, (Selection.node label below).Holds definition ∧
      definition.label = .fragment name type ∧ ∃ k ∈ definition.children, hollow k = g) ↔
        (label = .fragment name type ∧ ∃ k ∈ below, hollow k = g) ∨
          Supplies below name type g := by
    have hholds : ∀ definition, (Selection.node label below).Holds definition ↔
        .node label below = definition ∨ ∃ child ∈ below, child.Holds definition :=
      fun _ => holds_iff
    simp only [hholds, or_and_right, exists_or, exists_eq_left', Supplies]
    refine or_congr_right ⟨?_, ?_⟩
    · rintro ⟨definition, ⟨child, hchild, hholds⟩, hrest⟩
      exact ⟨child, hchild, definition, hholds, hrest⟩
    · rintro ⟨child, hchild, definition, hholds, hrest⟩
      exact ⟨definition, ⟨child, hchild, hholds⟩, hrest⟩
  simp only [Supplies, List.mem_cons, or_and_right, exists_or, exists_eq_left, hnode]

/-- What is below an extracted definition is below one of the definitions of its name. -/
theorem supplied_of_extraction {children out : List Selection}
    {found last : List FragmentDefinition} (h : Extraction found children out last) (name : String)
    (type : GraphType) (g : Selection) :
    (∃ f ∈ last, (f.name = name ∧ f.type = type) ∧ g ∈ f.children) ↔
      (∃ f ∈ found, (f.name = name ∧ f.type = type) ∧ g ∈ f.children) ∨
        Supplies children name type g := by
  induction h with
  | nil => simp [Supplies]
  | keep hlabel _ _ ihBelow ihRest =>
      refine (ihRest.trans (or_congr_left ihBelow)).trans ?_
      simp [supplies_cons_iff, hlabel, or_assoc]
  | define hbelow hdefine _ ihBelow ihRest =>
      -- The new definition is without the definitions in it, which were taken out before.
      have hadded := exists_define_iff (P := fun n t => n = name ∧ t = type)
        (Q := fun below => g ∈ below) hdefine fun _ _ => List.mem_append
      refine (ihRest.trans (or_congr_left (hadded.trans (or_congr_left ihBelow)))).trans ?_
      rw [supplies_cons_iff, eq_map_hollow_of_extraction hbelow]
      simp only [Label.fragment.injEq, List.mem_map]
      simp only [or_assoc, or_comm, or_left_comm]

theorem mem_children_of_extraction {children out : List Selection} {last : List FragmentDefinition}
    (h : Extraction [] children out last) {f : FragmentDefinition} (hf : f ∈ last)
    {g : Selection} : g ∈ f.children ↔ Supplies children f.name f.type g := by
  have hsupplied := supplied_of_extraction h f.name f.type g
  constructor
  · intro hg
    rcases hsupplied.1 ⟨f, hf, ⟨rfl, rfl⟩, hg⟩ with ⟨_, hnone, -⟩ | hsupplies
    · cases hnone
    · exact hsupplies
  · intro hsupplies
    rcases hsupplied.2 (.inr hsupplies) with ⟨k, hk, ⟨hname, -⟩, hg⟩
    have hdistinct : DistinctNames last := distinctNames_of_extraction h List.nodup_nil
    have heq : k = f := List.inj_on_of_nodup_map hdistinct hk hf hname
    exact heq ▸ hg

/-! ## Spreading -/

variable {fragments : List FragmentDefinition} {children : List Selection}
  {label : Label} {node : Selection}

/-- A spread, or what no fragment on the type covers: spreading fragments leaves it. -/
def Stays (fragments : List FragmentDefinition) (type : TypeRef) (node : Selection) : Prop :=
  node.label.isSpread = true ∨
    ∀ f ∈ fragments, f.type.typeRef = type → covers f.children node = false

theorem stays_cons {f : FragmentDefinition} {type : TypeRef} :
    Stays (f :: fragments) type node ↔
      (node.label.isSpread = true ∨ (f.type.typeRef = type → covers f.children node = false)) ∧
        Stays fragments type node := by
  simp only [Stays, List.forall_mem_cons, or_and_left]

/-- Spreading one fragment leaves the spreads of the others alone. -/
theorem spares_spread_iff {f g : FragmentDefinition} (hne : f.name ≠ g.name) :
    Spares g (spread f children) ↔ Spares g children := by
  constructor
  · intro h child hchild
    refine Bool.eq_false_iff.2 fun hmerges => ?_
    have hspread : child.label.isSpread = true := Label.isSpread_of_mergesWith hmerges
    simp [h child (mem_spread_iff.2 (.inl ⟨hchild, .inl hspread⟩))] at hmerges
  · intro h child hchild
    rcases mem_spread hchild with hchild | rfl
    · exact h child hchild
    · simpa [spreadNode, label, Label.mergesWith] using hne

/-- What is there once all fragments of a type are spread, whatever their order. -/
theorem mem_spreadAll_iff (hd : DistinctNames fragments) (hneeds : label.needsChildren = true) :
    node ∈ spreadAll fragments label children ↔
      (node ∈ children ∧ Stays fragments label.type.typeRef node) ∨
        ∃ f ∈ fragments, f.type.typeRef = label.type.typeRef ∧ node = spreadNode f ∧
          Spares f children := by
  unfold spreadAll
  rw [if_pos hneeds]
  induction fragments generalizing children with
  | nil => simp [Stays]
  | cons f rest ih =>
      rcases List.nodup_cons.1 hd with ⟨hnew, hrest⟩
      have hne : ∀ g ∈ rest, f.name ≠ g.name := fun g hg heq =>
        hnew (heq ▸ List.mem_map_of_mem hg)
      rw [List.foldl_cons, ih hrest, stays_cons, List.exists_mem_cons_iff]
      split
      · next htype =>
          have hothers : (∃ g ∈ rest, g.type.typeRef = label.type.typeRef ∧ node = spreadNode g ∧
              Spares g (spread f children)) ↔ ∃ g ∈ rest, g.type.typeRef = label.type.typeRef ∧
                node = spreadNode g ∧ Spares g children := by
            refine exists_congr fun g => and_congr_right fun hg => ?_
            rw [spares_spread_iff (hne g hg)]
          have hstays : node = spreadNode f → Stays rest label.type.typeRef node := by
            rintro rfl
            exact .inl rfl
          rw [hothers, mem_spread_iff, or_and_right, or_assoc, and_assoc]
          refine or_congr (by simp [htype]) (or_congr_left ?_)
          exact ⟨fun h => ⟨htype, h.1⟩, fun h => ⟨h.2, hstays h.2.1⟩⟩
      · next htype =>
          simp [htype]

end Selection

end GraphQuery
