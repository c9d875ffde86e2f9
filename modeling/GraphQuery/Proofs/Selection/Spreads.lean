import GraphQuery.Proofs.Selection.Labels

/-!
# Selection.Spreads — every spread has its definition

The tree of an expression holds fragments where they are applied, and spreads nothing. Spreads
come in when the definitions are taken out, so each of them has a definition of its name and type.

- `Selection.Grows` : definitions that more children are put with
- `Selection.DistinctNames` : definitions of which no two have one name
- `Selection.Defined`, `Selection.defined_of_extraction` : spreads after extraction
-/

set_option autoImplicit false

namespace GraphQuery

namespace Selection

variable {children out : List Selection}

/-! ## Definitions -/

/-- Every definition is still there, with its name and type and all of its children. -/
def Grows (found last : List FragmentDefinition) : Prop :=
  ∀ f ∈ found, ∃ g ∈ last, g.name = f.name ∧ g.type = f.type ∧ f.children ⊆ g.children

theorem Grows.refl (found : List FragmentDefinition) : Grows found found :=
  fun f hf => ⟨f, hf, rfl, rfl, List.Subset.refl _⟩

theorem Grows.trans {found mid last : List FragmentDefinition} (hfm : Grows found mid)
    (hml : Grows mid last) : Grows found last := by
  intro f hf
  rcases hfm f hf with ⟨g, hg, hname, htype, hsub⟩
  rcases hml g hg with ⟨k, hk, hkName, hkType, hkSub⟩
  exact ⟨k, hk, hkName.trans hname, hkType.trans htype, List.Subset.trans hsub hkSub⟩

theorem grows_of_define {fragment : FragmentDefinition} {found defined : List FragmentDefinition}
    (h : define fragment found = .ok defined) :
    Grows found defined ∧ ∃ g ∈ defined, g.name = fragment.name ∧ g.type = fragment.type ∧
      fragment.children ⊆ g.children := by
  rcases define_eq_ok h with ⟨rfl, -⟩ | ⟨before, other, after, rfl, hname, htype, rfl⟩
  · refine ⟨?_, fragment, by simp, rfl, rfl, List.Subset.refl _⟩
    intro f hf
    exact ⟨f, List.mem_append_left _ hf, rfl, rfl, List.Subset.refl _⟩
  · refine ⟨?_, _, List.mem_append_right _ List.mem_cons_self, hname, htype,
      List.subset_append_right _ _⟩
    -- The definition that was put together with the fragment is there with more children.
    refine forall_mem_replace (fun f hf => ⟨f, hf, rfl, rfl, List.Subset.refl _⟩) ?_
    exact ⟨_, List.mem_append_right _ List.mem_cons_self, rfl, rfl, List.subset_append_left _ _⟩

/-- What a definition among others has, one had before, or it comes with the new one. -/
theorem exists_define_iff {P : String → GraphType → Prop} {Q : List Selection → Prop}
    {fragment : FragmentDefinition} {found defined : List FragmentDefinition}
    (h : define fragment found = .ok defined) (hQ : ∀ xs ys, Q (xs ++ ys) ↔ Q xs ∨ Q ys) :
    (∃ f ∈ defined, P f.name f.type ∧ Q f.children) ↔
      (∃ f ∈ found, P f.name f.type ∧ Q f.children) ∨
        (P fragment.name fragment.type ∧ Q fragment.children) := by
  rcases define_eq_ok h with ⟨rfl, -⟩ | ⟨before, other, after, rfl, hname, htype, rfl⟩
  · simp [or_and_right, exists_or]
  · -- The definition that the fragment is put together with has both children.
    simp only [List.mem_append, List.mem_cons, or_and_right, exists_or, exists_eq_left, hQ, hname,
      htype, and_or_left]
    simp only [or_assoc, or_comm, or_left_comm]

theorem grows_of_extraction {found last : List FragmentDefinition}
    (h : Extraction found children out last) : Grows found last := by
  induction h with
  | nil => exact .refl _
  | keep _ _ _ ihBelow ihRest => exact ihBelow.trans ihRest
  | define _ hdefine _ ihBelow ihRest =>
      exact (ihBelow.trans (grows_of_define hdefine).1).trans ihRest

/-- No two definitions have one name. -/
abbrev DistinctNames (fragments : List FragmentDefinition) : Prop :=
  (fragments.map FragmentDefinition.name).Nodup

/-- Definitions that change but for their names have distinct names still. -/
theorem DistinctNames.of_forall₂ {found last : List FragmentDefinition}
    (hd : DistinctNames found)
    (h : List.Forall₂ (fun (f g : FragmentDefinition) => g.name = f.name) found last) :
    DistinctNames last := by
  have hnames : List.Forall₂ Eq (found.map FragmentDefinition.name)
      (last.map FragmentDefinition.name) := by
    rw [List.forall₂_map_left_iff, List.forall₂_map_right_iff]
    exact h.imp fun _ _ hname => hname.symm
  rw [List.forall₂_eq_eq_eq] at hnames
  unfold DistinctNames
  rw [← hnames]
  exact hd

theorem distinctNames_of_define {fragment : FragmentDefinition}
    {found defined : List FragmentDefinition} (h : define fragment found = .ok defined)
    (hd : DistinctNames found) : DistinctNames defined := by
  rcases define_eq_ok h with ⟨rfl, hnew⟩ | ⟨before, other, after, rfl, -, -, rfl⟩
  · -- A definition is put last only when no other has its name.
    unfold DistinctNames
    rw [List.map_append, List.nodup_append]
    refine ⟨hd, List.nodup_singleton _, ?_⟩
    intro a ha b hb hab
    rcases List.mem_map.1 ha with ⟨f, hf, rfl⟩
    rw [List.map_cons, List.map_nil, List.mem_singleton] at hb
    exact hnew f hf (hab.trans hb)
  · simpa [DistinctNames] using hd

theorem distinctNames_of_extraction {found last : List FragmentDefinition}
    (h : Extraction found children out last) (hd : DistinctNames found) : DistinctNames last := by
  induction h with
  | nil => exact hd
  | keep _ _ _ ihBelow ihRest => exact ihRest (ihBelow hd)
  | define _ hdefine _ ihBelow ihRest =>
      exact ihRest (distinctNames_of_define hdefine (ihBelow hd))

/-- A spread has a definition of its name and type. -/
def Defined (fragments : List FragmentDefinition) (label : Label) : Prop :=
  ∀ name type, label = .spread name type → ∃ f ∈ fragments, f.name = name ∧ f.type = type

theorem Defined.of_names {found last : List FragmentDefinition} {label : Label}
    (h : Defined found label)
    (hnames : ∀ f ∈ found, ∃ g ∈ last, g.name = f.name ∧ g.type = f.type) :
    Defined last label := by
  intro name type hlabel
  rcases h name type hlabel with ⟨f, hf, hname, htype⟩
  rcases hnames f hf with ⟨g, hg, hgName, hgType⟩
  exact ⟨g, hg, hgName.trans hname, hgType.trans htype⟩

theorem Defined.grow {found last : List FragmentDefinition} {label : Label}
    (h : Defined found label) (hgrows : Grows found last) : Defined last label := by
  refine h.of_names fun f hf => ?_
  rcases hgrows f hf with ⟨g, hg, hname, htype, -⟩
  exact ⟨g, hg, hname, htype⟩

theorem defined_of_isSpread_eq_false {fragments : List FragmentDefinition} {label : Label}
    (h : label.isSpread = false) : Defined fragments label := by
  rintro name type rfl
  cases h

theorem defined_of_extraction {found last : List FragmentDefinition}
    (h : Extraction found children out last) (hfree : ∀ child ∈ children, SpreadFree child) :
    ∀ node ∈ out, Every (Defined last) node := by
  induction h with
  | nil => nofun
  | @keep _ mid _ _ _ _ _ _ _ _ hrest ihBelow ihRest =>
      rcases List.forall_mem_cons.1 hfree with ⟨hnode, hothers⟩
      refine List.forall_mem_cons.2 ⟨?_, ihRest hothers⟩
      refine .node (defined_of_isSpread_eq_false hnode.holds) ?_
      -- Spreads below the node have their definitions in `mid`, which later nodes only add to.
      intro child hchild
      have hgrows : Grows mid _ := grows_of_extraction hrest
      exact (ihBelow hnode.children child hchild).imp fun _ hdefined => hdefined.grow hgrows
  | @define _ _ _ _ name type _ _ _ _ _ hdefine hrest _ ihRest =>
      refine List.forall_mem_cons.2 ⟨?_, ihRest (List.forall_mem_cons.1 hfree).2⟩
      refine .node ?_ nofun
      -- The spread left behind is that of the definition that was just added.
      rintro _ _ ⟨⟩
      rcases grows_of_define hdefine with ⟨-, g, hg, hname, htype, -⟩
      rcases grows_of_extraction hrest g hg with ⟨k, hk, hkName, hkType, -⟩
      exact ⟨k, hk, hkName.trans hname, hkType.trans htype⟩

end Selection

end GraphQuery
