import GraphQuery.Proofs.Selection.Conflicts

/-!
# Selection.Rejection — trees that are rejected for a conflict

Pruning fails on a conflict of nodes, also of those of a fragment after its definitions were put
together, and on definitions of one fragment for different types. Where the recursion limit leaves
enough levels it reports each of them as a conflict, and it reports nothing else as one.

- `Selection.Within` : trees of bounded depth, with a `within_*` lemma for every pass
- `Selection.isConflict_of_normalize` : within the limit, normal form fails on conflicts only
- `Selection.Clash` : definitions of one fragment for different types
- `Selection.not_clash_of_extraction`, `Selection.clash_of_extractAll` : where extraction fails
- `Selection.prune_conflict_iff` : the trees that are rejected for a conflict
-/

set_option autoImplicit false

namespace GraphQuery

namespace Selection

/-! ## Levels -/

/-- A tree of at most so many levels. -/
inductive Within : Nat → Selection → Prop where
  | node {n : Nat} {label : Label} {children : List Selection} :
      (∀ child ∈ children, Within n child) → Within (n + 1) (.node label children)

namespace Within

variable {n : Nat} {node : Selection}

theorem children (h : Within (n + 1) node) : ∀ child ∈ node.children, Within n child := by
  cases h with
  | node h => exact h

theorem of_children (h : ∀ child ∈ node.children, Within n child) : Within (n + 1) node := by
  rcases node with ⟨label, children⟩
  exact .node h

theorem pos (h : Within n node) : 0 < n := by
  cases h with
  | node _ => exact Nat.succ_pos _

theorem succ (h : Within n node) : Within (n + 1) node := by
  induction h with
  | node _ ih => exact .node ih

/-- What is below a node has no more levels than the node. -/
theorem sameLevels (h : Within n node) : ∀ child ∈ node.children, Within n child := by
  cases h with
  | node h => exact fun child hchild => (h child hchild).succ

end Within

variable {children merged out : List Selection} {limit n : Nat} {e : CompileError}

/-- Folding moves nodes up, if it moves them at all. -/
theorem within_foldSubtypes (hmerged : mergeAll children = .ok merged)
    (h : ∀ child ∈ children, Within (n + 1) child) {node : Selection}
    (hnode : node ∈ foldSubtypes merged) : ∀ g ∈ node.children, Within n g := by
  intro g hg
  have hmerges := mergeAll_merges hmerged
  rcases (foldSubtypes_folds merged).label node hnode with ⟨m, hm, -, hbelow⟩
  rcases hbelow g hg with hg | ⟨subtype, hsubtype, -, field, hfield, -, hg⟩
  · rcases hmerges.below m hm g hg with ⟨child, hchild, -, hg⟩
    exact (h child hchild).children g hg
  · rcases hmerges.below subtype hsubtype field hfield with ⟨child, hchild, -, hfield⟩
    exact ((h child hchild).children field hfield).sameLevels g hg

theorem within_of_normalize {levels : Nat} (h : normalize limit levels children = .ok out)
    (hw : ∀ child ∈ children, Within n child) : ∀ node ∈ out, Within n node := by
  induction levels generalizing n children out with
  | zero => cases h
  | succ levels ih =>
      rcases normalize_eq_ok h with ⟨merged, hmerged, hout⟩
      intro node hnode
      rcases Outcome.mem_right hout hnode with ⟨folded, hfolded, -, hbelow⟩
      cases n with
      | zero =>
          rcases exists_mem_of_normalize h hnode with ⟨child, hchild⟩
          exact absurd (hw child hchild).pos (Nat.lt_irrefl 0)
      | succ n => exact .of_children (ih hbelow (within_foldSubtypes hmerged hw hfolded))

theorem within_of_extraction {found last : List FragmentDefinition}
    (h : Extraction found children out last) (hw : ∀ child ∈ children, Within n child) :
    ∀ node ∈ out, Within n node := by
  induction h generalizing n with
  | nil => nofun
  | keep _ _ _ ihBelow ihRest =>
      rcases List.forall_mem_cons.1 hw with ⟨hnode, hrest⟩
      cases hnode with
      | node hbelow => exact List.forall_mem_cons.2 ⟨.node (ihBelow hbelow), ihRest hrest⟩
  | define _ _ _ _ ihRest =>
      rcases List.forall_mem_cons.1 hw with ⟨hnode, hrest⟩
      cases hnode with
      | node _ => exact List.forall_mem_cons.2 ⟨.node nofun, ihRest hrest⟩

/-- Definitions with at most so many levels below them. -/
def FragmentsWithin (n : Nat) (fragments : List FragmentDefinition) : Prop :=
  ∀ f ∈ fragments, ∀ child ∈ f.children, Within n child

theorem fragmentsWithin_of_extraction {found last : List FragmentDefinition}
    (h : Extraction found children out last) (hw : ∀ child ∈ children, Within n child)
    (hfound : FragmentsWithin n found) : FragmentsWithin n last := by
  induction h with
  | nil => exact hfound
  | keep _ _ _ ihBelow ihRest =>
      rcases List.forall_mem_cons.1 hw with ⟨hnode, hrest⟩
      exact ihRest hrest (ihBelow hnode.sameLevels hfound)
  | define hbelow hdefine _ ihBelow ihRest =>
      rcases List.forall_mem_cons.1 hw with ⟨hnode, hrest⟩
      refine ihRest hrest (forall_children_of_define hdefine ?_ (ihBelow hnode.sameLevels hfound))
      exact within_of_extraction hbelow hnode.sameLevels

/-! ## Failures are conflicts -/

theorem isConflict_of_absorb {a b : Selection} (h : a.absorb b = .error e) :
    e.isConflict = true := by
  unfold absorb at h
  split at h
  · cases h
    rfl
  · split at h
    · cases h
      rfl
    · cases h

theorem isConflict_of_mergeAll (h : mergeAll children = .error e) : e.isConflict = true := by
  rcases Outcome.exists_of_foldlM_eq_error h with ⟨_, child, _, found, -, -, hinto⟩
  rcases exists_of_mergeInto_eq_error hinto with ⟨other, -, -, habsorb⟩
  exact isConflict_of_absorb habsorb

theorem isConflict_of_normalize (hw : ∀ child ∈ children, Within n child)
    (h : normalize limit (n + 1) children = .error e) : e.isConflict = true := by
  induction n generalizing children with
  | zero =>
      -- There is nothing to merge.
      have hnil : children = [] := by
        refine List.eq_nil_iff_forall_not_mem.2 fun child hchild => ?_
        exact absurd (hw child hchild).pos (Nat.lt_irrefl 0)
      subst hnil
      cases h
  | succ n ih =>
      unfold normalize at h
      rcases Outcome.bind_eq_error_iff.1 h with hmerge | ⟨merged, hmerged, h⟩
      · exact isConflict_of_mergeAll hmerge
      · rcases Outcome.exists_of_mapM_eq_error h with ⟨node, hnode, h⟩
        rcases Outcome.bind_eq_error_iff.1 h with hbelow | ⟨_, -, h⟩
        · exact ih (within_foldSubtypes hmerged hw hnode) hbelow
        · cases h

/-! ## Definitions of one fragment -/

/-- The labels of a tree. -/
inductive Contains : Selection → Label → Prop where
  | here {node : Selection} : Contains node node.label
  | deeper {node child : Selection} {label : Label} :
      child ∈ node.children → Contains child label → Contains node label

/-- A definition of a fragment, found before or in one of the nodes. -/
inductive Defines (found : List FragmentDefinition) (children : List Selection) (name : String)
    (type : GraphType) : Prop where
  | before {f : FragmentDefinition} :
      f ∈ found → f.name = name → f.type = type → Defines found children name type
  | inside {child : Selection} :
      child ∈ children → child.Contains (.fragment name type) → Defines found children name type

/-- Two definitions of one fragment are for different types. -/
def Clash (found : List FragmentDefinition) (children : List Selection) : Prop :=
  ∃ name first second, first ≠ second ∧ Defines found children name first ∧
    Defines found children name second

variable {found mid last : List FragmentDefinition} {rest : List Selection} {child : Selection}
  {label : Label} {name : String} {type : GraphType}

theorem Defines.mono (h : Defines found children name type) (hsub : children ⊆ rest) :
    Defines found rest name type := by
  cases h with
  | before hf hname htype => exact .before hf hname htype
  | inside hchild hcontains => exact .inside (hsub hchild) hcontains

/-- What is defined below a node is defined in the node. -/
theorem Defines.ofNode (h : Defines found children name type) :
    Defines found [.node label children] name type := by
  cases h with
  | before hf hname htype => exact .before hf hname htype
  | inside hchild hcontains => exact .inside List.mem_cons_self (.deeper hchild hcontains)

theorem Clash.imp {others : List FragmentDefinition} (h : Clash found children)
    (himp : ∀ name type, Defines found children name type → Defines others rest name type) :
    Clash others rest := by
  rcases h with ⟨name, first, second, hne, hfirst, hsecond⟩
  exact ⟨name, first, second, hne, himp _ _ hfirst, himp _ _ hsecond⟩

theorem contains_iff {node : Selection} :
    node.Contains label ↔ label = node.label ∨ ∃ child ∈ node.children, child.Contains label := by
  constructor
  · intro h
    cases h with
    | here => exact .inl rfl
    | deeper hchild hcontains => exact .inr ⟨_, hchild, hcontains⟩
  · rintro (rfl | ⟨child, hchild, hcontains⟩)
    · exact .here
    · exact .deeper hchild hcontains

theorem Defines.of_cons (h : Defines found (.node label children :: rest) name type) :
    label = .fragment name type ∨ Defines found children name type ∨
      ∃ child ∈ rest, child.Contains (.fragment name type) := by
  cases h with
  | before hf hname htype => exact .inr (.inl (.before hf hname htype))
  | inside hchild hcontains =>
      rcases List.mem_cons.1 hchild with rfl | hchild
      · rcases contains_iff.1 hcontains with hlabel | ⟨child, hchild, hcontains⟩
        · exact .inl hlabel.symm
        · exact .inr (.inl (.inside hchild hcontains))
      · exact .inr (.inr ⟨_, hchild, hcontains⟩)

/-- Whatever is defined in the nodes is there after extraction. -/
theorem exists_of_defines (h : Extraction found children out last)
    (hd : Defines found children name type) : ∃ f ∈ last, f.name = name ∧ f.type = type := by
  induction h with
  | nil =>
      cases hd with
      | before hf hname htype => exact ⟨_, hf, hname, htype⟩
      | inside hchild _ => cases hchild
  | keep hlabel _ _ ihBelow ihRest =>
      rcases hd.of_cons with hfragment | hbelow | ⟨child, hchild, hcontains⟩
      · exact absurd hfragment (hlabel name type)
      · rcases ihBelow hbelow with ⟨f, hf, hname, htype⟩
        exact ihRest (.before hf hname htype)
      · exact ihRest (.inside hchild hcontains)
  | define _ hdefine _ ihBelow ihRest =>
      rcases grows_of_define hdefine with ⟨hgrows, g, hg, hgName, hgType, -⟩
      rcases hd.of_cons with hfragment | hbelow | ⟨child, hchild, hcontains⟩
      · cases hfragment
        exact ihRest (.before hg hgName hgType)
      · rcases ihBelow hbelow with ⟨f, hf, hname, htype⟩
        rcases hgrows f hf with ⟨k, hk, hkName, hkType, -⟩
        exact ihRest (.before hk (hkName.trans hname) (hkType.trans htype))
      · exact ihRest (.inside hchild hcontains)

theorem mem_of_define {fragment : FragmentDefinition} (h : define fragment found = .ok last) :
    ∀ g ∈ last, (∃ f ∈ found, f.name = g.name ∧ f.type = g.type) ∨
      (g.name = fragment.name ∧ g.type = fragment.type) := by
  rcases define_eq_ok h with ⟨rfl, -⟩ | ⟨before, other, after, rfl, -, -, rfl⟩
  · refine List.forall_mem_append.2 ⟨fun g hg => .inl ⟨g, hg, rfl, rfl⟩, ?_⟩
    exact List.forall_mem_singleton.2 (.inr ⟨rfl, rfl⟩)
  · refine forall_mem_replace (fun g hg => .inl ⟨g, hg, rfl, rfl⟩) (.inl ?_)
    exact ⟨other, List.mem_append_right _ List.mem_cons_self, rfl, rfl⟩

/-- Whatever is there after extraction is defined in the nodes, or was there before. -/
theorem defines_of_extraction (h : Extraction found children out last) :
    ∀ f ∈ last, Defines found children f.name f.type := by
  induction h with
  | nil => exact fun f hf => .before hf rfl rfl
  | keep _ _ _ ihBelow ihRest =>
      intro f hf
      cases ihRest f hf with
      | before hg hname htype =>
          have hbelow := ihBelow _ hg
          rw [hname, htype] at hbelow
          exact hbelow.ofNode.mono (List.cons_subset_cons _ (List.nil_subset _))
      | inside hchild hcontains => exact .inside (List.mem_cons_of_mem _ hchild) hcontains
  | define _ hdefine _ ihBelow ihRest =>
      intro f hf
      cases ihRest f hf with
      | before hg hname htype =>
          rcases mem_of_define hdefine _ hg with ⟨k, hk, hkName, hkType⟩ | ⟨hgName, hgType⟩
          · have hbelow := ihBelow k hk
            rw [hkName, hkType, hname, htype] at hbelow
            exact hbelow.ofNode.mono (List.cons_subset_cons _ (List.nil_subset _))
          · rw [← hname, ← htype, hgName, hgType]
            exact .inside List.mem_cons_self .here
      | inside hchild hcontains => exact .inside (List.mem_cons_of_mem _ hchild) hcontains

theorem not_clash_of_extraction (h : Extraction [] children out last) : ¬ Clash [] children := by
  rintro ⟨name, first, second, hne, hfirst, hsecond⟩
  rcases exists_of_defines h hfirst with ⟨f, hf, hfName, rfl⟩
  rcases exists_of_defines h hsecond with ⟨g, hg, hgName, rfl⟩
  have hdistinct : DistinctNames last := distinctNames_of_extraction h List.nodup_nil
  have hsame : f = g := List.inj_on_of_nodup_map hdistinct hf hg (hfName.trans hgName.symm)
  exact hne (by rw [hsame])

theorem define_eq_error {fragment : FragmentDefinition} (h : define fragment found = .error e) :
    e.isConflict = true ∧ ∃ f ∈ found, f.name = fragment.name ∧ f.type ≠ fragment.type := by
  induction found with
  | nil => cases h
  | cons other rest ih =>
      unfold define at h
      split at h
      · next hname =>
          split at h
          · cases h
          · next htype =>
              cases h
              exact ⟨rfl, other, List.mem_cons_self, hname, htype⟩
      · rcases Outcome.bind_eq_error_iff.1 h with hrest | ⟨_, -, h⟩
        · rcases ih hrest with ⟨hconflict, f, hf, hdiffer⟩
          exact ⟨hconflict, f, List.mem_cons_of_mem _ hf, hdiffer⟩
        · cases h

/-- Extraction of a node fails on a conflict only, and where there are definitions that clash. -/
def FailsOnClash (s : Selection) : Prop :=
  ∀ {found : List FragmentDefinition} {e : CompileError},
    extract found s = .error e → e.isConflict = true ∧ Clash found [s]

theorem clash_of_forall (hall : ∀ child ∈ children, FailsOnClash child)
    (h : extractAll found children = .error e) : e.isConflict = true ∧ Clash found children := by
  induction children generalizing found with
  | nil => cases h
  | cons child rest ih =>
      rcases List.forall_mem_cons.1 hall with ⟨hchild, hrest⟩
      have hfirst : [child] ⊆ child :: rest := List.cons_subset_cons _ (List.nil_subset _)
      rcases Outcome.bind_eq_error_iff.1 h with h | ⟨⟨node, mid⟩, hnode, h⟩
      · rcases hchild h with ⟨hconflict, hclash⟩
        exact ⟨hconflict, hclash.imp fun _ _ hd => hd.mono hfirst⟩
      · rcases Outcome.bind_eq_error_iff.1 h with h | ⟨_, -, h⟩
        · rcases ih hrest h with ⟨hconflict, hclash⟩
          refine ⟨hconflict, hclash.imp fun name type hd => ?_⟩
          -- What the nodes behind clash with was found before, or in the first node.
          cases hd with
          | before hf hname htype =>
              have hone : Extraction found [child] [node] mid := extractsFirst child hnode .nil
              have hdefines := defines_of_extraction hone _ hf
              rw [hname, htype] at hdefines
              exact hdefines.mono hfirst
          | inside hchild hcontains => exact .inside (List.mem_cons_of_mem _ hchild) hcontains
        · cases h

theorem failsOnClash (s : Selection) : FailsOnClash s := by
  induction s with
  | node label children ih =>
      intro found e h
      rw [extract] at h
      rcases Outcome.bind_eq_error_iff.1 h with hbelow | ⟨⟨below, mid⟩, hbelow, h⟩
      · rcases clash_of_forall ih hbelow with ⟨hconflict, hclash⟩
        exact ⟨hconflict, hclash.imp fun _ _ hd => hd.ofNode⟩
      · cases label with
        | fragment name type =>
            rcases Outcome.bind_eq_error_iff.1 h with hdefine | ⟨_, -, h⟩
            · rcases define_eq_error hdefine with ⟨hconflict, f, hf, hname, htype⟩
              have hdefines := defines_of_extraction (extraction_of_extractAll hbelow) f hf
              rw [hname] at hdefines
              exact ⟨hconflict, name, f.type, type, htype, hdefines.ofNode,
                .inside List.mem_cons_self .here⟩
            · cases h
        | _ => cases h

/-- Extraction fails only where definitions clash. -/
theorem clash_of_extractAll (h : extractAll found children = .error e) :
    e.isConflict = true ∧ Clash found children :=
  clash_of_forall (fun child _ => failsOnClash child) h

/-! ## Pruning -/

/-- A tree with a conflict, with definitions of one fragment that clash, or with a conflict in a
fragment after the definitions of one name have been put together. -/
inductive Conflicting (limit : Nat) (tree : Selection) : Prop where
  | tree : Conflict tree.children → Conflicting limit tree
  | definition {children : List Selection} :
      normalize limit (limit + 1) tree.children = .ok children → Clash [] children →
      Conflicting limit tree
  | fragment {children nodes : List Selection} {found : List FragmentDefinition}
      {f : FragmentDefinition} :
      normalize limit (limit + 1) tree.children = .ok children →
      extractAll [] children = .ok (nodes, found) → f ∈ found → Conflict f.children →
      Conflicting limit tree

theorem normalize_fragment_eq_error {f : FragmentDefinition} (h : f.normalize limit = .error e) :
    normalize limit (limit + 1) f.children = .error e := by
  rcases Outcome.bind_eq_error_iff.1 h with hbelow | ⟨_, -, h⟩
  · exact hbelow
  · cases h

/-- A tree with a conflict has no pruned form, and this is the reason given. -/
theorem prune_of_conflicting {tree : Selection} (hw : Within (limit + 1) tree)
    (h : Conflicting limit tree) : ∃ e, tree.prune limit = .error e ∧ e.isConflict = true := by
  cases hnormal : normalize limit (limit + 1) tree.children with
  | error e =>
      have hprune : tree.prune limit = .error e := Outcome.bind_eq_error_iff.2 (.inl hnormal)
      exact ⟨e, hprune, isConflict_of_normalize hw.children hnormal⟩
  | ok children =>
      have hchildren := within_of_normalize hnormal hw.children
      cases hextract : extractAll [] children with
      | error e =>
          have hprune : tree.prune limit = .error e :=
            Outcome.bind_eq_error_iff.2 (.inr ⟨children, hnormal,
              Outcome.bind_eq_error_iff.2 (.inl hextract)⟩)
          exact ⟨e, hprune, (clash_of_extractAll hextract).1⟩
      | ok extracted =>
          rcases extracted with ⟨nodes, found⟩
          have hfound : FragmentsWithin limit found :=
            fragmentsWithin_of_extraction (extraction_of_extractAll hextract) hchildren nofun
          cases hfragments : found.mapM (FragmentDefinition.normalize limit) with
          | error e =>
              have hprune : tree.prune limit = .error e :=
                Outcome.bind_eq_error_iff.2 (.inr ⟨children, hnormal,
                  Outcome.bind_eq_error_iff.2 (.inr ⟨(nodes, found), hextract,
                    Outcome.bind_eq_error_iff.2 (.inl hfragments)⟩)⟩)
              rcases Outcome.exists_of_mapM_eq_error hfragments with ⟨f, hf, hfail⟩
              exact ⟨e, hprune,
                isConflict_of_normalize (hfound f hf) (normalize_fragment_eq_error hfail)⟩
          | ok fragments =>
              -- All normal forms are there, so there was no conflict.
              exfalso
              cases h with
              | tree hconflict => exact not_conflict_of_normalize hnormal hconflict
              | definition hnormal' hclash =>
                  cases hnormal.symm.trans hnormal'
                  exact not_clash_of_extraction (extraction_of_extractAll hextract) hclash
              | fragment hnormal' hextract' hf hconflict =>
                  cases hnormal.symm.trans hnormal'
                  cases hextract.symm.trans hextract'
                  rcases Outcome.mem_left (Outcome.mapM_eq_ok_iff.1 hfragments) hf with ⟨g, -, hg⟩
                  exact not_conflict_of_normalize (normalize_fragment_eq_ok hg).2.2 hconflict

theorem isConflict_of_elide {f : FragmentDefinition} (h : f.elide = .error e) :
    e.isConflict = false := by
  unfold FragmentDefinition.elide at h
  dsimp only at h
  split at h
  · cases h
    rfl
  · cases h

/-- A conflict is reported only where there is one. -/
theorem conflicting_of_prune {tree : Selection} (h : tree.prune limit = .error e)
    (he : e.isConflict = true) : Conflicting limit tree := by
  rcases Outcome.bind_eq_error_iff.1 h with hnormal | ⟨children, hnormal, h⟩
  · exact .tree (conflict_of_normalize hnormal he)
  · rcases Outcome.bind_eq_error_iff.1 h with hextract | ⟨⟨nodes, found⟩, hextract, h⟩
    · exact .definition hnormal (clash_of_extractAll hextract).2
    · rcases Outcome.bind_eq_error_iff.1 h with hfragments | ⟨fragments, hfragments, h⟩
      · rcases Outcome.exists_of_mapM_eq_error hfragments with ⟨f, hf, hfail⟩
        exact .fragment hnormal hextract hf
          (conflict_of_normalize (normalize_fragment_eq_error hfail) he)
      · -- What fails from here on is an empty selection.
        exfalso
        dsimp only at h
        split at h
        · cases h
          cases he
        · rcases Outcome.bind_eq_error_iff.1 h with helided | ⟨_, -, h⟩
          · rcases Outcome.exists_of_mapM_eq_error helided with ⟨f, -, hfail⟩
            simp [isConflict_of_elide hfail] at he
          · cases h

/-- Within the limit, a tree is rejected for a conflict just when it has one. -/
theorem prune_conflict_iff {tree : Selection} (hw : Within (limit + 1) tree) :
    (∃ e, tree.prune limit = .error e ∧ e.isConflict = true) ↔ Conflicting limit tree := by
  constructor
  · rintro ⟨e, h, he⟩
    exact conflicting_of_prune h he
  · exact prune_of_conflicting hw

end Selection

end GraphQuery
