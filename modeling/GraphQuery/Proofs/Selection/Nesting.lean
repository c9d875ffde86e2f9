import GraphQuery.Proofs.Selection.Rejection

/-!
# Selection.Nesting — fragments in the definitions of fragments

A fragment can be applied anywhere in a tree, also inside the definition of another one, or of
itself. Pruning moves nodes, but none out of a definition or into one: when the definitions have
been taken out, a definition spreads the fragments that were applied in it.

- `Selection.Applied` : where in a tree a fragment is applied
- `Selection.appliedAmong_normalize`, `Selection.appliedAmong_elideAll` : passes that keep it
- `Selection.applied_of_extraction` : definitions that are taken out
- `Pruned.DefinitionFree`, `Selection.definitionFree_of_prune` : none is left in a pruned query
- `Pruned.Spreads`, `Selection.spreads_of_prune` : the spreads of a pruned query
-/

set_option autoImplicit false

namespace GraphQuery

namespace Label

/-- The fragment that a node applies, by its definition or by a spread. -/
def fragment? : Label → Option String
  | .fragment name _ | .spread name _ => some name
  | _ => none

/-- The innermost fragment around the children of a node, given that around the node. -/
def inside (outer : Option String) : Label → Option String
  | .fragment name _ => some name
  | _ => outer

def isDefinition : Label → Bool
  | .fragment _ _ => true
  | _ => false

variable {a b : Label} {outer : Option String}

theorem fragment?_of_mergesWith (h : a.mergesWith b = true) : a.fragment? = b.fragment? := by
  cases a <;> cases b <;> simp_all [mergesWith, fragment?]

theorem inside_of_mergesWith (h : a.mergesWith b = true) : a.inside outer = b.inside outer := by
  cases a <;> cases b <;> simp_all [mergesWith, inside]

theorem fragment?_of_isField (h : a.isField = true) : a.fragment? = none := by
  cases a <;> first | rfl | cases h

theorem inside_of_isField (h : a.isField = true) : a.inside outer = outer := by
  cases a <;> first | rfl | cases h

theorem inside_of_isSubtype (h : a.isSubtype = true) : a.inside outer = outer := by
  cases a <;> first | rfl | cases h

theorem fragment?_of_needsChildren (h : a.needsChildren = true) : a.fragment? = none := by
  cases a <;> first | rfl | cases h

end Label

namespace Selection

/-- A fragment is applied in a tree, where another one is the innermost around that place, if there
is any. The tree itself stands in `outer`. -/
inductive Applied : Option String → Selection → Option String → String → Prop where
  | here {outer : Option String} {node : Selection} {name : String} :
      node.label.fragment? = some name → Applied outer node outer name
  | deeper {outer around : Option String} {node child : Selection} {name : String} :
      child ∈ node.children → Applied (node.label.inside outer) child around name →
      Applied outer node around name

/-- A fragment is applied in one of the nodes. -/
def AppliedAmong (outer : Option String) (nodes : List Selection) (around : Option String)
    (name : String) : Prop :=
  ∃ node ∈ nodes, Applied outer node around name

variable {outer around : Option String} {name : String} {limit levels : Nat} {label : Label}
  {node : Selection} {children nodes out : List Selection}
  {found mid last : List FragmentDefinition}

theorem applied_iff : Applied outer node around name ↔
    (node.label.fragment? = some name ∧ around = outer) ∨
      AppliedAmong (node.label.inside outer) node.children around name := by
  constructor
  · intro h
    cases h with
    | here h => exact .inl ⟨h, rfl⟩
    | deeper hchild h => exact .inr ⟨_, hchild, h⟩
  · rintro (⟨h, rfl⟩ | ⟨child, hchild, h⟩)
    · exact .here h
    · exact .deeper hchild h

theorem appliedAmong_cons : AppliedAmong outer (node :: nodes) around name ↔
    Applied outer node around name ∨ AppliedAmong outer nodes around name := by
  simp [AppliedAmong]

theorem appliedAmong_append : AppliedAmong outer (nodes ++ out) around name ↔
    AppliedAmong outer nodes around name ∨ AppliedAmong outer out around name := by
  simp [AppliedAmong, or_and_right, exists_or]

theorem not_appliedAmong_nil : ¬ AppliedAmong outer [] around name := by
  simp [AppliedAmong]

/-- A definition starts a place of its own, whatever is around it. -/
theorem inside_eq_or (label : Label) :
    (∃ definition, ∀ outer, label.inside outer = some definition) ∨
      ∀ outer, label.inside outer = outer := by
  cases label with
  | fragment definition => exact .inl ⟨definition, fun _ => rfl⟩
  | _ => exact .inr fun _ => rfl

/-- In a definition, a definition is around every place. -/
theorem Applied.exists_definition (h : Applied outer node around name) {definition : String}
    (houter : outer = some definition) : ∃ definition, around = some definition := by
  induction h generalizing definition with
  | here => exact ⟨definition, houter⟩
  | @deeper outer _ node _ _ _ _ ih =>
      rcases inside_eq_or node.label with ⟨inner, hinner⟩ | hkept
      · exact ih (hinner outer)
      · exact ih ((hkept outer).trans houter)

/-- Where no definition is around within the tree, what is around the tree is. -/
theorem Applied.widen (h : Applied none node none name) : Applied outer node outer name := by
  suffices hgen : ∀ {start stop}, Applied start node stop name → start = none → stop = none →
      Applied outer node outer name from hgen h rfl rfl
  clear h
  intro start stop h hstart hstop
  induction h with
  | here h => exact .here h
  | @deeper start _ node _ _ hchild hbelow ih =>
      subst hstart hstop
      rcases inside_eq_or node.label with ⟨definition, hdefinition⟩ | hkept
      · rcases hbelow.exists_definition (hdefinition none) with ⟨_, hnone⟩
        cases hnone
      · refine .deeper hchild ?_
        rw [hkept outer]
        exact ih (hkept none) rfl

/-- A definition within the tree stays the innermost one. -/
theorem Applied.keep {definition : String} (h : Applied none node (some definition) name) :
    Applied outer node (some definition) name := by
  generalize hstart : (none : Option String) = start at h
  generalize hstop : some definition = stop at h
  induction h with
  | here =>
      subst hstart
      cases hstop
  | @deeper start _ node _ _ hchild hbelow ih =>
      subst hstart
      refine .deeper hchild ?_
      rcases inside_eq_or node.label with ⟨inner, hinner⟩ | hkept
      · rw [hinner outer, ← hinner none]
        exact hbelow
      · rw [hkept outer]
        exact ih (hkept none).symm hstop

/-- What is around a tree counts only where no definition in the tree is. -/
theorem applied_iff_none : Applied outer node around name ↔
    (around = outer ∧ Applied none node none name) ∨
      ∃ definition, around = some definition ∧ Applied none node (some definition) name := by
  constructor
  · intro h
    induction h with
    | here h => exact .inl ⟨rfl, .here h⟩
    | @deeper outer _ node _ _ hchild hbelow ih =>
        rcases inside_eq_or node.label with ⟨inner, hinner⟩ | hkept
        · rcases hbelow.exists_definition (hinner outer) with ⟨definition, rfl⟩
          rw [hinner outer, ← hinner none] at hbelow
          exact .inr ⟨definition, rfl, .deeper hchild hbelow⟩
        · rw [hkept outer] at ih
          have hdeeper : ∀ {around name}, Applied none _ around name →
              Applied none node around name := fun h => .deeper hchild ((hkept none).symm ▸ h)
          exact ih.imp (fun h => ⟨h.1, hdeeper h.2⟩)
            fun ⟨definition, haround, h⟩ => ⟨definition, haround, hdeeper h⟩
  · rintro (⟨rfl, h⟩ | ⟨definition, rfl, h⟩)
    · exact h.widen
    · exact h.keep

theorem appliedAmong_iff_none : AppliedAmong outer nodes around name ↔
    (around = outer ∧ AppliedAmong none nodes none name) ∨
      ∃ definition, around = some definition ∧ AppliedAmong none nodes (some definition) name := by
  constructor
  · rintro ⟨node, hnode, h⟩
    exact (applied_iff_none.1 h).imp (fun h => ⟨h.1, node, hnode, h.2⟩)
      fun ⟨definition, haround, h⟩ => ⟨definition, haround, node, hnode, h⟩
  · rintro (⟨haround, node, hnode, h⟩ | ⟨definition, haround, node, hnode, h⟩)
    · exact ⟨node, hnode, applied_iff_none.2 (.inl ⟨haround, h⟩)⟩
    · exact ⟨node, hnode, applied_iff_none.2 (.inr ⟨definition, haround, h⟩)⟩

/-! ## Normal form -/

/-- What is applied below a node that is folded into a field beside its subtype stays where it is:
no definition is on the way. -/
theorem appliedAmong_normalize (h : normalize limit levels children = .ok out) :
    AppliedAmong outer out around name ↔ AppliedAmong outer children around name := by
  induction levels generalizing outer around children out with
  | zero => cases h
  | succ levels ih =>
      constructor
      · rintro ⟨node, hnode, happlied⟩
        rcases exists_source_of_normalize h hnode with ⟨child, hchild, hlabel, below, hmem, hbelow⟩
        rcases applied_iff.1 happlied with ⟨hhere, rfl⟩ | happlied
        · exact ⟨child, hchild, .here (hlabel ▸ hhere)⟩
        · rw [hlabel] at happlied
          rcases (ih hbelow).1 happlied with ⟨g, hg, hg'⟩
          cases (hmem g).1 hg with
          | child hother hmerges hg _ =>
              rw [Label.inside_of_mergesWith hmerges] at hg'
              exact ⟨_, hother, .deeper hg hg'⟩
          | folded hsubtype his hfield haccepts hg =>
              have hsame := Label.sameSelection_iff.1 haccepts.2
              have hisField := Label.isField_of_mergesWith hsame.1
              rw [Label.inside_of_isField haccepts.1] at hg'
              refine ⟨_, hsubtype, .deeper hfield (.deeper hg ?_)⟩
              rw [Label.inside_of_isSubtype his,
                Label.inside_of_isField (hisField.symm.trans haccepts.1)]
              exact hg'
      · rintro ⟨child, hchild, happlied⟩
        rcases exists_image_of_normalize h hchild with ⟨node, hnode, hsame, below, hmem, hbelow⟩
        have hmerges := (Label.sameSelection_iff.1 hsame).1
        rcases applied_iff.1 happlied with ⟨hhere, rfl⟩ | ⟨g, hg, hg'⟩
        · exact ⟨node, hnode, .here ((Label.fragment?_of_mergesWith hmerges).trans hhere)⟩
        · by_cases htaken : child.label.isSubtype = true ∧ Takes (· ∈ children) g
          · -- The field goes, but what is applied below it comes to the field beside it.
            rcases htaken with ⟨his, field, hfield, haccepts⟩
            have hsameField := (Label.sameSelection_iff.1 haccepts.2).1
            have hisField := (Label.isField_of_mergesWith hsameField).symm.trans haccepts.1
            rw [Label.inside_of_isSubtype his] at hg'
            rcases applied_iff.1 hg' with ⟨hhere, -⟩ | hbelowField
            · rw [Label.fragment?_of_isField hisField] at hhere
              cases hhere
            · rw [Label.inside_of_isField hisField] at hbelowField
              rcases hbelowField with ⟨g', hgMem, hg'⟩
              rcases exists_image_of_normalize h hfield with
                ⟨node', hnode', hsame', below', hmem', hbelow'⟩
              have hnodeField := (Label.isField_of_mergesWith
                (Label.sameSelection_iff.1 hsame').1).trans haccepts.1
              refine ⟨node', hnode', applied_iff.2 (.inr ?_)⟩
              rw [Label.inside_of_isField hnodeField]
              exact (ih hbelow').2 ⟨g', (hmem' g').2 (.folded hchild his hg haccepts hgMem), hg'⟩
          · have hkept : child.label.isSubtype = true → ¬ Takes (· ∈ children) g :=
              fun his htakes => htaken ⟨his, htakes⟩
            refine ⟨node, hnode, applied_iff.2 (.inr ?_)⟩
            rw [Label.inside_of_mergesWith hmerges]
            exact (ih hbelow).2
              ⟨g, (hmem g).2 (.child hchild (Label.mergesWith_refl _) hg hkept), hg'⟩

/-! ## Extraction -/

/-- A definition applies a fragment, outside of any definition in it. -/
def AppliedIn (fragments : List FragmentDefinition) (definition name : String) : Prop :=
  ∃ f ∈ fragments, f.name = definition ∧ AppliedAmong none f.children none name

theorem appliedIn_define {fragment : FragmentDefinition} {defined : List FragmentDefinition}
    {definition : String} (h : define fragment found = .ok defined) :
    AppliedIn defined definition name ↔ AppliedIn found definition name ∨
      (fragment.name = definition ∧ AppliedAmong none fragment.children none name) :=
  exists_define_iff (P := fun found _ => found = definition)
    (Q := fun children => AppliedAmong none children none name) h fun _ _ => appliedAmong_append

/-- Definitions that are taken out leave spreads behind where they were applied, and apply
themselves what was applied in them. -/
theorem applied_of_extraction (h : Extraction found children out last) :
    (∀ name, AppliedAmong none out none name ↔ AppliedAmong none children none name) ∧
      ∀ definition name, AppliedIn last definition name ↔
        AppliedIn found definition name ∨ AppliedAmong none children (some definition) name := by
  induction h with
  | nil => exact ⟨fun _ => Iff.rfl, fun _ _ => by simp [not_appliedAmong_nil]⟩
  | @keep found mid last label children below rest nodes hlabel _ _ ihBelow ihRest =>
      have hinside : label.inside none = none := by
        cases label with
        | fragment definition type => exact absurd rfl (hlabel definition type)
        | _ => rfl
      refine ⟨fun name => ?_, fun definition name => ?_⟩
      · rw [appliedAmong_cons, appliedAmong_cons, applied_iff, applied_iff, ihRest.1]
        simp only [Selection.label, Selection.children, hinside, ihBelow.1]
      · rw [ihRest.2, ihBelow.2, appliedAmong_cons, applied_iff]
        simp only [Selection.label, Selection.children, hinside, reduceCtorEq, and_false,
          false_or, or_assoc]
  | @define found mid defined last definition type children below rest nodes _ hdefine _ ihBelow
      ihRest =>
      -- Within the definition, it is around all places but those in definitions of its own.
      have hwithin : ∀ around name, AppliedAmong (some definition) children around name ↔
          (around = some definition ∧ AppliedAmong none children none name) ∨
            ∃ inner, around = some inner ∧ AppliedAmong none children (some inner) name :=
        fun _ _ => appliedAmong_iff_none
      refine ⟨fun name => ?_, fun around name => ?_⟩
      · rw [appliedAmong_cons, appliedAmong_cons, applied_iff, applied_iff, ihRest.1]
        simp [Selection.label, Selection.children, Label.fragment?, Label.inside,
          not_appliedAmong_nil, hwithin]
      · rw [ihRest.2, appliedIn_define hdefine, ihBelow.2, appliedAmong_cons, applied_iff]
        simp only [Selection.label, Selection.children, Label.inside, hwithin, ihBelow.1,
          reduceCtorEq, and_false, false_or, Option.some.injEq, exists_eq_left']
        simp only [eq_comm, or_assoc, or_comm, or_left_comm]

/-! ## Empty selections -/

/-- Nothing is applied in what selects nothing. -/
theorem not_applied_of_isVoid (hvoid : node.isVoid = true) : ¬ Applied outer node around name := by
  rcases Bool.and_eq_true_iff.1 hvoid with ⟨hneeds, hempty⟩
  rw [applied_iff, Label.fragment?_of_needsChildren hneeds, List.isEmpty_iff.1 hempty]
  simp [not_appliedAmong_nil]

theorem appliedAmong_elideAll_of_forall
    (hall : ∀ child ∈ children, ∀ outer,
      Applied outer (elide child) around name ↔ Applied outer child around name) :
    AppliedAmong outer (elideAll children) around name ↔
      AppliedAmong outer children around name := by
  constructor
  · rintro ⟨node, hnode, h⟩
    rcases mem_elideAll.1 hnode with ⟨child, hchild, rfl, -⟩
    exact ⟨child, hchild, (hall child hchild outer).1 h⟩
  · rintro ⟨child, hchild, h⟩
    have helided := (hall child hchild outer).2 h
    have hfilled := Bool.eq_false_iff.2 fun hvoid => not_applied_of_isVoid hvoid helided
    exact ⟨_, mem_elideAll.2 ⟨child, hchild, rfl, hfilled⟩, helided⟩

theorem applied_elide :
    Applied outer (elide node) around name ↔ Applied outer node around name := by
  induction node generalizing outer with
  | node label children ih =>
      rw [elide, applied_iff, applied_iff]
      exact or_congr_right (appliedAmong_elideAll_of_forall fun child hchild _ => ih child hchild)

theorem appliedAmong_elideAll : AppliedAmong outer (elideAll children) around name ↔
    AppliedAmong outer children around name :=
  appliedAmong_elideAll_of_forall fun _ _ _ => applied_elide

/-! ## Spreads -/

/-- A tree that holds no definitions. -/
abbrev DefinitionFree : Selection → Prop := Every fun label => label.isDefinition = false

theorem definitionFree_of_extraction (h : Extraction found children out last)
    (hfound : ∀ f ∈ found, ∀ child ∈ f.children, DefinitionFree child) :
    (∀ node ∈ out, DefinitionFree node) ∧
      ∀ f ∈ last, ∀ child ∈ f.children, DefinitionFree child := by
  induction h with
  | nil => exact ⟨nofun, hfound⟩
  | @keep _ _ _ label _ _ _ _ hlabel _ _ ihBelow ihRest =>
      have hhere : label.isDefinition = false := by
        cases label with
        | fragment definition type => exact absurd rfl (hlabel definition type)
        | _ => rfl
      rcases ihBelow hfound with ⟨hbelow, hmid⟩
      rcases ihRest hmid with ⟨hrest, hlast⟩
      exact ⟨List.forall_mem_cons.2 ⟨.node hhere hbelow, hrest⟩, hlast⟩
  | define _ hdefine _ ihBelow ihRest =>
      rcases ihBelow hfound with ⟨hbelow, hmid⟩
      rcases ihRest (forall_children_of_define hdefine hbelow hmid) with ⟨hrest, hlast⟩
      exact ⟨List.forall_mem_cons.2 ⟨.node rfl nofun, hrest⟩, hlast⟩

/-- Without definitions, fragments are applied by spreads only. -/
theorem applied_iff_contains (h : DefinitionFree node) :
    Applied none node none name ↔ ∃ type, node.Contains (.spread name type) := by
  induction node with
  | node label children ih =>
      have hbelow : AppliedAmong none children none name ↔
          ∃ type, ∃ child ∈ children, child.Contains (.spread name type) := by
        rw [exists_comm]
        refine exists_congr fun child => ?_
        rw [exists_and_left]
        exact and_congr_right fun hchild => ih child hchild (h.children child hchild)
      have hhere : label.fragment? = some name ↔ ∃ type, .spread name type = label := by
        have hnot := h.holds
        cases label <;> simp_all [Label.fragment?, Selection.label, Label.isDefinition, eq_comm]
      have hinside : label.inside none = none := by
        have hnot := h.holds
        cases label <;> first | rfl | cases hnot
      have hcontains : ∀ type, (Selection.node label children).Contains (.spread name type) ↔
          .spread name type = label ∨ ∃ child ∈ children, child.Contains (.spread name type) :=
        fun _ => contains_iff
      rw [applied_iff]
      simp only [Selection.label, Selection.children, hinside, hbelow, hhere, hcontains, and_true,
        exists_or]

/-- Definitions that change keep the fragments that they apply if their children do. -/
theorem appliedIn_of_forall₂ {definition : String}
    (h : List.Forall₂ (fun (f g : FragmentDefinition) => g.name = f.name ∧
      (AppliedAmong none g.children none name ↔ AppliedAmong none f.children none name))
        found last) :
    AppliedIn last definition name ↔ AppliedIn found definition name := by
  constructor
  · rintro ⟨g, hg, rfl, happlied⟩
    rcases Outcome.mem_right h hg with ⟨f, hf, hname, hiff⟩
    exact ⟨f, hf, hname.symm, hiff.1 happlied⟩
  · rintro ⟨f, hf, rfl, happlied⟩
    rcases Outcome.mem_left h hf with ⟨g, hg, hname, hiff⟩
    exact ⟨g, hg, hname, hiff.2 happlied⟩

end Selection

/-- All definitions are taken out: none is left in the operation or in one of them. They are all
that is not printed where it stands. -/
structure Pruned.DefinitionFree (pruned : Pruned) : Prop where
  root : Selection.DefinitionFree pruned.root
  fragments : ∀ f ∈ pruned.fragments, ∀ child ∈ f.children, Selection.DefinitionFree child

/-- The definition of a fragment spreads another one, or itself. -/
def Pruned.Spreads (pruned : Pruned) (definition name : String) : Prop :=
  ∃ f ∈ pruned.fragments, f.name = definition ∧
    ∃ child ∈ f.children, ∃ type, child.Contains (.spread name type)

namespace Selection

theorem definitionFree_of_prune {limit : Nat} {tree : Selection} {pruned : Pruned}
    (h : tree.prune limit = .ok pruned) (hfield : tree.label.isField = true) :
    pruned.DefinitionFree := by
  rcases prune_eq_ok h with ⟨children, nodes, found, fragments, p⟩
  rcases definitionFree_of_extraction p.extracted nofun with ⟨hnodes, hfound⟩
  have hroot : tree.label.isDefinition = false := by
    cases htree : tree.label <;> rw [htree] at hfield <;> first | rfl | cases hfield
  refine ⟨?_, fun f hf child hchild => ?_⟩
  · rw [p.root]
    exact every_elide (every_substitute (fun _ _ => rfl) fragments (.node hroot hnodes))
  · rcases Outcome.mem_right p.fragmentsElided hf with ⟨g, hg, -, -, hchildren, -⟩
    rcases Outcome.mem_right p.fragmentsNormal hg with ⟨k, hk, -, -, hnormal⟩
    rw [hchildren] at hchild
    rcases mem_elideAll.1 hchild with ⟨c, hc, rfl, -⟩
    exact every_elide (every_of_normalize hnormal (hfound k hk) c hc)

/-- The definitions of a pruned query spread the fragments that are applied in them in the tree, and
no other ones. -/
theorem spreads_of_prune {limit : Nat} {tree : Selection} {pruned : Pruned}
    (h : tree.prune limit = .ok pruned) (hfield : tree.label.isField = true)
    (definition name : String) :
    pruned.Spreads definition name ↔ Applied none tree (some definition) name := by
  rcases prune_eq_ok h with ⟨children, nodes, found, fragments, p⟩
  have hfree := (definitionFree_of_prune h hfield).fragments
  have hspreads : pruned.Spreads definition name ↔
      AppliedIn pruned.fragments definition name := by
    refine exists_congr fun f => and_congr_right fun hf => and_congr_right fun _ => ?_
    refine exists_congr fun child => and_congr_right fun hchild => ?_
    exact (applied_iff_contains (hfree f hf child hchild)).symm
  calc pruned.Spreads definition name
      ↔ AppliedIn pruned.fragments definition name := hspreads
    _ ↔ AppliedIn fragments definition name :=
        appliedIn_of_forall₂ (p.fragmentsElided.imp fun f g hfg =>
          ⟨hfg.1, by rw [hfg.2.2.1, appliedAmong_elideAll]⟩)
    _ ↔ AppliedIn found definition name :=
        appliedIn_of_forall₂ (p.fragmentsNormal.imp fun f g hfg =>
          ⟨hfg.1, appliedAmong_normalize hfg.2.2⟩)
    _ ↔ AppliedAmong none children (some definition) name := by
        rw [(applied_of_extraction p.extracted).2]
        simp [AppliedIn]
    _ ↔ AppliedAmong none tree.children (some definition) name := appliedAmong_normalize p.normal
    _ ↔ Applied none tree (some definition) name := by
        rw [applied_iff, Label.inside_of_isField hfield]
        simp

end Selection

end GraphQuery
