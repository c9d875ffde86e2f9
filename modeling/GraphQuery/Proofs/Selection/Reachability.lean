import GraphQuery.Proofs.Selection.Coverage
import GraphQuery.Proofs.Selection.Nesting

/-!
# Selection.Reachability — fragments that are spread, and those that are reached

Pruning takes definitions out of the tree, deletes what a fragment covers and leaves spreads in
both places. So what is spread is defined. And whatever is defined is reached from the operation:
where the place of a spread goes with a covered child, the fragment that covers it spreads the same.

- `Selection.Reaches` : the fragments that spreads lead to
- `Selection.reaches_of_extraction` : every definition that is taken out is reached
- `Selection.reaches_substitute` : and is so after fragments have been spread
- `Selection.reaches_of_prune` : the definitions of a pruned query
- `Selection.defined_of_prune` : the spreads of a pruned query
-/

set_option autoImplicit false

namespace GraphQuery

namespace Selection

variable {limit levels : Nat} {name : String} {outer around : Option String} {node : Selection}
  {children nodes out candidates : List Selection}
  {fragments found mid last : List FragmentDefinition}

/-- The fragments that are applied in the nodes, and those that are applied in their definitions,
and so on. -/
inductive Reaches (nodes : List Selection) (fragments : List FragmentDefinition) :
    String → Prop where
  | here {name : String} : AppliedAmong none nodes none name → Reaches nodes fragments name
  | through {definition name : String} :
      Reaches nodes fragments definition → AppliedIn fragments definition name →
      Reaches nodes fragments name

/-- What is reached stays so where each step can still be taken, be it by a detour. -/
theorem Reaches.imp (h : Reaches nodes fragments name)
    (hnodes : ∀ name, AppliedAmong none nodes none name → Reaches out last name)
    (hfragments : ∀ definition name, AppliedIn fragments definition name →
      AppliedIn last definition name) : Reaches out last name := by
  induction h with
  | here happlied => exact hnodes _ happlied
  | through _ happlied ih => exact .through ih (hfragments _ _ happlied)

/-! ## Extraction -/

theorem AppliedAmong.mono (h : AppliedAmong outer nodes around name) (hsub : nodes ⊆ out) :
    AppliedAmong outer out around name := by
  rcases h with ⟨node, hnode, happlied⟩
  exact ⟨node, hsub hnode, happlied⟩

theorem AppliedIn.grow {definition : String} (h : AppliedIn found definition name)
    (hgrows : Grows found last) : AppliedIn last definition name := by
  rcases h with ⟨f, hf, rfl, happlied⟩
  rcases hgrows f hf with ⟨g, hg, hname, -, hsub⟩
  exact ⟨g, hg, hname, happlied.mono hsub⟩

/-- Every definition that was not there before is reached from what is left of the nodes: each
leaves a spread in its place, and that place is in the nodes or in another definition. -/
theorem reaches_of_extraction (h : Extraction found children out last) :
    ∀ f ∈ last, (∃ g ∈ found, g.name = f.name) ∨ Reaches out last f.name := by
  induction h with
  | nil => exact fun f hf => .inl ⟨f, hf, rfl⟩
  | @keep found mid last label children below rest nodes hlabel _ hrest ihBelow ihRest =>
      have hinside : label.inside none = none := by
        cases label with
        | fragment definition type => exact absurd rfl (hlabel definition type)
        | _ => rfl
      have hgrows := grows_of_extraction hrest
      intro f hf
      rcases ihRest f hf with ⟨g, hg, hname⟩ | hreaches
      · rw [← hname]
        refine (ihBelow g hg).imp_right fun hreaches => ?_
        refine hreaches.imp (fun name happlied => .here ?_) fun _ _ happlied => happlied.grow hgrows
        refine appliedAmong_cons.2 (.inl (applied_iff.2 (.inr ?_)))
        rw [Selection.label, hinside]
        exact happlied
      · exact .inr (hreaches.imp (fun name happlied => .here (appliedAmong_cons.2 (.inr happlied)))
          fun _ _ happlied => happlied)
  | @define found mid defined last definition type children below rest nodes _ hdefine hrest ihBelow
      ihRest =>
      have hgrows := grows_of_extraction hrest
      rcases grows_of_define hdefine with ⟨hmid, k, hk, hkName, -, hsub⟩
      have hhere : Reaches (.node (.spread definition type) [] :: nodes) last definition :=
        .here (appliedAmong_cons.2 (.inl (.here rfl)))
      intro f hf
      rcases ihRest f hf with ⟨g, hg, hname⟩ | hreaches
      · rw [← hname]
        rcases mem_of_define hdefine g hg with ⟨i, hi, hiName, -⟩ | ⟨hdefinition, -⟩
        · rw [← hiName]
          refine (ihBelow i hi).imp_right fun hreaches => ?_
          -- What the definition applied itself is reached through it.
          refine hreaches.imp (fun name happlied => hhere.through ?_)
            fun _ _ happlied => (happlied.grow hmid).grow hgrows
          exact AppliedIn.grow ⟨k, hk, hkName, happlied.mono hsub⟩ hgrows
        · rw [hdefinition]
          exact .inr hhere
      · exact .inr (hreaches.imp (fun name happlied => .here (appliedAmong_cons.2 (.inr happlied)))
          fun _ _ happlied => happlied)

/-! ## Substitution -/

/-- What is applied in a covered node is applied in what covers it. -/
theorem appliedAmong_of_covers (hcovers : covers candidates node = true)
    (h : Applied outer node around name) : AppliedAmong outer candidates around name := by
  induction node generalizing outer candidates with
  | node label children ih =>
      rcases covers_iff.1 hcovers with ⟨candidate, hcandidate, hsame, hbelow⟩
      have hmerges := (Label.sameSelection_iff.1 hsame).1
      refine ⟨candidate, hcandidate, ?_⟩
      rcases applied_iff.1 h with ⟨hhere, rfl⟩ | ⟨child, hchild, happlied⟩
      · exact .here ((Label.fragment?_of_mergesWith hmerges).trans hhere)
      · refine applied_iff.2 (.inr ?_)
        rw [Label.inside_of_mergesWith hmerges]
        exact ih child hchild (hbelow child hchild) happlied

theorem DefinitionFree.inside_eq_none (h : DefinitionFree node) :
    node.label.inside none = none := by
  have hnot := h.holds
  cases hlabel : node.label with
  | fragment definition type =>
      rw [hlabel] at hnot
      cases hnot
  | _ => rfl

/-- A child that goes is covered by the fragment, which is spread from then on. -/
theorem reaches_spread {fragment : FragmentDefinition} (hf : fragment ∈ fragments)
    (h : Reaches nodes fragments name) : Reaches (spread fragment nodes) fragments name := by
  refine h.imp ?_ fun _ _ happlied => happlied
  rintro name ⟨child, hchild, happlied⟩
  rcases mem_spread_or_covers fragment hchild with hkept | hcovers
  · exact .here ⟨child, hkept, happlied⟩
  · rcases exists_mem_spread fragment nodes with ⟨node, hnode, hmerges⟩
    have hspread : Reaches (spread fragment nodes) fragments fragment.name :=
      .here ⟨node, hnode, .here (Label.fragment?_of_mergesWith hmerges)⟩
    exact hspread.through ⟨fragment, hf, rfl, appliedAmong_of_covers hcovers happlied⟩

theorem reaches_substitute (hfree : DefinitionFree node) (h : Applied none node none name) :
    Reaches [substitute fragments node] fragments name := by
  induction node generalizing name with
  | node label children ih =>
      have hinside : label.inside none = none := hfree.inside_eq_none
      rw [substitute, substituteAll_eq_map]
      rcases applied_iff.1 h with ⟨hhere, -⟩ | ⟨child, hchild, happlied⟩
      · exact .here ⟨_, List.mem_singleton_self _, .here hhere⟩
      · rw [Selection.label, hinside] at happlied
        have hchildren : Reaches (children.map (substitute fragments)) fragments name :=
          (ih child hchild (hfree.children child hchild) happlied).imp
            (fun _ happlied => .here (happlied.mono (List.cons_subset.2
              ⟨List.mem_map_of_mem hchild, List.nil_subset _⟩))) fun _ _ happlied => happlied
        have hspread : Reaches (spreadAll fragments label (children.map (substitute fragments)))
            fragments name :=
          spreadAll_induction (motive := fun found => Reaches found fragments name) hchildren
            fun _ _ hf _ _ hfound => reaches_spread hf hfound
        refine hspread.imp (fun _ happlied => .here ⟨_, List.mem_singleton_self _, ?_⟩)
          fun _ _ happlied => happlied
        refine applied_iff.2 (.inr ?_)
        rw [Selection.label, hinside]
        exact happlied

/-! ## All passes -/

section Prunes

variable {tree : Selection} {pruned : Pruned}

/-- Before fragments are spread, every definition is reached from the tree. -/
theorem Prunes.reaches (p : Prunes limit tree pruned children nodes found fragments) :
    ∀ f ∈ fragments, Reaches nodes fragments f.name := by
  intro f hf
  rcases Outcome.mem_right p.fragmentsNormal hf with ⟨g, hg, hname, -, -⟩
  rcases reaches_of_extraction p.extracted g hg with ⟨_, hnone, -⟩ | hreaches
  · cases hnone
  · rw [hname]
    refine hreaches.imp (fun _ happlied => .here happlied) fun _ _ happlied => ?_
    exact (appliedIn_of_forall₂ (p.fragmentsNormal.imp fun _ _ h =>
      ⟨h.1, appliedAmong_normalize h.2.2⟩)).2 happlied

/-- Every definition of a pruned query is reached from its operation. -/
theorem reaches_of_prune (h : tree.prune limit = .ok pruned)
    (hfield : tree.label.isField = true) :
    ∀ f ∈ pruned.fragments, Reaches [pruned.root] pruned.fragments f.name := by
  rcases prune_eq_ok h with ⟨children, nodes, found, fragments, p⟩
  have hfree : DefinitionFree (.node tree.label nodes) := by
    refine .node ?_ (definitionFree_of_extraction p.extracted nofun).1
    cases htree : tree.label <;> rw [htree] at hfield <;> first | rfl | cases hfield
  intro f hf
  rcases Outcome.mem_right p.fragmentsElided hf with ⟨g, hg, hname, -, -, -⟩
  rw [hname]
  have hsubstituted : Reaches [substitute fragments (.node tree.label nodes)] fragments g.name := by
    refine (p.reaches g hg).imp (fun name happlied => ?_) fun _ _ happlied => happlied
    refine reaches_substitute hfree (applied_iff.2 (.inr ?_))
    rw [hfree.inside_eq_none]
    exact happlied
  refine hsubstituted.imp ?_ fun _ _ happlied => ?_
  · rintro name ⟨node, hnode, happlied⟩
    obtain rfl := List.mem_singleton.1 hnode
    refine .here ⟨_, List.mem_singleton_self _, ?_⟩
    rw [p.root]
    exact applied_elide.2 happlied
  · refine (appliedIn_of_forall₂ (p.fragmentsElided.imp fun _ _ h => ⟨h.1, ?_⟩)).2 happlied
    rw [h.2.2.1]
    exact appliedAmong_elideAll

/-! ## Spreads that are defined -/

theorem Every.contains {P : Label → Prop} {label : Label} (h : Every P node)
    (hcontains : node.Contains label) : P label := by
  induction hcontains with
  | here => exact h.holds
  | deeper hchild _ ih => exact ih (h.children _ hchild)

theorem defined_of_mem {fragment : FragmentDefinition} (h : fragment ∈ fragments) :
    Defined fragments (.spread fragment.name fragment.type) := by
  rintro _ _ ⟨⟩
  exact ⟨fragment, h, rfl, rfl⟩

/-- The definitions, too, spread only fragments that are defined in the end. -/
theorem everyBelow_defined_of_extraction (h : Extraction found children out last)
    (hfree : ∀ child ∈ children, SpreadFree child)
    (hfound : ∀ f ∈ found, EveryBelow (Defined found) f) :
    ∀ f ∈ last, EveryBelow (Defined last) f := by
  induction h with
  | nil => exact hfound
  | keep _ _ _ ihBelow ihRest =>
      rcases List.forall_mem_cons.1 hfree with ⟨hnode, hothers⟩
      exact ihRest hothers (ihBelow hnode.children hfound)
  | define hbelow hdefine _ ihBelow ihRest =>
      rcases List.forall_mem_cons.1 hfree with ⟨hnode, hothers⟩
      rcases grows_of_define hdefine with ⟨hgrows, -⟩
      refine ihRest hothers (forall_children_of_define hdefine ?_ ?_)
      · intro child hchild
        have hdefined := defined_of_extraction hbelow hnode.children child hchild
        exact hdefined.imp fun _ hlabel => hlabel.grow hgrows
      · intro f hf child hchild
        exact (ihBelow hnode.children hfound f hf child hchild).imp fun _ hlabel =>
          hlabel.grow hgrows

/-- Every spread of a pruned query, in its operation or in a definition, has a definition of its
name and type. -/
theorem defined_of_prune {tree : Unpruned} (h : tree.root.prune limit = .ok pruned) :
    Every (Defined pruned.fragments) pruned.root ∧
      ∀ f ∈ pruned.fragments, EveryBelow (Defined pruned.fragments) f := by
  rcases prune_eq_ok h with ⟨children, nodes, found, fragments, p⟩
  have hnames : ∀ f ∈ fragments, ∃ g ∈ pruned.fragments, g.name = f.name ∧ g.type = f.type := by
    intro f hf
    rcases Outcome.mem_left p.fragmentsElided hf with ⟨g, hg, hname, htype, -⟩
    exact ⟨g, hg, hname, htype⟩
  refine ⟨?_, fun f hf child hchild => ?_⟩
  · rw [p.root]
    exact every_elide ((every_substitute_of_mem (fun _ => defined_of_mem) p.defined).imp
      fun _ hlabel => hlabel.of_names hnames)
  · rcases Outcome.mem_right p.fragmentsElided hf with ⟨g, hg, -, -, hchildren, -⟩
    rcases Outcome.mem_right p.fragmentsNormal hg with ⟨k, hk, -, -, hnormal⟩
    rw [hchildren] at hchild
    rcases mem_elideAll.1 hchild with ⟨c, hc, rfl, -⟩
    have hfound := everyBelow_defined_of_extraction p.extracted
      (every_of_normalize p.normal tree.spreadFree.children) nofun k hk
    refine every_elide ((every_of_normalize hnormal hfound c hc).imp fun _ hlabel => ?_)
    refine hlabel.of_names fun i hi => ?_
    rcases Outcome.mem_left p.fragmentsNormal hi with ⟨j, hj, hname, htype, -⟩
    rcases hnames j hj with ⟨m, hm, hmName, hmType⟩
    exact ⟨m, hm, hmName.trans hname, hmType.trans htype⟩

end Prunes

end Selection

end GraphQuery
