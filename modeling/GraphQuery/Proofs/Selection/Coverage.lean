import GraphQuery.Proofs.Selection.Paths
import GraphQuery.Proofs.Selection.Spreads

/-!
# Selection.Coverage — pruning loses no path

Each pass deletes nodes on the ground that something else stands in for them. What stands in asks
for every path that the deleted node asked for, so that the pruned query still asks for all paths
of the tree.

- `Selection.selects_of_merges`, `Selection.selects_of_folds`, `Selection.selects_of_normalize`,
  `Selection.selects_of_extraction`, `Selection.selects_substitute`, `Selection.selects_elide` :
  no pass loses a path
- `Selection.selects_of_prune` : neither do all passes together
-/

set_option autoImplicit false

namespace GraphQuery

namespace Selection

variable {s : Schema} {fragments found last : List FragmentDefinition}
  {children merged out : List Selection} {path : List Step}

/-! ## Normal form -/

theorem selects_of_merges (h : Merges children merged) (hp : Selects s fragments children path) :
    Selects s fragments merged path := by
  -- The path goes through one child, which one of the merged nodes stands for.
  rcases hp.exists_mem with ⟨child, hchild, hp⟩
  rcases h.kept child hchild with ⟨node, hnode, hsame, hsub⟩
  exact (hp.replace hsame fun _ _ _ hbelow => hbelow.mono hsub).of_mem hnode

/-- A field that leaves its subtype is asked for beside it, where all types are let through. -/
theorem selects_of_folds (h : Folds children out) (hp : Selects s fragments children path) :
    Selects s fragments out path := by
  rcases hp.exists_mem with ⟨child, hchild, hp⟩
  rcases h.kept child hchild with ⟨node, hnode, hlabel, hkept⟩
  have hsame : node.label.sameSelection child.label = true :=
    hlabel ▸ Label.sameSelection_refl node.label
  by_cases hsubtype : child.label.isSubtype = true
  · -- A subtype is neither a field nor a spread, so the path goes to its children.
    have hnotField : child.label.isField = false := Label.isField_of_isSubtype hsubtype
    cases hp.asks with
    | leaf hreads => exact absurd hreads.1 (by simp [hnotField])
    | deeper hreads => exact absurd hreads.1 (by simp [hnotField])
    | within hnarrows hadmits hbelow =>
        rcases hbelow.exists_mem with ⟨g, hg, hpath⟩
        rcases hkept g hg with hg | ⟨-, field, hfield, hsameField, hsub⟩
        · rw [← hlabel] at hnarrows hadmits
          exact .within hnode hnarrows hadmits (hpath.of_mem hg)
        · -- The field that took the children of `g` stands beside the subtype.
          exact (hpath.replace hsameField fun _ _ _ h => h.mono hsub).of_mem hfield
    | spread hspread =>
        rw [hspread] at hsubtype
        cases hsubtype
  · have hsub : child.children ⊆ node.children := by
      intro g hg
      rcases hkept g hg with hg | ⟨his, -⟩
      · exact hg
      · exact absurd his hsubtype
    exact (hp.replace hsame fun _ _ _ hbelow => hbelow.mono hsub).of_mem hnode

theorem selects_of_normalize {limit levels : Nat} (h : normalize limit levels children = .ok out)
    (hp : Selects s fragments children path) : Selects s fragments out path := by
  induction levels generalizing children out path with
  | zero => cases h
  | succ levels ih =>
      rcases normalize_eq_ok h with ⟨merged, hmerged, hout⟩
      have hfolded : Selects s fragments (foldSubtypes merged) path :=
        selects_of_folds (foldSubtypes_folds merged)
          (selects_of_merges (mergeAll_merges hmerged) hp)
      rcases hfolded.exists_mem with ⟨child, hchild, hpath⟩
      rcases Outcome.mem_left hout hchild with ⟨node, hnode, hlabel, hbelow⟩
      have hsame : node.label.sameSelection child.label = true :=
        hlabel ▸ Label.sameSelection_refl node.label
      exact (hpath.replace hsame fun _ _ _ h => ih hbelow h).of_mem hnode

/-! ## Fragments -/

/-- With all definitions at hand, the spreads that are left behind ask for what the definitions
asked for in their places. -/
theorem selects_of_extraction (h : Extraction found children out last)
    (hgrows : Grows last fragments) (hp : Selects s fragments children path) :
    Selects s fragments out path := by
  -- Definitions found later only add to those found before, so `fragments` has them all.
  induction h generalizing path with
  | nil => exact hp
  | keep _ _ hrest ihBelow ihRest =>
      rcases hp.exists_mem with ⟨node, hnode, hpath⟩
      rcases List.mem_cons.1 hnode with rfl | hnode
      · have hmid := (grows_of_extraction hrest).trans hgrows
        exact (hpath.withChildren fun _ _ _ hbelow => ihBelow hmid hbelow).of_mem List.mem_cons_self
      · exact (ihRest hgrows (hpath.of_mem hnode)).mono (List.subset_cons_self _ _)
  | define _ hdefine hrest ihBelow ihRest =>
      rcases hp.exists_mem with ⟨node, hnode, hpath⟩
      rcases List.mem_cons.1 hnode with rfl | hnode
      · have hlast := (grows_of_extraction hrest).trans hgrows
        rcases grows_of_define hdefine with ⟨hmid, f, hf, hname, htype, hsub⟩
        rcases hlast f hf with ⟨g, hg, hgName, hgType, hgSub⟩
        -- A definition only narrows; the spread in its place asks the same of `g`.
        cases hpath.asks with
        | leaf hreads => cases hreads.1
        | deeper hreads => cases hreads.1
        | within _ hadmits hbelow =>
            have hpaths := ihBelow (hmid.trans hlast) hbelow
            refine .spread List.mem_cons_self ?_ hg ?_ (hpaths.mono (List.Subset.trans hsub hgSub))
            · rw [hgName, hgType, hname, htype]
              rfl
            · rw [hgType, htype]
              exact hadmits
        | spread hspread => cases hspread
      · exact (ihRest hgrows (hpath.of_mem hnode)).mono (List.subset_cons_self _ _)

theorem defined_of_mem_spread {fragment : FragmentDefinition} (hf : fragment ∈ fragments)
    (hfound : ∀ child ∈ children, Defined fragments child.label) {node : Selection}
    (hnode : node ∈ spread fragment children) : Defined fragments node.label := by
  rcases mem_spread hnode with hnode | rfl
  · exact hfound node hnode
  · rintro _ _ ⟨⟩
    exact ⟨fragment, hf, rfl, rfl⟩

/-- A spread of the fragment is there afterwards. One of the same name that was there before is one
of the same fragment. -/
theorem exists_label_mem_spread {fragment : FragmentDefinition} (hd : DistinctNames fragments)
    (hf : fragment ∈ fragments) (hfound : ∀ child ∈ children, Defined fragments child.label) :
    ∃ node ∈ spread fragment children, node.label = .spread fragment.name fragment.type := by
  rcases exists_mem_spread fragment children with ⟨node, hnode, hmerges⟩
  refine ⟨node, hnode, ?_⟩
  have hdefined := defined_of_mem_spread hf hfound hnode
  cases hlabel : node.label with
  | spread name type =>
      rw [hlabel] at hmerges
      have hname : name = fragment.name := by simpa [Label.mergesWith] using hmerges
      rcases hdefined name type hlabel with ⟨g, hg, hgName, hgType⟩
      have heq : g = fragment := List.inj_on_of_nodup_map hd hg hf (hgName.trans hname)
      rw [hname, ← hgType, heq]
  | _ =>
      rw [hlabel] at hmerges
      cases hmerges

/-- Where the objects are of a type that a fragment can have, it can be spread. -/
theorem selects_spread {fragment : FragmentDefinition} (hd : DistinctNames fragments)
    (hf : fragment ∈ fragments) (hfound : ∀ child ∈ children, Defined fragments child.label)
    {step : Step} {rest : List Step} (hadmits : s.Admits fragment.type.typeRef step.type)
    (hp : Selects s fragments children (step :: rest)) :
    Selects s fragments (spread fragment children) (step :: rest) := by
  rcases hp.exists_mem with ⟨child, hchild, hpath⟩
  rcases mem_spread_or_covers fragment hchild with hkept | hcovers
  · exact hpath.of_mem hkept
  · -- The child went because the fragment covers it, so the path is one of the spread.
    have hbelow := selects_of_covers hcovers hpath
    rcases exists_label_mem_spread hd hf hfound with ⟨node, hnode, hlabel⟩
    exact .spread hnode hlabel hf hadmits hbelow

theorem selects_substitute (hd : DistinctNames fragments) {node : Selection}
    (hdefined : Every (Defined fragments) node) (hp : Selects s fragments [node] path) :
    Selects s fragments [substitute fragments node] path := by
  induction node generalizing path with
  | node label children ih =>
      rw [substitute, substituteAll_eq_map]
      refine hp.withChildren ?_
      intro step rest hadmits hbelow
      -- Spreading keeps the path, and needs all spreads among the children to be defined.
      refine (spreadAll_induction (motive := fun found =>
        Selects s fragments found (step :: rest) ∧
          ∀ child ∈ found, Defined fragments child.label) ⟨?_, ?_⟩ ?_).1
      · rcases hbelow.exists_mem with ⟨child, hchild, hpath⟩
        have hsubstituted := ih child hchild (hdefined.children child hchild) hpath
        exact hsubstituted.of_mem (List.mem_map_of_mem hchild)
      · intro child hchild
        rcases List.mem_map.1 hchild with ⟨c, hc, rfl⟩
        rw [label_substitute]
        exact (hdefined.children c hc).holds
      · rintro - fragment hf htype found ⟨hpath, hfound⟩
        refine ⟨selects_spread hd hf hfound ?_ hpath, fun child => defined_of_mem_spread hf hfound⟩
        rw [htype]
        exact hadmits

/-! ## Empty selections -/

theorem not_selects_of_isVoid {node : Selection} (hvoid : node.isVoid = true) :
    ¬ Selects s fragments [node] path := by
  rcases node with ⟨label, children⟩
  rcases Bool.and_eq_true_iff.1 hvoid with ⟨hneeds, hempty⟩
  obtain rfl : children = [] := List.isEmpty_iff.1 hempty
  intro h
  cases h.asks with
  | leaf _ hleaf =>
      have hopens : label.opens = true := Label.opens_of_needsChildren hneeds
      exact absurd hleaf (by simp [Selection.label, hopens])
  | deeper _ _ _ hbelow => exact not_selects_nil hbelow
  | within _ _ hbelow => exact not_selects_nil hbelow
  | spread hspread =>
      obtain rfl : label = _ := hspread
      cases hneeds

theorem selects_elideAll_of_forall
    (hall : ∀ child ∈ children, ∀ path, Selects s fragments [child] path →
      Selects s fragments [elide child] path)
    (hp : Selects s fragments children path) : Selects s fragments (elideAll children) path := by
  rcases hp.exists_mem with ⟨child, hchild, hpath⟩
  have helided : Selects s fragments [elide child] path := hall child hchild path hpath
  -- What asks for a path is not void, so it is not left out.
  refine helided.of_mem (mem_elideAll.2 ⟨child, hchild, rfl, ?_⟩)
  exact Bool.eq_false_iff.2 fun hvoid => not_selects_of_isVoid hvoid helided

theorem selects_elide {node : Selection} (hp : Selects s fragments [node] path) :
    Selects s fragments [elide node] path := by
  induction node generalizing path with
  | node label children ih =>
      rw [elide]
      refine hp.withChildren fun _ _ _ hbelow => ?_
      exact selects_elideAll_of_forall (fun c hc _ h => ih c hc h) hbelow

theorem selects_elideAll (hp : Selects s fragments children path) :
    Selects s fragments (elideAll children) path :=
  selects_elideAll_of_forall (fun _ _ _ h => selects_elide h) hp

/-! ## All passes -/

section Prunes

variable {limit : Nat} {tree : Selection} {pruned : Pruned} {nodes : List Selection}

theorem Prunes.distinctNames (p : Prunes limit tree pruned children nodes found fragments) :
    DistinctNames fragments := by
  have hfound : DistinctNames found := distinctNames_of_extraction p.extracted List.nodup_nil
  exact hfound.of_forall₂ (p.fragmentsNormal.imp fun _ _ h => h.1)

/-- Before definitions are spread, all spreads are those of extracted definitions. -/
theorem Prunes.defined {tree : Unpruned}
    (p : Prunes limit tree.root pruned children nodes found fragments) :
    Every (Defined fragments) (.node tree.root.label nodes) := by
  have hnames : ∀ f ∈ found, ∃ g ∈ fragments, g.name = f.name ∧ g.type = f.type := by
    intro f hf
    rcases Outcome.mem_left p.fragmentsNormal hf with ⟨g, hg, hname, htype, -⟩
    exact ⟨g, hg, hname, htype⟩
  refine .node (defined_of_isSpread_eq_false tree.spreadFree.holds) ?_
  intro node hnode
  have hnodes := defined_of_extraction p.extracted
    (every_of_normalize p.normal tree.spreadFree.children)
  exact (hnodes node hnode).imp fun _ hdefined => hdefined.of_names hnames

end Prunes

/-- Every spread of a pruned query has at most one definition to be read as. -/
theorem distinctNames_of_prune {limit : Nat} {tree : Selection} {pruned : Pruned}
    (h : tree.prune limit = .ok pruned) : DistinctNames pruned.fragments := by
  rcases prune_eq_ok h with ⟨children, nodes, found, fragments, p⟩
  exact p.distinctNames.of_forall₂ (p.fragmentsElided.imp fun _ _ h => h.1)

/-- Whatever a tree asks for is asked for by its pruned query. -/
theorem selects_of_prune {limit : Nat} {tree : Unpruned} {pruned : Pruned}
    (h : tree.root.prune limit = .ok pruned) (hp : Selects s [] [tree.root] path) :
    Selects s pruned.fragments [pruned.root] path := by
  rcases prune_eq_ok h with ⟨children, nodes, found, fragments, p⟩
  have hnormalized : Refines s found fragments := by
    intro f hf
    rcases Outcome.mem_left p.fragmentsNormal hf with ⟨g, hg, hname, htype, hnormal⟩
    exact ⟨g, hg, hname, htype, fun _ h => selects_of_normalize hnormal h⟩
  have helided : Refines s fragments pruned.fragments := by
    intro f hf
    rcases Outcome.mem_left p.fragmentsElided hf with ⟨g, hg, hname, htype, hchildren, -⟩
    refine ⟨g, hg, hname, htype, fun _ h => ?_⟩
    rw [hchildren]
    exact selects_elideAll h
  -- Without spreads, the tree asks for its paths whatever fragments there are.
  have hextracted : Selects s found [.node tree.root.label nodes] path := by
    rcases tree with ⟨⟨label, below⟩, _⟩
    refine (hp.refine nofun).withChildren fun _ _ _ hbelow => ?_
    exact selects_of_extraction p.extracted (.refl found) (selects_of_normalize p.normal hbelow)
  have hsubstituted := selects_substitute p.distinctNames p.defined
    (hextracted.refine hnormalized)
  rw [p.root]
  exact (selects_elide hsubstituted).refine helided

end Selection

end GraphQuery
