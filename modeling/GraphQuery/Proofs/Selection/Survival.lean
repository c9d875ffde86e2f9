import GraphQuery.Proofs.Selection.Places
import GraphQuery.Proofs.Selection.Reachability

/-!
# Selection.Survival — where pruning leaves the fields of a tree

Extraction takes nodes to the definition of their fragment, where they stand anyway. What a
fragment covers stands at the same place below the spread. And whatever selects something is left
when empty selections go. So a field only changes its place when normal form folds it outward.

- `Selection.stands_hollow`, `Selection.exists_stands_of_supplies` : extraction
- `Selection.stands_of_covers`, `Selection.stands_substitute` : substitution
- `Selection.stands_elideAll` : empty selections
- `Selection.kept_of_prune` : all passes together
-/

set_option autoImplicit false

namespace GraphQuery

namespace Selection

variable {s : Schema} {limit : Nat} {owner object : TypeRef} {start place : Place}
  {admits : TypeRef → TypeRef → Prop}
  {nodes children candidates : List Selection} {node : Selection}
  {fragments found last : List FragmentDefinition} {name : String} {type : GraphType}

/-! ## Extraction -/

theorem hollow_eq (node : Selection) :
    (∃ name type, node.label = .fragment name type ∧ hollow node = .node (.spread name type) []) ∨
      (node.label.isDefinition = false ∧
        hollow node = .node node.label (node.children.map hollow)) := by
  rcases node with ⟨label, children⟩
  cases label with
  | fragment name type => exact .inl ⟨name, type, rfl, by rw [hollow]⟩
  | _ => exact .inr ⟨rfl, hollow_of_ne_fragment fun name type h => by cases h⟩

theorem hollow_of_isField (h : node.label.isField = true) :
    hollow node = .node node.label (node.children.map hollow) := by
  rcases hollow_eq node with ⟨name, type, hlabel, -⟩ | ⟨-, heq⟩
  · rw [hlabel] at h
    cases h
  · exact heq

theorem Solid.hollow (h : node.Solid) : (hollow node).Solid := by
  induction h with
  | @leaf label children hneeds =>
      rcases hollow_eq (.node label children) with ⟨name, type, -, heq⟩ | ⟨-, heq⟩ <;> rw [heq]
      · exact .leaf rfl
      · exact .leaf hneeds
  | @deeper label children child hchild _ ih =>
      rcases hollow_eq (.node label children) with ⟨name, type, -, heq⟩ | ⟨-, heq⟩ <;> rw [heq]
      · exact .leaf rfl
      · exact .deeper (List.mem_map_of_mem hchild) ih

theorem standsFor_hollow (h : node.label.isField = true) : (hollow node).StandsFor node := by
  refine ⟨?_, Solid.hollow⟩
  rw [hollow_of_isField h]
  exact Label.sameSelection_refl _

theorem Supplies.deeper {first g : Selection} (h : Supplies first.children name type g)
    (hfirst : first ∈ nodes) : Supplies nodes name type g := by
  rcases h with ⟨child, hchild, definition, hholds, hrest⟩
  exact ⟨first, hfirst, definition, .deeper hchild hholds, hrest⟩

/-- What stands in a tree stands in what is left of it, or in what is taken out of it. -/
theorem stands_hollow (h : Stands admits [] start nodes place node) :
    Stands admits [] start (nodes.map hollow) place (hollow node) ∨
      ∃ name type object g, Supplies nodes name type g ∧ admits type.typeRef object ∧
        Stands admits [] ⟨some name, [], object, type.typeRef⟩ [g] place (hollow node) := by
  induction h with
  | here hnode => exact .inl (.here (List.mem_map_of_mem hnode))
  | @deeper start next place nodes first _ hfirst hinto _ ih =>
      rcases ih with hs | ⟨name, type, object, g, hsupplies, hrest⟩
      · rcases hollow_eq first with ⟨name, type, hlabel, -⟩ | ⟨-, heq⟩
        · -- The node is below a definition.
          rcases hs.exists_mem with ⟨g, hg, hs⟩
          rcases List.mem_map.1 hg with ⟨k, hk, rfl⟩
          rw [hlabel] at hinto
          cases hinto with
          | fragment hadmits =>
              exact .inr ⟨name, type, _, _, ⟨first, hfirst, first, .here, hlabel, k, hk, rfl⟩,
                hadmits, hs⟩
        · have hleft : start.Into admits (hollow first).label next := by rwa [heq]
          refine .inl (.deeper (List.mem_map_of_mem hfirst) hleft ?_)
          rwa [heq]
      · exact .inr ⟨name, type, object, g, hsupplies.deeper hfirst, hrest⟩
  | spread _ _ hfragment _ _ => cases hfragment

/-- What stands in what is left of a tree stood in the tree. -/
theorem exists_stands_of_hollow (h : Stands admits [] start (nodes.map hollow) place node)
    (hspread : node.label.isSpread = false) :
    ∃ origin, Stands admits [] start nodes place origin ∧ origin.label = node.label := by
  generalize hleft : nodes.map hollow = left at h
  induction h generalizing nodes with
  | here hnode =>
      subst hleft
      rcases List.mem_map.1 hnode with ⟨origin, horigin, rfl⟩
      rcases hollow_eq origin with ⟨name, type, -, heq⟩ | ⟨-, heq⟩
      · rw [heq] at hspread
        cases hspread
      · exact ⟨origin, .here horigin, by rw [heq]; rfl⟩
  | deeper hmem hinto _ ih =>
      subst hleft
      rcases List.mem_map.1 hmem with ⟨first, hfirst, rfl⟩
      rcases hollow_eq first with ⟨name, type, -, heq⟩ | ⟨-, heq⟩
      · rw [heq] at hinto
        cases hinto
      · rw [heq] at hinto ih
        have hleft : first.children.map hollow =
            (Selection.node first.label (first.children.map hollow)).children := rfl
        rcases ih hspread hleft with ⟨origin, horigin, hlabel⟩
        exact ⟨origin, .deeper hfirst hinto horigin, hlabel⟩
  | spread _ _ hfragment _ _ => cases hfragment

/-- What stands in a definition stood in the tree that the definition is taken out of. -/
theorem exists_stands_of_supplies {g : Selection} (ht : AllTyped s owner nodes)
    (hsupplies : Supplies nodes name type g)
    (h : StandsAnyhow ⟨some name, [], object, type.typeRef⟩ [g] place node)
    (hspread : node.label.isSpread = false) :
    ∃ origin, StandsAnyhow start nodes place origin ∧ origin.label = node.label := by
  rcases hsupplies with ⟨child, hchild, definition, hholds, hlabel, k, hk, rfl⟩
  rcases (ht child hchild).exists_stands hholds with ⟨mid, hdefinition⟩
  rw [← List.map_singleton] at h
  rcases exists_stands_of_hollow h hspread with ⟨origin, horigin, horiginLabel⟩
  have hinto : mid.Into anyObject definition.label ⟨some name, [], object, type.typeRef⟩ := by
    rw [hlabel]
    exact .fragment trivial
  exact ⟨origin, (hdefinition.of_mem hchild).descend hinto (horigin.of_mem hk), horiginLabel⟩

/-! ## Substitution -/

/-- What covers a node stands for it. -/
theorem exists_standsFor_of_covers (h : covers candidates node = true) :
    ∃ candidate ∈ candidates, candidate.StandsFor node ∧
      ∀ child ∈ node.children, covers candidate.children child = true := by
  induction node generalizing candidates with
  | node label children ih =>
      rcases covers_iff.1 h with ⟨candidate, hcandidate, hsame, hbelow⟩
      refine ⟨candidate, hcandidate, ⟨hsame, fun hsolid => ?_⟩, hbelow⟩
      refine hsolid.of_children (Label.needsChildren_of_sameSelection hsame) ?_
      rintro ⟨child, hchild, hchildSolid⟩
      rcases ih child hchild (hbelow child hchild) with ⟨k, hk, hstands, -⟩
      exact ⟨k, hk, hstands.solid hchildSolid⟩

/-- Where nodes are covered, what stands there stands in what covers them. -/
theorem stands_of_covers (hcovers : ∀ child ∈ nodes, covers candidates child = true)
    (h : Stands admits fragments start nodes place node) :
    ∃ other, Stands admits fragments start candidates place other ∧ other.StandsFor node := by
  induction h generalizing candidates with
  | here hnode =>
      rcases exists_standsFor_of_covers (hcovers _ hnode) with ⟨other, hother, hstands, -⟩
      exact ⟨other, .here hother, hstands⟩
  | deeper hfirst hinto _ ih =>
      rcases exists_standsFor_of_covers (hcovers _ hfirst) with ⟨cover, hcover, hstands, hbelow⟩
      rcases ih hbelow with ⟨other, hother, hstandsFor⟩
      exact ⟨other, .deeper hcover (hinto.of_sameSelection hstands.same) hother, hstandsFor⟩
  | spread hfirst hlabel hfragment hadmits hbelow _ =>
      rcases exists_standsFor_of_covers (hcovers _ hfirst) with ⟨cover, hcover, hstands, -⟩
      have hcoverLabel := Label.eq_spread_of_sameSelection (hlabel ▸ hstands.same)
      exact ⟨_, .spread hcover hcoverLabel hfragment hadmits hbelow, .refl _⟩

/-- Below a node of its type, what a fragment covers stands there by the spread. -/
theorem stands_spread {fragment : FragmentDefinition} (hd : DistinctNames fragments)
    (hf : fragment ∈ fragments) (hdefined : ∀ child ∈ children, Defined fragments child.label)
    (htype : fragment.type.typeRef = start.owner) (hadmits : admits start.owner start.object)
    (h : Stands admits fragments start children place node) :
    ∃ other, Stands admits fragments start (spread fragment children) place other ∧
      other.StandsFor node := by
  rcases h.exists_mem with ⟨child, hchild, hs⟩
  rcases mem_spread_or_covers fragment hchild with hkept | hcovers
  · exact ⟨node, hs.of_mem hkept, .refl node⟩
  · have hall : ∀ other ∈ [child], covers fragment.children other = true := by simpa using hcovers
    rcases stands_of_covers hall hs with ⟨other, hother, hstandsFor⟩
    rcases exists_label_mem_spread hd hf hdefined with ⟨user, huser, hlabel⟩
    -- The type of the fragment is the one that is selected from anyway.
    refine ⟨other, .spread huser hlabel hf ?_ ?_, hstandsFor⟩ <;> rwa [htype]

theorem solid_of_isSpread (h : node.label.isSpread = true) : node.Solid := by
  refine solid_iff.2 (.inl ?_)
  cases hlabel : node.label <;> rw [hlabel] at h <;> first | rfl | cases h

theorem solid_spread {fragment : FragmentDefinition} (h : ∃ child ∈ children, child.Solid) :
    ∃ child ∈ spread fragment children, child.Solid := by
  rcases h with ⟨child, hchild, hsolid⟩
  rcases mem_spread_or_covers fragment hchild with hkept | -
  · exact ⟨child, hkept, hsolid⟩
  · rcases exists_mem_spread fragment children with ⟨user, huser, hmerges⟩
    exact ⟨user, huser, solid_of_isSpread (Label.isSpread_of_mergesWith hmerges)⟩

theorem Solid.substitute (h : node.Solid) : (substitute fragments node).Solid := by
  induction h with
  | leaf hneeds =>
      rw [Selection.substitute]
      exact .leaf hneeds
  | deeper hchild _ ih =>
      rw [Selection.substitute, substituteAll_eq_map]
      rcases spreadAll_induction (motive := fun found => ∃ child ∈ found, child.Solid)
        ⟨_, List.mem_map_of_mem hchild, ih⟩ (fun _ _ _ _ _ => solid_spread) with
        ⟨child, hmem, hsolid⟩
      exact .deeper hmem hsolid

/-- Spreading the fragments takes no node from its place. -/
theorem stands_substitute (hd : DistinctNames fragments) {root : Selection}
    (hdefined : Every (Defined fragments) root)
    (h : Stands admits fragments start [root] place node) :
    ∃ other, Stands admits fragments start [substitute fragments root] place other ∧
      other.StandsFor node := by
  induction root generalizing start with
  | node label children ih =>
      have hroot : ∀ {first : Selection}, first ∈ [Selection.node label children] →
          first = .node label children := List.mem_singleton.1
      cases h with
      | here hnode =>
          obtain rfl := hroot hnode
          refine ⟨_, .here (List.mem_singleton.2 rfl), ?_, Solid.substitute⟩
          rw [label_substitute]
          exact Label.sameSelection_refl _
      | @deeper _ next _ _ _ _ hfirst hinto hbelow =>
          obtain rfl := hroot hfirst
          -- Spreading needs the spreads that are there to be defined, and keeps that.
          have hspread : ∃ other, Stands admits fragments next
              (spreadAll fragments label (children.map (substitute fragments))) place other ∧
                other.StandsFor node := by
            refine (spreadAll_induction (motive := fun nodes =>
              (∃ other, Stands admits fragments next nodes place other ∧ other.StandsFor node) ∧
                ∀ child ∈ nodes, Defined fragments child.label) ⟨?_, ?_⟩ ?_).1
            · rcases hbelow.exists_mem with ⟨child, hchild, hs⟩
              rcases ih child hchild (hdefined.children child hchild) hs with
                ⟨other, hother, hstands⟩
              exact ⟨other, hother.of_mem (List.mem_map_of_mem hchild), hstands⟩
            · intro child hchild
              rcases List.mem_map.1 hchild with ⟨c, hc, rfl⟩
              rw [label_substitute]
              exact (hdefined.children c hc).holds
            · rintro - fragment hf htype nodes ⟨⟨other, hother, hstands⟩, hnodes⟩
              rcases stands_spread hd hf hnodes (htype.trans hinto.owner_eq.symm)
                hinto.admits_object hother with ⟨last, hlast, hlastStands⟩
              exact ⟨⟨last, hlast, hlastStands.trans hstands⟩,
                fun child => defined_of_mem_spread hf hnodes⟩
          rcases hspread with ⟨other, hother, hstandsFor⟩
          rw [← substituteAll_eq_map] at hother
          rw [substitute]
          exact ⟨other, .deeper (List.mem_singleton.2 rfl) hinto hother, hstandsFor⟩
      | spread hfirst hlabel hfragment hadmits hbelow =>
          obtain rfl := hroot hfirst
          refine ⟨_, .spread (List.mem_singleton.2 rfl) ?_ hfragment hadmits hbelow, .refl _⟩
          rwa [label_substitute]

/-! ## Empty selections -/

theorem Solid.isVoid_eq_false (h : node.Solid) : node.isVoid = false := by
  cases h with
  | leaf hneeds => simp [isVoid, Selection.label, hneeds]
  | deeper hchild _ => simp [isVoid, Selection.children, List.ne_nil_of_mem hchild]

theorem Solid.elide (h : node.Solid) : (elide node).Solid := by
  induction h with
  | leaf hneeds =>
      rw [Selection.elide]
      exact .leaf hneeds
  | deeper hchild _ ih =>
      rw [Selection.elide]
      exact .deeper (mem_elideAll.2 ⟨_, hchild, rfl, ih.isVoid_eq_false⟩) ih

theorem standsFor_elide (node : Selection) : (Selection.elide node).StandsFor node := by
  refine ⟨?_, Solid.elide⟩
  rw [label_elide]
  exact Label.sameSelection_refl _

theorem Solid.elide_mem (h : node.Solid) (hnode : node ∈ nodes) :
    Selection.elide node ∈ elideAll nodes :=
  mem_elideAll.2 ⟨node, hnode, rfl, h.elide.isVoid_eq_false⟩

/-- What leads to something that selects something selects something itself. -/
theorem Stands.exists_solid (h : Stands admits fragments start nodes place node)
    (hsolid : node.Solid) : ∃ first ∈ nodes, first.Solid := by
  induction h with
  | here hnode => exact ⟨_, hnode, hsolid⟩
  | deeper hfirst _ _ ih => exact ⟨_, hfirst, solid_iff.2 (.inr (ih hsolid))⟩
  | spread hfirst hlabel _ _ _ _ =>
      exact ⟨_, hfirst, solid_of_isSpread (by rw [hlabel]; rfl)⟩

/-- The fragments without empty selections. -/
def Elides (fragments last : List FragmentDefinition) : Prop :=
  ∀ f ∈ fragments, ∃ g ∈ last, g.name = f.name ∧ g.type = f.type ∧
    g.children = elideAll f.children

theorem children_elide (node : Selection) :
    (Selection.elide node).children = elideAll node.children := by
  rcases node with ⟨label, children⟩
  rw [Selection.elide]
  rfl

/-- What selects something stays where it stands. -/
theorem stands_elideAll (helides : Elides fragments last)
    (h : Stands admits fragments start nodes place node) (hsolid : node.Solid) :
    Stands admits last start (elideAll nodes) place (Selection.elide node) := by
  induction h with
  | here hnode => exact .here (hsolid.elide_mem hnode)
  | @deeper start next _ _ first _ hfirst hinto hbelow ih =>
      have hfirstSolid : first.Solid := solid_iff.2 (.inr (hbelow.exists_solid hsolid))
      have hinto : start.Into admits (Selection.elide first).label next := by rwa [label_elide]
      refine .deeper (hfirstSolid.elide_mem hfirst) hinto ?_
      rw [children_elide]
      exact ih hsolid
  | @spread start _ _ first _ fragment hfirst hlabel hfragment hadmits _ ih =>
      rcases helides fragment hfragment with ⟨g, hg, hname, htype, hchildren⟩
      have hfirstSolid : first.Solid := solid_of_isSpread (by rw [hlabel]; rfl)
      refine .spread (hfirstSolid.elide_mem hfirst) ?_ hg ?_ ?_
      · rw [label_elide, hname, htype, hlabel]
      · rwa [htype]
      · rw [htype, hchildren]
        exact ih hsolid

/-! ## All passes -/

/-- What stands somewhere without any fragments does so whatever fragments there are. -/
theorem Stands.widen (h : Stands admits [] start nodes place node) :
    Stands admits fragments start nodes place node := by
  induction h with
  | here hnode => exact .here hnode
  | deeper hfirst hinto _ ih => exact .deeper hfirst hinto ih
  | spread _ _ hfragment _ _ => cases hfragment

/-- The nodes that stand in an operation or in one of its fragments. -/
def StandsAmong (admits : TypeRef → TypeRef → Prop) (fragments : List FragmentDefinition)
    (start : Place) (nodes : List Selection) (place : Place) (node : Selection) : Prop :=
  Stands admits fragments start nodes place node ∨
    ∃ f ∈ fragments, ∃ object, admits f.type.typeRef object ∧
      Stands admits fragments (f.place object) f.children place node

section Prunes

variable {tree : Selection} {pruned : Pruned}

/-- What stands in a definition that was taken out stood in the tree. -/
theorem Prunes.exists_stands (p : Prunes limit tree pruned children nodes found fragments)
    (ht : AllTyped s owner tree.children) {f : FragmentDefinition} (hf : f ∈ found)
    (h : StandsAnyhow (f.place object) f.children place node)
    (hspread : node.label.isSpread = false) :
    ∃ origin, StandsAnyhow start tree.children place origin ∧ origin.label = node.label := by
  rcases h.exists_mem with ⟨g, hg, hs⟩
  have hsupplies := (mem_children_of_extraction p.extracted hf).1 hg
  rcases exists_stands_of_supplies (typed_of_normalize p.normal ht) hsupplies hs hspread with
    ⟨mid, hmid, hmidLabel⟩
  rcases exists_stands_of_normalize p.normal hmid with ⟨origin, horigin, horiginLabel⟩
  exact ⟨origin, horigin, horiginLabel.trans hmidLabel⟩

/-- Up to substitution, a field is kept where it stood, or where it is folded outward to: in what is
left of the tree, or in a fragment. -/
theorem Prunes.kept (p : Prunes limit tree pruned children nodes found fragments)
    (ht : AllTyped s owner tree.children) (hs : Stands admits [] start tree.children place node)
    (hfield : node.label.isField = true) :
    Kept (StandsAnyhow start tree.children) (StandsAmong admits fragments start nodes) place
      node := by
  rcases kept_of_normalize p.normal hs hfield with ⟨mid, first, hfirst, hstands, hfolds⟩
  have hfirstField : first.label.isField = true :=
    (Label.isField_of_mergesWith (Label.sameSelection_iff.1 hstands.same).1).trans hfield
  have hleft : (hollow first).StandsFor node := (standsFor_hollow hfirstField).trans hstands
  rcases stands_hollow hfirst with hnodes | ⟨name, type, object, g, hsupplies, hadmits, hg⟩
  · rw [← eq_map_hollow_of_extraction p.extracted] at hnodes
    exact ⟨mid, _, .inl hnodes.widen, hleft, hfolds⟩
  · -- The definition is brought into normal form as well.
    rcases (supplied_of_extraction p.extracted name type g).2 (.inr hsupplies) with
      ⟨k, hk, ⟨rfl, rfl⟩, hgk⟩
    rcases Outcome.mem_left p.fragmentsNormal hk with ⟨f, hf, hname, htype, hnormal⟩
    have hleftField : (hollow first).label.isField = true :=
      (Label.isField_of_mergesWith (Label.sameSelection_iff.1 hleft.same).1).trans hfield
    rcases kept_of_normalize hnormal (hg.of_mem hgk) hleftField with
      ⟨outer, other, hother, hotherStands, hmore⟩
    rw [← FragmentDefinition.place, ← FragmentDefinition.place_eq hname htype] at hother
    refine ⟨outer, other, .inr ⟨f, hf, object, by rwa [htype], hother.widen⟩,
      hotherStands.trans hleft, hfolds.trans ?_⟩
    exact foldsTo_imp hmore (fun _ _ h hspread => p.exists_stands ht hk h hspread) hleft.same
      (Label.isSpread_of_isField hleftField)

theorem Prunes.standsFor_root (p : Prunes limit tree pruned children nodes found fragments)
    (hfield : tree.label.isField = true) : (Selection.node tree.label nodes).StandsFor tree := by
  refine ⟨Label.sameSelection_refl _, fun hsolid => ?_⟩
  have hnormal : (Selection.node tree.label children).Solid :=
    hsolid.normalized (Label.sameSelection_refl _) (List.Subset.refl _) p.normal
  have hlabel : (Selection.node tree.label children).label.isField = true := hfield
  have hleft := hnormal.hollow
  rw [hollow_of_isField hlabel] at hleft
  rw [eq_map_hollow_of_extraction p.extracted]
  exact hleft

theorem Prunes.elides (p : Prunes limit tree pruned children nodes found fragments) :
    Elides fragments pruned.fragments := by
  intro f hf
  rcases Outcome.mem_left p.fragmentsElided hf with ⟨g, hg, hname, htype, hchildren, -⟩
  exact ⟨g, hg, hname, htype, hchildren⟩

/-- Every field of a tree that selects something is kept in the pruned query, where it stood in the
tree or where it is folded outward to. -/
theorem kept_of_prune {tree : Unpruned} (h : tree.root.prune limit = .ok pruned)
    (ht : Typed s owner tree.root) (hs : Stands admits [] start [tree.root] place node)
    (hfield : node.label.isField = true) (hsolid : node.Solid) :
    Kept (StandsAnyhow start [tree.root])
      (StandsAmong admits pruned.fragments start [pruned.root]) place node := by
  rcases prune_eq_ok h with ⟨children, nodes, found, fragments, p⟩
  have hroot : elideAll [substitute fragments (.node tree.root.label nodes)] ⊆ [pruned.root] := by
    intro root hmem
    rcases mem_elideAll.1 hmem with ⟨child, hchild, rfl, -⟩
    rw [List.mem_singleton.1 hchild, ← p.root]
    exact List.mem_singleton_self _
  -- What is kept up to substitution and selects something is kept in the end.
  have hlast : ∀ {outer other},
      Stands admits fragments start [.node tree.root.label nodes] outer other →
      other.StandsFor node → ∃ last, Stands admits pruned.fragments start [pruned.root] outer last ∧
        last.StandsFor node := by
    intro outer other hother hstands
    rcases stands_substitute p.distinctNames p.defined hother with ⟨mid, hmid, hmidStands⟩
    have hall := hmidStands.trans hstands
    exact ⟨_, (stands_elideAll p.elides hmid (hall.solid hsolid)).mono hroot,
      (standsFor_elide mid).trans hall⟩
  cases hs with
  | here hnode =>
      obtain rfl := List.mem_singleton.1 hnode
      have hleft : (Selection.node tree.root.label nodes).StandsFor tree.root :=
        p.standsFor_root hfield
      rcases hlast (.here (List.mem_singleton.2 rfl)) hleft with ⟨last, hmem, hstands⟩
      exact ⟨start, last, .inl hmem, hstands, .refl⟩
  | @deeper _ next _ _ first _ hnode hinto hbelow =>
      obtain rfl : first = tree.root := List.mem_singleton.1 hnode
      rcases p.kept ht.childrenTyped hbelow hfield with ⟨outer, other, hother, hstands, hfolds⟩
      have hfolds : FoldsTo (StandsAnyhow start [tree.root]) node.label place outer :=
        foldsTo_imp hfolds (fun _ origin hs _ => ⟨origin, .deeper hnode
          (hinto.imp fun _ _ _ => trivial) hs, rfl⟩) (Label.sameSelection_refl _)
          (Label.isSpread_of_isField hfield)
      rcases hother with hother | ⟨f, hf, object, hadmits, hother⟩
      · rcases hlast (.deeper (List.mem_singleton.2 rfl) hinto hother) hstands with
          ⟨last, hmem, hlastStands⟩
        exact ⟨outer, last, .inl hmem, hlastStands, hfolds⟩
      · rcases p.elides f hf with ⟨g, hg, hname, htype, hchildren⟩
        have helided := stands_elideAll p.elides hother (hstands.solid hsolid)
        rw [← hchildren, ← FragmentDefinition.place_eq hname htype] at helided
        exact ⟨outer, _, .inr ⟨g, hg, object, by rwa [htype], helided⟩,
          (standsFor_elide other).trans hstands, hfolds⟩
  | spread _ _ hfragment _ _ => cases hfragment

end Prunes

end Selection

end GraphQuery
