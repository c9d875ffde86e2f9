import GraphQuery.Proofs.Selection.Extraction

/-!
# Selection.Similar — trees that differ in the order of nodes

Every pass decides what becomes of a node by what there is beside it or in a fragment, and never by
where it stands. So trees with similar nodes, in whatever order and however often, have pruned forms
with similar nodes, or none of them has one.

- `Selection.Similar` : trees with similar nodes at every level
- `Selection.LevelSimilar` : levels with similar nodes
- `Selection.normalizesAlike`, `Selection.exists_similar_extraction`,
  `Selection.similar_substitute`, `Selection.similar_elide` : one lemma for each pass
- `Pruned.Similar`, `Selection.exists_similar_prune`, `Selection.agree_prune_of_similar` : pruning
-/

set_option autoImplicit false

namespace GraphQuery

namespace Selection

/-! ## Partners -/

/-- Two collections of which each has a partner in the other for all that is in it. -/
structure Paired {α : Type} (R : α → α → Prop) (p q : α → Prop) : Prop where
  left : ∀ x, p x → ∃ y, q y ∧ R x y
  right : ∀ y, q y → ∃ x, p x ∧ R x y

section Paired

variable {α ε : Type} {R S : α → α → Prop} {p q : α → Prop} {xs ys out : List α}

theorem Paired.symm (h : Paired R p q) (hR : ∀ x y, R x y → R y x) : Paired R q p where
  left y hy := by
    rcases h.right y hy with ⟨x, hx, hxy⟩
    exact ⟨x, hx, hR x y hxy⟩
  right x hx := by
    rcases h.left x hx with ⟨y, hy, hxy⟩
    exact ⟨y, hy, hR x y hxy⟩

theorem Paired.imp (h : Paired R p q) (hRS : ∀ x y, p x → q y → R x y → S x y) :
    Paired S p q where
  left x hx := by
    rcases h.left x hx with ⟨y, hy, hxy⟩
    exact ⟨y, hy, hRS x y hx hy hxy⟩
  right y hy := by
    rcases h.right y hy with ⟨x, hx, hxy⟩
    exact ⟨x, hx, hRS x y hx hy hxy⟩

theorem Paired.map {f g : α → α} (h : Paired R (· ∈ xs) (· ∈ ys))
    (hfg : ∀ x y, R x y → S (f x) (g y)) : Paired S (· ∈ xs.map f) (· ∈ ys.map g) where
  left := by
    intro _ hnode
    rcases List.mem_map.1 hnode with ⟨x, hx, rfl⟩
    rcases h.left x hx with ⟨y, hy, hxy⟩
    exact ⟨g y, List.mem_map_of_mem hy, hfg x y hxy⟩
  right := by
    intro _ hnode
    rcases List.mem_map.1 hnode with ⟨y, hy, rfl⟩
    rcases h.right y hy with ⟨x, hx, hxy⟩
    exact ⟨f x, List.mem_map_of_mem hx, hfg x y hxy⟩

theorem exists_partners (h : ∀ x, p x → ∃ y, q y ∧ R x y) :
    ∃ partner : α → α, ∀ x, p x → q (partner x) ∧ R x (partner x) := by
  have hall : ∀ x, ∃ y, p x → q y ∧ R x y := by
    intro x
    by_cases hx : p x
    · rcases h x hx with ⟨y, hy⟩
      exact ⟨y, fun _ => hy⟩
    · exact ⟨x, fun hnot => absurd hnot hx⟩
  exact Classical.skolem.1 hall

/-- What becomes of partners are partners, where a step that succeeds for the one does so for the
other. -/
theorem Paired.exists_mapM {f : α → Except ε α} (h : Paired R (· ∈ xs) (· ∈ ys))
    (hf : ∀ x y a, R x y → f x = .ok a → ∃ b, f y = .ok b ∧ S a b) (hxs : xs.mapM f = .ok out) :
    ∃ out', ys.mapM f = .ok out' ∧ Paired S (· ∈ out) (· ∈ out') := by
  have hout := Outcome.mapM_eq_ok_iff.1 hxs
  have hok : ∃ out', ys.mapM f = .ok out' := by
    refine Outcome.exists_mapM_eq_ok fun y hy => ?_
    rcases h.right y hy with ⟨x, hx, hxy⟩
    rcases Outcome.mem_left hout hx with ⟨a, -, ha⟩
    rcases hf x y a hxy ha with ⟨b, hb, -⟩
    exact ⟨b, hb⟩
  rcases hok with ⟨out', hys⟩
  have hout' := Outcome.mapM_eq_ok_iff.1 hys
  refine ⟨out', hys, ?_, ?_⟩
  · intro a hmem
    rcases Outcome.mem_right hout hmem with ⟨x, hx, ha⟩
    rcases h.left x hx with ⟨y, hy, hxy⟩
    rcases Outcome.mem_left hout' hy with ⟨b, hbMem, hb⟩
    rcases hf x y a hxy ha with ⟨_, hb', hab⟩
    cases hb.symm.trans hb'
    exact ⟨b, hbMem, hab⟩
  · intro b hmem
    rcases Outcome.mem_right hout' hmem with ⟨y, hy, hb⟩
    rcases h.right y hy with ⟨x, hx, hxy⟩
    rcases Outcome.mem_left hout hx with ⟨a, haMem, ha⟩
    rcases hf x y a hxy ha with ⟨_, hb', hab⟩
    cases hb.symm.trans hb'
    exact ⟨a, haMem, hab⟩

end Paired

/-! ## Similar trees -/

/-- Trees that select the same at the root, and where every child of the one has a similar child of
the other. The partners are given by two functions. -/
inductive Similar : Selection → Selection → Prop where
  | node {a b : Label} {xs ys : List Selection} (there back : Selection → Selection) :
      a.sameSelection b = true →
      (∀ x ∈ xs, there x ∈ ys) → (∀ x ∈ xs, Similar x (there x)) →
      (∀ y ∈ ys, back y ∈ xs) → (∀ y ∈ ys, Similar (back y) y) →
      Similar (.node a xs) (.node b ys)

/-- Levels of similar nodes. -/
abbrev LevelSimilar : (Selection → Prop) → (Selection → Prop) → Prop := Paired Similar

/-- Lists of similar nodes. -/
abbrev AllSimilar (xs ys : List Selection) : Prop :=
  LevelSimilar (· ∈ xs) (· ∈ ys)

variable {s t x y : Selection} {xs ys : List Selection} {p q : Selection → Prop}

theorem Similar.label (h : Similar s t) : s.label.sameSelection t.label = true := by
  cases h with
  | node _ _ hlabel => exact hlabel

theorem Similar.children (h : Similar s t) : AllSimilar s.children t.children := by
  cases h with
  | node there back _ hthere hx hback hy =>
      exact ⟨fun x hmem => ⟨there x, hthere x hmem, hx x hmem⟩,
        fun y hmem => ⟨back y, hback y hmem, hy y hmem⟩⟩

theorem Similar.of_children (hlabel : s.label.sameSelection t.label = true)
    (h : AllSimilar s.children t.children) : Similar s t := by
  rcases s with ⟨a, xs⟩
  rcases t with ⟨b, ys⟩
  rcases exists_partners h.left with ⟨there, hthere⟩
  rcases exists_partners (R := fun y x => Similar x y) h.right with ⟨back, hback⟩
  exact .node there back hlabel (fun x hx => (hthere x hx).1) (fun x hx => (hthere x hx).2)
    (fun y hy => (hback y hy).1) fun y hy => (hback y hy).2

theorem Similar.symm (h : Similar s t) : Similar t s := by
  induction h with
  | node there back hlabel hthere _ hback _ ihThere ihBack =>
      exact .node back there (Label.sameSelection_symm hlabel) hback ihBack hthere ihThere

/-- What holds of similar nodes as soon as it holds of their children holds of similar trees. -/
theorem Similar.induction {motive : Selection → Selection → Prop}
    (hnode : ∀ a b xs ys, a.sameSelection b = true → Paired motive (· ∈ xs) (· ∈ ys) →
      motive (.node a xs) (.node b ys)) (h : Similar s t) : motive s t := by
  induction h with
  | node there back hlabel hthere _ hback _ ihThere ihBack =>
      refine hnode _ _ _ _ hlabel ⟨fun x hx => ?_, fun y hy => ?_⟩
      · exact ⟨there x, hthere x hx, ihThere x hx⟩
      · exact ⟨back y, hback y hy, ihBack y hy⟩

theorem LevelSimilar.symm (h : LevelSimilar p q) : LevelSimilar q p :=
  Paired.symm h fun _ _ => Similar.symm

theorem allSimilar_isEmpty (h : AllSimilar xs ys) : xs.isEmpty = ys.isEmpty := by
  cases xs with
  | nil =>
      cases ys with
      | nil => rfl
      | cons y _ =>
          rcases h.right y List.mem_cons_self with ⟨_, hx, -⟩
          cases hx
  | cons x _ =>
      cases ys with
      | nil =>
          rcases h.left x List.mem_cons_self with ⟨_, hy, -⟩
          cases hy
      | cons => rfl

/-! ## Labels of similar nodes -/

theorem mergesWith_of_similar {s' t' : Selection} (hs : Similar s s') (ht : Similar t t')
    (h : s.label.mergesWith t.label = true) : s'.label.mergesWith t'.label = true := by
  have hs' := Label.mergesWith_symm (Label.sameSelection_iff.1 hs.label).1
  have ht' := (Label.sameSelection_iff.1 ht.label).1
  exact Label.mergesWith_trans (Label.mergesWith_trans hs' h) ht'

theorem sameSelection_of_similar {s' t' : Selection} (hs : Similar s s') (ht : Similar t t')
    (h : s.label.sameSelection t.label = true) : s'.label.sameSelection t'.label = true :=
  Label.sameSelection_trans (Label.sameSelection_trans (Label.sameSelection_symm hs.label) h)
    ht.label

theorem needsChildren_of_sameSelection {a b : Label} (h : a.sameSelection b = true) :
    a.needsChildren = b.needsChildren := by
  have hm : a.mergesWith b = true := (Label.sameSelection_iff.1 h).1
  -- Where it depends on the type, the types are equal.
  cases a <;> cases b <;> first | cases hm | skip
  all_goals
    first
      | rfl
      | exact congrArg GraphType.isComposite (Label.type_eq_of_sameSelection h rfl)

theorem isSubtype_of_similar (h : Similar s t) : s.label.isSubtype = t.label.isSubtype :=
  isSubtype_of_mergesWith (Label.sameSelection_iff.1 h.label).1

theorem isVoid_of_similar (h : Similar s t) : s.isVoid = t.isVoid := by
  unfold isVoid
  rw [needsChildren_of_sameSelection h.label, allSimilar_isEmpty h.children]

theorem takes_of_similar (hp : LevelSimilar p q) (hst : Similar s t) (h : Takes p s) :
    Takes q t := by
  rcases h with ⟨field, hfield, hisField, hsame⟩
  rcases hp.left field hfield with ⟨field', hfield', hsimilar⟩
  refine ⟨field', hfield', ?_, sameSelection_of_similar hsimilar hst hsame⟩
  rw [← Label.isField_of_mergesWith (Label.sameSelection_iff.1 hsimilar.label).1]
  exact hisField

/-! ## Normal form -/

/-- What pruning puts below similar nodes of similar levels is similar. -/
theorem exists_similar_below (hp : LevelSimilar p q) (hst : Similar s t) {g : Selection}
    (h : Below p s g) : ∃ g', Below q t g' ∧ Similar g g' := by
  cases h with
  | child hother hmerges hg hkept =>
      rcases hp.left _ hother with ⟨other', hother', hsimilar⟩
      rcases hsimilar.children.left g hg with ⟨g', hg', hsame⟩
      refine ⟨g', .child hother' (mergesWith_of_similar hst hsimilar hmerges) hg' ?_, hsame⟩
      intro hsubtype htakes
      rw [← isSubtype_of_similar hsimilar] at hsubtype
      exact hkept hsubtype (takes_of_similar hp.symm hsame.symm htakes)
  | folded hsubtype his hfield haccepts hg =>
      rcases hp.left _ hsubtype with ⟨subtype', hsubtype', hsimilar⟩
      rcases hsimilar.children.left _ hfield with ⟨field', hfield', hsimilarField⟩
      rcases hsimilarField.children.left g hg with ⟨g', hg', hsame⟩
      rw [isSubtype_of_similar hsimilar] at his
      refine ⟨g', .folded hsubtype' his hfield' ⟨?_, ?_⟩ hg', hsame⟩
      · rw [← Label.isField_of_mergesWith (Label.sameSelection_iff.1 hst.label).1]
        exact haccepts.1
      · exact sameSelection_of_similar hst hsimilarField haccepts.2

theorem levelSimilar_below (hp : LevelSimilar p q) (hst : Similar s t) :
    LevelSimilar (Below p s) (Below q t) where
  left _ h := exists_similar_below hp hst h
  right _ h := by
    rcases exists_similar_below hp.symm hst.symm h with ⟨g, hg, hsimilar⟩
    exact ⟨g, hg, hsimilar.symm⟩

theorem exists_mergeAll_eq_ok (hxy : AllSimilar xs ys) {merged : List Selection}
    (h : mergeAll xs = .ok merged) : ∃ merged', mergeAll ys = .ok merged' := by
  cases hys : mergeAll ys with
  | ok merged' => exact ⟨merged', rfl⟩
  | error e =>
      -- Two nodes that cannot be merged are similar to two that could not either.
      rcases exists_of_mergeAll_eq_error hys with ⟨y, hy, z, hz, hmerges, hdiffer⟩
      rcases hxy.right y hy with ⟨x, hx, hxSimilar⟩
      rcases hxy.right z hz with ⟨w, hw, hwSimilar⟩
      have hxw := mergesWith_of_similar hxSimilar.symm hwSimilar.symm hmerges
      have hsame := sameSelection_of_similar hxSimilar hwSimilar
        (sameSelection_of_mergeAll h hx hw hxw)
      simp [hsame] at hdiffer

variable {limit levels : Nat} {out out' : List Selection}

/-- Where there are so many levels left, similar nodes have similar normal forms. -/
def NormalizesAlike (limit levels : Nat) : Prop :=
  ∀ {xs ys out : List Selection}, AllSimilar xs ys → normalize limit levels xs = .ok out →
    ∃ out', normalize limit levels ys = .ok out' ∧ AllSimilar out out'

theorem NormalizesAlike.below (hn : NormalizesAlike limit levels) (hxy : AllSimilar xs ys)
    (hst : Similar s t) {below below' : List Selection}
    (hbelow : ∀ g, g ∈ below ↔ Below (· ∈ xs) s g)
    (hbelow' : ∀ g, g ∈ below' ↔ Below (· ∈ ys) t g) (h : normalize limit levels below = .ok out) :
    ∃ out', normalize limit levels below' = .ok out' ∧ AllSimilar out out' := by
  have hlevels := levelSimilar_below hxy hst
  refine hn ⟨fun g hg => ?_, fun g hg => ?_⟩ h
  · rcases hlevels.left g ((hbelow g).1 hg) with ⟨g', hg', hsimilar⟩
    exact ⟨g', (hbelow' g').2 hg', hsimilar⟩
  · rcases hlevels.right g ((hbelow' g).1 hg) with ⟨g', hg', hsimilar⟩
    exact ⟨g', (hbelow g').2 hg', hsimilar⟩

theorem NormalizesAlike.exists_normalize_eq_ok (hn : NormalizesAlike limit levels)
    (hxy : AllSimilar xs ys) (h : normalize limit (levels + 1) xs = .ok out) :
    ∃ out', normalize limit (levels + 1) ys = .ok out' := by
  rcases normalize_eq_ok h with ⟨merged, hmerged, -⟩
  rcases exists_mergeAll_eq_ok hxy hmerged with ⟨merged', hmerged'⟩
  unfold normalize
  rw [hmerged']
  refine Outcome.exists_mapM_eq_ok fun folded hfolded => ?_
  rw [foldSubtypes_eq_map (apart_of_mergeAll hmerged')] at hfolded
  rcases List.mem_map.1 hfolded with ⟨m, hm, rfl⟩
  -- Each node comes of one of the list, to which there is a similar one in the other list.
  rcases (mergeAll_merges hmerged').label m hm with ⟨y, hy, hlabel⟩
  rcases hxy.right y hy with ⟨x, hx, hsimilar⟩
  rcases exists_image_of_normalize h hx with ⟨node, -, -, below, hbelow, hnormal⟩
  have hsame : m.label.sameSelection y.label = true := hlabel ▸ Label.sameSelection_refl m.label
  have hbelow' := fun g => mem_foldedInto_iff_below hmerged' hm hsame (g := g)
  rcases hn.below hxy hsimilar hbelow hbelow' hnormal with ⟨out', hout', -⟩
  exact ⟨_, Outcome.bind_eq_ok_iff.2 ⟨out', hout', rfl⟩⟩

theorem NormalizesAlike.exists_similar (hn : NormalizesAlike limit levels) (hxy : AllSimilar xs ys)
    (h : normalize limit (levels + 1) xs = .ok out)
    (h' : normalize limit (levels + 1) ys = .ok out') {node : Selection} (hnode : node ∈ out) :
    ∃ node' ∈ out', Similar node node' := by
  rcases exists_source_of_normalize h hnode with ⟨x, hx, hlabel, below, hbelow, hnormal⟩
  rcases hxy.left x hx with ⟨y, hy, hsimilar⟩
  rcases exists_image_of_normalize h' hy with ⟨node', hnode', hsame, below', hbelow', hnormal'⟩
  rcases hn.below hxy hsimilar hbelow hbelow' hnormal with ⟨_, hnormal'', hchildren⟩
  cases hnormal'.symm.trans hnormal''
  refine ⟨node', hnode', .of_children ?_ hchildren⟩
  rw [hlabel]
  exact Label.sameSelection_trans hsimilar.label (Label.sameSelection_symm hsame)

/-- Similar nodes have similar normal forms, within the same limit. -/
theorem normalizesAlike (limit levels : Nat) : NormalizesAlike limit levels := by
  induction levels with
  | zero =>
      intro xs ys out _ h
      cases h
  | succ levels ih =>
      intro xs ys out hxy h
      rcases ih.exists_normalize_eq_ok hxy h with ⟨out', h'⟩
      refine ⟨out', h', fun node hnode => ih.exists_similar hxy h h' hnode, fun node hnode => ?_⟩
      rcases ih.exists_similar hxy.symm h' h hnode with ⟨node', hnode', hsimilar⟩
      exact ⟨node', hnode', hsimilar.symm⟩

/-! ## Extraction -/

theorem eq_fragment_of_sameSelection {label : Label} {name : String} {type : GraphType}
    (h : label.sameSelection (.fragment name type) = true) : label = .fragment name type := by
  have hm : label.mergesWith (.fragment name type) = true := (Label.sameSelection_iff.1 h).1
  have htype : label.type = type :=
    Label.type_eq_of_sameSelection h (Label.isTypename_of_mergesWith hm)
  cases label <;> simp_all [Label.mergesWith, Label.type]

theorem similar_childless {a b : Label} (hlabel : a.sameSelection b = true) :
    Similar (.node a []) (.node b []) :=
  .of_children hlabel
    ⟨fun _ h => absurd h List.not_mem_nil, fun _ h => absurd h List.not_mem_nil⟩

theorem similar_hollow (h : Similar s t) : Similar (hollow s) (hollow t) := by
  refine Similar.induction (motive := fun s t => Similar (hollow s) (hollow t)) ?_ h
  intro a b xs ys hlabel hbelow
  by_cases hfragment : ∃ name type, b = .fragment name type
  · rcases hfragment with ⟨name, type, rfl⟩
    rw [eq_fragment_of_sameSelection hlabel, hollow, hollow]
    exact similar_childless (Label.sameSelection_refl _)
  · have hb : ∀ name type, b ≠ .fragment name type :=
      fun name type hb => hfragment ⟨name, type, hb⟩
    have ha : ∀ name type, a ≠ .fragment name type := by
      rintro name type rfl
      exact hb name type (eq_fragment_of_sameSelection (Label.sameSelection_symm hlabel))
    rw [hollow_of_ne_fragment ha, hollow_of_ne_fragment hb]
    exact .of_children hlabel (hbelow.map fun _ _ => id)

theorem exists_similar_holds (h : Similar s t) {found : Selection} (hs : s.Holds found) :
    ∃ found', t.Holds found' ∧ Similar found found' := by
  induction hs generalizing t with
  | here => exact ⟨t, .here, h⟩
  | deeper hchild _ ih =>
      rcases h.children.left _ hchild with ⟨child', hchild', hsimilar⟩
      rcases ih hsimilar with ⟨found', hfound', hsame⟩
      exact ⟨found', .deeper hchild' hfound', hsame⟩

/-- Definitions of one fragment, with similar nodes below them. -/
structure DefinitionSimilar (f g : FragmentDefinition) : Prop where
  name : f.name = g.name
  type : f.type = g.type
  children : AllSimilar f.children g.children

/-- Definitions of the same fragments, with similar nodes below them. -/
abbrev DefinitionsSimilar (fragments others : List FragmentDefinition) : Prop :=
  Paired DefinitionSimilar (· ∈ fragments) (· ∈ others)

theorem DefinitionSimilar.symm {f g : FragmentDefinition} (h : DefinitionSimilar f g) :
    DefinitionSimilar g f :=
  ⟨h.name.symm, h.type.symm, LevelSimilar.symm h.children⟩

theorem exists_similar_supplied (hxy : AllSimilar xs ys) {name : String} {type : GraphType}
    {g : Selection} (h : Supplies xs name type g) :
    ∃ g', Supplies ys name type g' ∧ Similar g g' := by
  rcases h with ⟨child, hchild, definition, hholds, hlabel, k, hk, rfl⟩
  rcases hxy.left child hchild with ⟨child', hchild', hsimilar⟩
  rcases exists_similar_holds hsimilar hholds with ⟨definition', hholds', hdefinition⟩
  rcases hdefinition.children.left k hk with ⟨k', hk', hsame⟩
  refine ⟨hollow k', ⟨child', hchild', definition', hholds', ?_, k', hk', rfl⟩,
    similar_hollow hsame⟩
  exact eq_fragment_of_sameSelection (hlabel ▸ Label.sameSelection_symm hdefinition.label)

theorem defines_of_similar (hxy : AllSimilar xs ys) {name : String} {type : GraphType}
    (h : Defines [] xs name type) : Defines [] ys name type := by
  cases h with
  | before hf _ _ => cases hf
  | inside hchild hcontains =>
      rcases contains_iff_holds.1 hcontains with ⟨found, hholds, hlabel⟩
      rcases hxy.left _ hchild with ⟨child', hchild', hsimilar⟩
      rcases exists_similar_holds hsimilar hholds with ⟨found', hholds', hsame⟩
      refine .inside hchild' (contains_iff_holds.2 ⟨found', hholds', ?_⟩)
      exact eq_fragment_of_sameSelection (hlabel ▸ Label.sameSelection_symm hsame.label)

theorem exists_definition_similar {out out' : List Selection} {last last' : List FragmentDefinition}
    (hxy : AllSimilar xs ys) (h : Extraction [] xs out last) (h' : Extraction [] ys out' last')
    {f : FragmentDefinition} (hf : f ∈ last) : ∃ g ∈ last', DefinitionSimilar f g := by
  have hdefines := defines_of_similar hxy (defines_of_extraction h f hf)
  rcases exists_of_defines h' hdefines with ⟨g, hg, hname, htype⟩
  refine ⟨g, hg, hname.symm, htype.symm, fun k hk => ?_, fun k hk => ?_⟩
  · have hsupplies := (mem_children_of_extraction h hf).1 hk
    rcases exists_similar_supplied hxy hsupplies with ⟨k', hk', hsame⟩
    exact ⟨k', (mem_children_of_extraction h' hg).2 (by rwa [hname, htype]), hsame⟩
  · have hsupplies := (mem_children_of_extraction h' hg).1 hk
    rw [hname, htype] at hsupplies
    rcases exists_similar_supplied hxy.symm hsupplies with ⟨k', hk', hsame⟩
    exact ⟨k', (mem_children_of_extraction h hf).2 hk', hsame.symm⟩

/-- Similar nodes are extracted to similar ones, with similar definitions. -/
theorem exists_similar_extraction {out : List Selection} {last : List FragmentDefinition}
    (hxy : AllSimilar xs ys) (h : extractAll [] xs = .ok (out, last)) :
    ∃ out' last', extractAll [] ys = .ok (out', last') ∧ AllSimilar out out' ∧
      DefinitionsSimilar last last' := by
  have hxs := extraction_of_extractAll h
  cases hextract : extractAll [] ys with
  | error e =>
      -- Definitions that clash are found in both.
      rcases clash_of_extractAll hextract with ⟨-, hclash⟩
      exact absurd (hclash.imp fun _ _ => defines_of_similar hxy.symm)
        (not_clash_of_extraction hxs)
  | ok extracted =>
      rcases extracted with ⟨out', last'⟩
      have hys := extraction_of_extractAll hextract
      refine ⟨out', last', rfl, ?_, fun f hf => exists_definition_similar hxy hxs hys hf, ?_⟩
      · rw [eq_map_hollow_of_extraction hxs, eq_map_hollow_of_extraction hys]
        exact hxy.map fun _ _ => similar_hollow
      · intro f hf
        rcases exists_definition_similar hxy.symm hys hxs hf with ⟨g, hg, hsimilar⟩
        exact ⟨g, hg, hsimilar.symm⟩

/-! ## Substitution -/

variable {fragments others : List FragmentDefinition} {children candidates : List Selection}
  {a b label : Label} {node : Selection}

theorem covers_of_similar {others : List Selection} (hc : AllSimilar candidates others)
    (h : Similar s t) (hcovers : covers candidates s = true) : covers others t = true := by
  refine Similar.induction (motive := fun s t => ∀ candidates others,
    AllSimilar candidates others → covers candidates s = true → covers others t = true)
    ?_ h candidates others hc hcovers
  intro a b xs ys hlabel hbelow candidates others hc hcovers
  rcases covers_iff.1 hcovers with ⟨candidate, hcandidate, hsame, hall⟩
  rcases hc.left candidate hcandidate with ⟨other, hother, hsimilar⟩
  refine covers_iff.2 ⟨other, hother, ?_, fun y hy => ?_⟩
  · exact Label.sameSelection_trans (Label.sameSelection_symm hsimilar.label)
      (Label.sameSelection_trans hsame hlabel)
  · rcases hbelow.right y hy with ⟨x, hx, hxy⟩
    exact hxy _ _ hsimilar.children (hall x hx)

theorem stays_of_similar (hf : DefinitionsSimilar fragments others) {type : TypeRef}
    (h : Similar s t) (hstays : Stays fragments type s) : Stays others type t := by
  refine hstays.imp (fun hspread => ?_) (fun hnone g hg htype => ?_)
  · rw [← Label.isSpread_of_mergesWith (Label.sameSelection_iff.1 h.label).1]
    exact hspread
  · rcases hf.right g hg with ⟨f, hf, hsimilar⟩
    refine Bool.eq_false_iff.2 fun hcovers => ?_
    have hcovered := covers_of_similar (LevelSimilar.symm hsimilar.children) h.symm hcovers
    rw [← hsimilar.type] at htype
    simp [hnone f hf htype] at hcovered

theorem spares_of_similar {f g : FragmentDefinition} (hfg : DefinitionSimilar f g)
    (hxy : AllSimilar xs ys) (h : Spares f xs) : Spares g ys := by
  intro y hy
  rcases hxy.right y hy with ⟨x, hx, hsimilar⟩
  refine Bool.eq_false_iff.2 fun hmerges => ?_
  have hsame := Label.mergesWith_trans (Label.sameSelection_iff.1 hsimilar.label).1 hmerges
  rw [← hfg.name, ← hfg.type] at hsame
  simp [h x hx] at hsame

theorem exists_similar_spreadAll (hf : DefinitionsSimilar fragments others)
    (hd : DistinctNames fragments) (hd' : DistinctNames others)
    (hlabel : a.sameSelection b = true) (hxy : AllSimilar xs ys)
    (hnode : node ∈ spreadAll fragments a xs) :
    ∃ node', node' ∈ spreadAll others b ys ∧ Similar node node' := by
  by_cases hneeds : a.needsChildren = true
  · have hneeds' : b.needsChildren = true := needsChildren_of_sameSelection hlabel ▸ hneeds
    have htypes : a.type = b.type := by
      refine Label.type_eq_of_sameSelection hlabel ?_
      cases a <;> first | rfl | cases hneeds
    rcases (mem_spreadAll_iff hd hneeds).1 hnode with
      ⟨hmem, hstays⟩ | ⟨f, hfMem, htype, rfl, hspares⟩
    · rcases hxy.left node hmem with ⟨node', hmem', hsimilar⟩
      refine ⟨node', (mem_spreadAll_iff hd' hneeds').2 (.inl ⟨hmem', ?_⟩), hsimilar⟩
      exact stays_of_similar hf hsimilar (htypes ▸ hstays)
    · rcases hf.left f hfMem with ⟨g, hg, hfg⟩
      have hsame : spreadNode f = spreadNode g := by rw [spreadNode, hfg.name, hfg.type, spreadNode]
      refine ⟨spreadNode f, (mem_spreadAll_iff hd' hneeds').2 (.inr ⟨g, hg, ?_, hsame, ?_⟩), ?_⟩
      · rw [← hfg.type, htype, htypes]
      · exact spares_of_similar hfg hxy hspares
      · exact similar_childless (Label.sameSelection_refl _)
  · have hneeds' : ¬ b.needsChildren = true := needsChildren_of_sameSelection hlabel ▸ hneeds
    unfold spreadAll at hnode ⊢
    rw [if_neg hneeds] at hnode
    rw [if_neg hneeds']
    exact hxy.left node hnode

theorem similar_substitute (hf : DefinitionsSimilar fragments others)
    (hd : DistinctNames fragments) (hd' : DistinctNames others) (h : Similar s t) :
    Similar (substitute fragments s) (substitute others t) := by
  refine Similar.induction
    (motive := fun s t => Similar (substitute fragments s) (substitute others t)) ?_ h
  intro a b xs ys hlabel hbelow
  rw [substitute, substitute, substituteAll_eq_map, substituteAll_eq_map]
  have hchildren : AllSimilar (xs.map (substitute fragments)) (ys.map (substitute others)) :=
    hbelow.map fun _ _ => id
  refine .of_children hlabel ⟨fun x hx => ?_, fun y hy => ?_⟩
  · exact exists_similar_spreadAll hf hd hd' hlabel hchildren hx
  · rcases exists_similar_spreadAll (Paired.symm hf fun _ _ => DefinitionSimilar.symm) hd' hd
      (Label.sameSelection_symm hlabel) hchildren.symm hy with ⟨x, hx, hsimilar⟩
    exact ⟨x, hx, hsimilar.symm⟩

/-! ## Empty selections -/

theorem allSimilar_elideAll
    (h : Paired (fun x y => Similar (elide x) (elide y)) (· ∈ xs) (· ∈ ys)) :
    AllSimilar (elideAll xs) (elideAll ys) where
  left := by
    intro node hnode
    rcases mem_elideAll.1 hnode with ⟨x, hx, rfl, hvoid⟩
    rcases h.left x hx with ⟨y, hy, hxy⟩
    exact ⟨elide y, mem_elideAll.2 ⟨y, hy, rfl, isVoid_of_similar hxy ▸ hvoid⟩, hxy⟩
  right := by
    intro node hnode
    rcases mem_elideAll.1 hnode with ⟨y, hy, rfl, hvoid⟩
    rcases h.right y hy with ⟨x, hx, hxy⟩
    exact ⟨elide x, mem_elideAll.2 ⟨x, hx, rfl, (isVoid_of_similar hxy).trans hvoid⟩, hxy⟩

theorem similar_elide (h : Similar s t) : Similar (elide s) (elide t) := by
  refine Similar.induction (motive := fun s t => Similar (elide s) (elide t)) ?_ h
  intro a b xs ys hlabel hbelow
  rw [elide, elide]
  exact .of_children hlabel (allSimilar_elideAll hbelow)

/-! ## All passes -/

theorem exists_similar_normalize_fragment {limit : Nat} {f g f' : FragmentDefinition}
    (hfg : DefinitionSimilar f g) (h : f.normalize limit = .ok f') :
    ∃ g', g.normalize limit = .ok g' ∧ DefinitionSimilar f' g' := by
  rcases Outcome.bind_eq_ok_iff.1 h with ⟨out, hout, h⟩
  cases h
  rcases normalizesAlike limit _ hfg.children hout with ⟨out', hout', hsimilar⟩
  exact ⟨{ g with children := out' }, Outcome.bind_eq_ok_iff.2 ⟨out', hout', rfl⟩,
    hfg.name, hfg.type, hsimilar⟩

theorem exists_similar_elide_fragment {f g f' : FragmentDefinition} (hfg : DefinitionSimilar f g)
    (h : f.elide = .ok f') : ∃ g', g.elide = .ok g' ∧ DefinitionSimilar f' g' := by
  have hchildren : AllSimilar (elideAll f.children) (elideAll g.children) :=
    allSimilar_elideAll (hfg.children.imp fun _ _ _ _ => similar_elide)
  unfold FragmentDefinition.elide at h ⊢
  dsimp only at h ⊢
  rw [allSimilar_isEmpty hchildren] at h
  split at h
  · cases h
  · next hfilled =>
      cases h
      rw [if_neg hfilled]
      exact ⟨_, rfl, hfg.name, hfg.type, hchildren⟩

end Selection

/-- Queries with similar roots, and similar definitions of the same fragments. -/
structure Pruned.Similar (p q : Pruned) : Prop where
  root : Selection.Similar p.root q.root
  fragments : Selection.DefinitionsSimilar p.fragments q.fragments

theorem Selection.distinctNames_of_fragments {limit : Nat} {children nodes : List Selection}
    {found fragments : List FragmentDefinition}
    (h : extractAll [] children = .ok (nodes, found))
    (hfragments : found.mapM (FragmentDefinition.normalize limit) = .ok fragments) :
    DistinctNames fragments := by
  have hfound : DistinctNames found :=
    distinctNames_of_extraction (extraction_of_extractAll h) List.nodup_nil
  refine hfound.of_forall₂ ((Outcome.mapM_eq_ok_iff.1 hfragments).imp fun _ _ hnormal => ?_)
  exact (normalize_fragment_eq_ok hnormal).1

/-- Similar trees have similar pruned forms. -/
theorem Selection.exists_similar_prune {limit : Nat} {tree other : Selection} {pruned : Pruned}
    (hsimilar : tree.Similar other) (h : tree.prune limit = .ok pruned) :
    ∃ p, other.prune limit = .ok p ∧ pruned.Similar p := by
  rcases Outcome.bind_eq_ok_iff.1 h with ⟨children, hnormal, h⟩
  rcases Outcome.bind_eq_ok_iff.1 h with ⟨⟨nodes, found⟩, hextract, h⟩
  rcases Outcome.bind_eq_ok_iff.1 h with ⟨fragments, hfragments, h⟩
  rcases normalizesAlike limit _ hsimilar.children hnormal with ⟨children', hnormal', hchildren⟩
  rcases exists_similar_extraction hchildren hextract with
    ⟨nodes', found', hextract', hnodes, hfound⟩
  rcases hfound.exists_mapM (fun _ _ _ => exists_similar_normalize_fragment) hfragments with
    ⟨fragments', hfragments', hsimilarFragments⟩
  have hroot : Similar (elide (substitute fragments (.node tree.label nodes)))
      (elide (substitute fragments' (.node other.label nodes'))) := by
    refine similar_elide (similar_substitute hsimilarFragments ?_ ?_
      (.of_children hsimilar.label hnodes))
    · exact distinctNames_of_fragments hextract hfragments
    · exact distinctNames_of_fragments hextract' hfragments'
  dsimp only at h
  split at h
  · cases h
  · next hfilled =>
      rcases Outcome.bind_eq_ok_iff.1 h with ⟨elided, helided, h⟩
      cases h
      rcases hsimilarFragments.exists_mapM (fun _ _ _ => exists_similar_elide_fragment) helided with
        ⟨elided', helided', hsimilarElided⟩
      rw [isVoid_of_similar hroot] at hfilled
      refine ⟨⟨_, elided'⟩, ?_, hroot, hsimilarElided⟩
      refine Outcome.bind_eq_ok_iff.2 ⟨children', hnormal', ?_⟩
      refine Outcome.bind_eq_ok_iff.2 ⟨(nodes', found'), hextract', ?_⟩
      refine Outcome.bind_eq_ok_iff.2 ⟨fragments', hfragments', ?_⟩
      dsimp only
      rw [if_neg hfilled]
      exact Outcome.bind_eq_ok_iff.2 ⟨elided', helided', rfl⟩

/-- Pruning fails on both of two similar trees, or gives similar queries. -/
theorem Selection.agree_prune_of_similar {tree other : Selection} (h : tree.Similar other)
    (limit : Nat) :
    Outcome.Agree (fun _ _ => True) Pruned.Similar (tree.prune limit) (other.prune limit) := by
  cases htree : tree.prune limit with
  | ok pruned =>
      rcases exists_similar_prune h htree with ⟨p, hp, hsimilar⟩
      rw [hp]
      exact .ok hsimilar
  | error cause =>
      cases hother : other.prune limit with
      | error _ => exact .error trivial
      | ok p =>
          rcases exists_similar_prune h.symm hother with ⟨pruned, hpruned, -⟩
          rw [hpruned] at htree
          cases htree

end GraphQuery
