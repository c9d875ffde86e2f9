import GraphQuery.Proofs.Outcome
import GraphQuery.Selection.Pruned

/-!
# Selection.Passes — what each pass of pruning does to a list of children

Pruning deletes a node only where another one selects the same. The laws of a pass say which nodes
there are afterwards, where their children come from, and which node stands in for one that went.

- `Selection.induction` : induction on trees, with the hypothesis for every child
- `Selection.Merges`, `Selection.mergeAll_merges` : merging
- `Selection.Folds`, `Selection.foldSubtypes_folds` : folding subtypes
- `Selection.normalize_eq_ok` : one level of normal form
- `Selection.Extraction`, `Selection.extraction_of_extractAll` : taking definitions out
- `Selection.substituteAll_eq_map`, `Selection.mem_elideAll` : the passes that go through all nodes
- `Selection.mem_spread_iff` : spreading a fragment
- `Selection.prune_eq_ok` : all passes, one after the other
-/

set_option autoImplicit false

namespace GraphQuery

/-- What holds of a node as soon as it holds of its children holds of every tree. -/
@[elab_as_elim, induction_eliminator]
theorem Selection.induction {motive : Selection → Prop}
    (node : ∀ label children, (∀ child ∈ children, motive child) → motive (.node label children)) :
    ∀ s : Selection, motive s
  | .node label children => node label children fun child _ => Selection.induction node child

/-! ## Labels that select the same -/

namespace Label

variable {a b c : Label}

theorem sameSelection_iff :
    a.sameSelection b = true ↔
      a.mergesWith b = true ∧ a.sameType b = true ∧ a.sameSource b = true := by
  simp [sameSelection, and_assoc]

theorem sameSource_iff :
    a.sameSource b = true ↔
      a.source?.map ArgumentSource.identity = b.source?.map ArgumentSource.identity := by
  unfold sameSource
  cases a.source? <;> cases b.source? <;> simp [ArgumentSource.sameAs]

theorem mergesWith_refl (a : Label) : a.mergesWith a = true := by
  cases a <;> simp [mergesWith]

theorem sameSelection_refl (a : Label) : a.sameSelection a = true :=
  sameSelection_iff.2 ⟨mergesWith_refl a, by simp [sameType], sameSource_iff.2 rfl⟩

theorem mergesWith_symm (h : a.mergesWith b = true) : b.mergesWith a = true := by
  cases a <;> cases b <;> simp_all [mergesWith]

theorem mergesWith_trans (hab : a.mergesWith b = true) (hbc : b.mergesWith c = true) :
    a.mergesWith c = true := by
  -- Labels of different kinds do not merge, which leaves three labels of one kind.
  cases a <;> cases b <;> simp only [mergesWith, Bool.false_eq_true] at hab <;>
    cases c <;> simp_all [mergesWith]

/-- The nodes that merge are of one kind. -/
theorem isTypename_of_mergesWith (h : a.mergesWith b = true) : a.isTypename = b.isTypename := by
  cases a <;> cases b <;> first | rfl | cases h

theorem isField_of_mergesWith (h : a.mergesWith b = true) : a.isField = b.isField := by
  cases a <;> cases b <;> first | rfl | cases h

theorem isSpread_of_mergesWith (h : a.mergesWith b = true) :
    a.isSpread = b.isSpread := by
  cases a <;> cases b <;> first | rfl | cases h

theorem isField_of_exists
    (h : ∃ name type arguments source, a = .field name type arguments source) :
    a.isField = true := by
  rcases h with ⟨_, _, _, _, rfl⟩
  rfl

theorem isField_of_isSubtype (h : a.isSubtype = true) : a.isField = false := by
  cases a <;> first | rfl | cases h

theorem sameSelection_trans (hab : a.sameSelection b = true) (hbc : b.sameSelection c = true) :
    a.sameSelection c = true := by
  rw [sameSelection_iff] at hab hbc ⊢
  rcases hab with ⟨hmab, htab, hsab⟩
  rcases hbc with ⟨hmbc, htbc, hsbc⟩
  refine ⟨mergesWith_trans hmab hmbc, ?_, ?_⟩
  · -- Either all three are discriminators, whose types do not count, or none is.
    have hkind : a.isTypename = b.isTypename := isTypename_of_mergesWith hmab
    simp only [sameType, Bool.or_eq_true, beq_iff_eq] at htab htbc ⊢
    rcases htab with htab | htab
    · exact .inl htab
    · rcases htbc with htbc | htbc
      · exact .inl (hkind.trans htbc)
      · exact .inr (htab.trans htbc)
  · rw [sameSource_iff] at hsab hsbc ⊢
    exact hsab.trans hsbc

theorem sameSelection_symm (h : a.sameSelection b = true) : b.sameSelection a = true := by
  rw [sameSelection_iff] at h ⊢
  rcases h with ⟨hm, ht, hs⟩
  refine ⟨mergesWith_symm hm, ?_, sameSource_iff.2 (sameSource_iff.1 hs).symm⟩
  · rw [sameType, isTypename_of_mergesWith hm, Bool.or_eq_true, beq_iff_eq] at ht
    rw [sameType, Bool.or_eq_true, beq_iff_eq]
    exact ht.imp_right Eq.symm

theorem type_eq_of_sameSelection (h : a.sameSelection b = true) (ha : a.isTypename = false) :
    a.type = b.type := by
  have ht : a.sameType b = true := (sameSelection_iff.1 h).2.1
  simpa [sameType, ha] using ht

end Label

namespace Selection

variable {children merged out : List Selection}

/-! ## Merging -/

/-- What holds of all elements of a list still does when one gives way to another that it holds
of. -/
theorem forall_mem_replace {α : Type} {P : α → Prop} {before after : List α} {old new : α}
    (h : ∀ x ∈ before ++ old :: after, P x) (hnew : P new) :
    ∀ x ∈ before ++ new :: after, P x := by
  rw [List.forall_mem_append, List.forall_mem_cons] at h ⊢
  exact ⟨h.1, hnew, h.2.2⟩

theorem absorb_eq_ok {a b c : Selection} (h : a.absorb b = .ok c)
    (hm : a.label.mergesWith b.label = true) :
    a.label.sameSelection b.label = true ∧ c = .node a.label (a.children ++ b.children) := by
  unfold absorb at h
  split at h
  · cases h
  · next htype =>
      split at h
      · cases h
      · next hsource =>
          cases h
          refine ⟨Label.sameSelection_iff.2 ⟨hm, ?_, ?_⟩, rfl⟩
          · simpa using htype
          · simpa using hsource

/-- A node is put last if it merges with none, or merged into one that selects the same. -/
theorem mergeInto_eq_ok {child : Selection} (h : mergeInto merged child = .ok out) :
    (out = merged ++ [child] ∧
        ∀ other ∈ merged, other.label.mergesWith child.label = false) ∨
      ∃ before other after, merged = before ++ other :: after ∧
        other.label.sameSelection child.label = true ∧
        out = before ++ .node other.label (other.children ++ child.children) :: after := by
  -- Induction on the nodes that the child is compared with, one after the other.
  induction merged generalizing out with
  | nil =>
      cases h
      exact .inl ⟨rfl, nofun⟩
  | cons other rest ih =>
      unfold mergeInto at h
      split at h
      · next hm =>
          rcases Outcome.bind_eq_ok_iff.1 h with ⟨absorbed, habsorb, h⟩
          cases h
          rcases absorb_eq_ok habsorb hm with ⟨hsame, rfl⟩
          exact .inr ⟨[], other, rest, rfl, hsame, rfl⟩
      · next hm =>
          rcases Outcome.bind_eq_ok_iff.1 h with ⟨tail, htail, h⟩
          cases h
          rcases ih htail with ⟨rfl, hnone⟩ | ⟨before, found, after, rfl, hsame, rfl⟩
          · exact .inl ⟨rfl, List.forall_mem_cons.2 ⟨by simpa using hm, hnone⟩⟩
          · exact .inr ⟨other :: before, found, after, rfl, hsame, rfl⟩

/-- The nodes of `merged` are those of `children`, and those that select the same are one. -/
structure Merges (children merged : List Selection) : Prop where
  label : ∀ node ∈ merged, ∃ child ∈ children, node.label = child.label
  below : ∀ node ∈ merged, ∀ grandchild ∈ node.children,
    ∃ child ∈ children, node.label.sameSelection child.label = true ∧ grandchild ∈ child.children
  kept : ∀ child ∈ children,
    ∃ node ∈ merged, node.label.sameSelection child.label = true ∧ child.children ⊆ node.children

theorem Merges.push (h : Merges children merged) (child : Selection) :
    Merges (children ++ [child]) (merged ++ [child]) where
  label := by
    intro node hnode
    rcases List.mem_append.1 hnode with hnode | hnode
    · rcases h.label node hnode with ⟨c, hc, hlabel⟩
      exact ⟨c, List.mem_append_left _ hc, hlabel⟩
    · exact ⟨node, List.mem_append_right _ hnode, rfl⟩
  below := by
    intro node hnode grandchild hg
    rcases List.mem_append.1 hnode with hnode | hnode
    · rcases h.below node hnode grandchild hg with ⟨c, hc, hrest⟩
      exact ⟨c, List.mem_append_left _ hc, hrest⟩
    · exact ⟨node, List.mem_append_right _ hnode, Label.sameSelection_refl _, hg⟩
  kept := by
    intro c hc
    rcases List.mem_append.1 hc with hc | hc
    · rcases h.kept c hc with ⟨node, hnode, hrest⟩
      exact ⟨node, List.mem_append_left _ hnode, hrest⟩
    · exact ⟨c, List.mem_append_right _ hc, Label.sameSelection_refl _, List.Subset.refl _⟩

theorem Merges.absorb {before after : List Selection} {other child : Selection}
    (h : Merges children (before ++ other :: after))
    (hsame : other.label.sameSelection child.label = true) :
    Merges (children ++ [child])
      (before ++ .node other.label (other.children ++ child.children) :: after) where
  label := by
    have hold : ∀ node ∈ before ++ other :: after, ∃ c ∈ children ++ [child],
        node.label = c.label := by
      intro node hnode
      rcases h.label node hnode with ⟨c, hc, hlabel⟩
      exact ⟨c, List.mem_append_left _ hc, hlabel⟩
    -- The node that takes the children in keeps its label.
    exact forall_mem_replace hold
      (hold other (List.mem_append_right _ List.mem_cons_self))
  below := by
    have hold : ∀ node ∈ before ++ other :: after, ∀ grandchild ∈ node.children,
        ∃ c ∈ children ++ [child],
          node.label.sameSelection c.label = true ∧ grandchild ∈ c.children := by
      intro node hnode grandchild hg
      rcases h.below node hnode grandchild hg with ⟨c, hc, hrest⟩
      exact ⟨c, List.mem_append_left _ hc, hrest⟩
    refine forall_mem_replace hold ?_
    -- Below the node that takes the children in are its own ones, and those of the child.
    intro grandchild hg
    rcases List.mem_append.1 hg with hg | hg
    · exact hold other (List.mem_append_right _ List.mem_cons_self) grandchild hg
    · exact ⟨child, List.mem_append_right _ (List.mem_singleton.2 rfl), hsame, hg⟩
  kept := by
    intro c hc
    rcases List.mem_append.1 hc with hc | hc
    · rcases h.kept c hc with ⟨node, hnode, hsub, hchildren⟩
      -- Every node is still there, under its label and with its children.
      have hgrown : ∀ m ∈ before ++ other :: after,
          ∃ n ∈ before ++ .node other.label (other.children ++ child.children) :: after,
            n.label = m.label ∧ m.children ⊆ n.children := by
        refine forall_mem_replace (fun n hn => ⟨n, hn, rfl, List.Subset.refl _⟩) ?_
        exact ⟨_, List.mem_append_right _ List.mem_cons_self, rfl, List.subset_append_left _ _⟩
      rcases hgrown node hnode with ⟨n, hn, hlabel, hn'⟩
      exact ⟨n, hn, hlabel ▸ hsub, List.Subset.trans hchildren hn'⟩
    · rw [List.mem_singleton.1 hc]
      refine ⟨_, List.mem_append_right _ List.mem_cons_self, hsame, ?_⟩
      exact List.subset_append_right _ _

theorem mergeAll_merges (h : mergeAll children = .ok merged) : Merges children merged := by
  -- At every step, the nodes merged so far stand for the children gone through so far.
  refine Outcome.foldlM_induction (motive := Merges) h ⟨nofun, nofun, nofun⟩ ?_
  intro done child found next hfound hnext
  rcases mergeInto_eq_ok hnext with ⟨rfl, -⟩ | ⟨before, other, after, rfl, hsame, rfl⟩
  · exact hfound.push child
  · exact hfound.absorb hsame

/-! ## Folding subtypes -/

/-- The field that a list adds the children of a node to. -/
def Accepts (node field : Selection) : Prop :=
  field.label.isField = true ∧ field.label.sameSelection node.label = true

theorem mem_addToField {node n : Selection} {found : List Selection}
    (h : n ∈ addToField node found) :
    ∃ m ∈ found, n.label = m.label ∧
      ∀ grandchild ∈ n.children,
        grandchild ∈ m.children ∨ (Accepts node m ∧ grandchild ∈ node.children) := by
  induction found with
  | nil => cases h
  | cons child rest ih =>
      unfold addToField at h
      split at h
      · next hsame =>
          rcases List.mem_cons.1 h with rfl | h
          · refine ⟨child, List.mem_cons_self, rfl, ?_⟩
            intro g hg
            have haccepts : Accepts node child := by simpa [Accepts] using hsame
            exact (List.mem_append.1 hg).imp_right fun hg => ⟨haccepts, hg⟩
          · exact ⟨n, List.mem_cons_of_mem _ h, rfl, fun g hg => .inl hg⟩
      · rcases List.mem_cons.1 h with rfl | h
        · exact ⟨n, List.mem_cons_self, rfl, fun g hg => .inl hg⟩
        · rcases ih h with ⟨m, hm, hrest⟩
          exact ⟨m, List.mem_cons_of_mem _ hm, hrest⟩

theorem addToField_grows (node : Selection) {m : Selection} {found : List Selection}
    (h : m ∈ found) :
    ∃ n ∈ addToField node found, n.label = m.label ∧ m.children ⊆ n.children := by
  induction found with
  | nil => cases h
  | cons child rest ih =>
      unfold addToField
      split
      · rcases List.mem_cons.1 h with rfl | h
        · exact ⟨_, List.mem_cons_self, rfl, List.subset_append_left _ _⟩
        · exact ⟨m, List.mem_cons_of_mem _ h, rfl, List.Subset.refl _⟩
      · rcases List.mem_cons.1 h with rfl | h
        · exact ⟨m, List.mem_cons_self, rfl, List.Subset.refl _⟩
        · rcases ih h with ⟨n, hn, hrest⟩
          exact ⟨n, List.mem_cons_of_mem _ hn, hrest⟩

theorem addToField_adds {node m : Selection} {found : List Selection} (hm : m ∈ found)
    (h : Accepts node m) :
    ∃ n ∈ addToField node found, Accepts node n ∧ node.children ⊆ n.children := by
  induction found with
  | nil => cases hm
  | cons child rest ih =>
      unfold addToField
      split
      · next hsame =>
          have haccepts : Accepts node child := by simpa [Accepts] using hsame
          exact ⟨_, List.mem_cons_self, haccepts, List.subset_append_right _ _⟩
      · next hsame =>
          rcases List.mem_cons.1 hm with rfl | hm
          · exact absurd (by simpa [Accepts] using h) hsame
          · rcases ih hm with ⟨n, hn, hrest⟩
            exact ⟨n, List.mem_cons_of_mem _ hn, hrest⟩

theorem mem_foldl_addToField {nodes : List Selection} :
    ∀ {found : List Selection} {n : Selection},
      n ∈ nodes.foldl (fun found node => addToField node found) found →
        ∃ m ∈ found, n.label = m.label ∧
          ∀ grandchild ∈ n.children, grandchild ∈ m.children ∨
            ∃ node ∈ nodes, Accepts node n ∧ grandchild ∈ node.children := by
  induction nodes with
  | nil => exact fun {_ n} h => ⟨n, h, rfl, fun _ hg => .inl hg⟩
  | cons node rest ih =>
      intro found n h
      -- The rest adds to a list that the first node may have added to.
      rcases ih h with ⟨m, hm, hlabel, hbelow⟩
      rcases mem_addToField hm with ⟨k, hk, hmk, hbelowk⟩
      refine ⟨k, hk, hlabel.trans hmk, ?_⟩
      intro g hg
      rcases hbelow g hg with hg | ⟨x, hx, hrest⟩
      · rcases hbelowk g hg with hg | ⟨haccepts, hg⟩
        · exact .inl hg
        · refine .inr ⟨node, List.mem_cons_self, ?_, hg⟩
          unfold Accepts at haccepts ⊢
          rwa [hlabel, hmk]
      · exact .inr ⟨x, List.mem_cons_of_mem _ hx, hrest⟩

theorem foldl_addToField_grows (nodes : List Selection) :
    ∀ {found : List Selection} {m : Selection}, m ∈ found →
      ∃ n ∈ nodes.foldl (fun found node => addToField node found) found,
        n.label = m.label ∧ m.children ⊆ n.children := by
  induction nodes with
  | nil => exact fun {_ m} h => ⟨m, h, rfl, List.Subset.refl _⟩
  | cons node rest ih =>
      intro found m h
      rcases addToField_grows node h with ⟨k, hk, hlabel, hsub⟩
      rcases ih hk with ⟨n, hn, hnk, hsubk⟩
      exact ⟨n, hn, hnk.trans hlabel, List.Subset.trans hsub hsubk⟩

theorem foldl_addToField_adds {nodes : List Selection} {node : Selection} (hnode : node ∈ nodes) :
    ∀ {found : List Selection} {m : Selection}, m ∈ found → Accepts node m →
      ∃ n ∈ nodes.foldl (fun found node => addToField node found) found,
        n.label.sameSelection node.label = true ∧ node.children ⊆ n.children := by
  induction nodes with
  | nil => cases hnode
  | cons first rest ih =>
      intro found m hm haccepts
      rcases List.mem_cons.1 hnode with rfl | hnode
      · -- Its children are added now, and later nodes take none away.
        rcases addToField_adds hm haccepts with ⟨k, hk, hkAccepts, hsub⟩
        rcases foldl_addToField_grows rest hk with ⟨n, hn, hlabel, hsubk⟩
        exact ⟨n, hn, hlabel ▸ hkAccepts.2, List.Subset.trans hsub hsubk⟩
      · -- The field is still there when its turn comes.
        rcases addToField_grows first hm with ⟨k, hk, hlabel, -⟩
        refine ih hnode hk ?_
        unfold Accepts at haccepts ⊢
        rwa [hlabel]

/-- The nodes of `out` are those of `children`. Fields that a subtype has in common with its
siblings are there once, beside the subtype. -/
structure Folds (children out : List Selection) : Prop where
  label : ∀ node ∈ out, ∃ child ∈ children, node.label = child.label ∧
    ∀ grandchild ∈ node.children, grandchild ∈ child.children ∨
      ∃ subtype ∈ children, subtype.label.isSubtype = true ∧
        ∃ field ∈ subtype.children, Accepts field node ∧ grandchild ∈ field.children
  kept : ∀ child ∈ children, ∃ node ∈ out, node.label = child.label ∧
    ∀ grandchild ∈ child.children, grandchild ∈ node.children ∨
      (child.label.isSubtype = true ∧
        ∃ field ∈ out, field.label.sameSelection grandchild.label = true ∧
          grandchild.children ⊆ field.children)

theorem label_keepUnselected (siblings : List Selection) (s : Selection) :
    (keepUnselected siblings s).label = s.label := by
  rcases s with ⟨label, children⟩
  rw [keepUnselected]
  split <;> rfl

theorem children_keepUnselected_subset (siblings : List Selection) (s : Selection) :
    (keepUnselected siblings s).children ⊆ s.children := by
  rcases s with ⟨label, children⟩
  rw [keepUnselected]
  split
  · exact List.filter_subset_self children
  · exact List.Subset.refl children

theorem mem_selectedElsewhere {node : Selection} :
    node ∈ selectedElsewhere children ↔
      ∃ subtype ∈ children, subtype.label.isSubtype = true ∧ node ∈ subtype.children ∧
        selectedBy children node = true := by
  unfold selectedElsewhere
  rw [List.mem_flatMap]
  refine exists_congr fun subtype => and_congr_right fun _ => ?_
  by_cases hs : subtype.label.isSubtype = true
  · rw [if_pos hs, List.mem_filter]
    exact ⟨fun h => ⟨hs, h⟩, fun h => h.2⟩
  · rw [if_neg hs]
    exact ⟨nofun, fun h => absurd h.1 hs⟩

theorem selectedBy_iff {node : Selection} :
    selectedBy children node = true ↔ ∃ field ∈ children, Accepts node field := by
  unfold selectedBy Accepts
  rw [Bool.and_eq_true, List.any_eq_true]
  constructor
  · rintro ⟨-, field, hfield, h⟩
    exact ⟨field, hfield, by simpa using h⟩
  · rintro ⟨field, hfield, hisField, hsame⟩
    refine ⟨?_, field, hfield, by simp [hisField, hsame]⟩
    have hmerges := (Label.sameSelection_iff.1 hsame).1
    rwa [← Label.isField_of_mergesWith hmerges]

theorem foldSubtypes_folds (children : List Selection) :
    Folds children (foldSubtypes children) where
  label := by
    intro node hnode
    rcases mem_foldl_addToField hnode with ⟨m, hm, hlabel, hbelow⟩
    rcases List.mem_map.1 hm with ⟨child, hchild, rfl⟩
    refine ⟨child, hchild, hlabel.trans (label_keepUnselected children child), ?_⟩
    intro g hg
    rcases hbelow g hg with hg | ⟨field, hfield, haccepts, hg⟩
    · exact .inl (children_keepUnselected_subset children child hg)
    · rcases mem_selectedElsewhere.1 hfield with ⟨subtype, hsubtype, his, hin, -⟩
      exact .inr ⟨subtype, hsubtype, his, field, hin, haccepts, hg⟩
  kept := by
    intro child hchild
    have hmem : keepUnselected children child ∈ children.map (keepUnselected children) :=
      List.mem_map_of_mem hchild
    obtain ⟨node, hnode, hlabel, hsub⟩ :=
      foldl_addToField_grows (selectedElsewhere children) hmem
    refine ⟨node, hnode, hlabel.trans (label_keepUnselected children child), ?_⟩
    intro g hg
    -- Only what a subtype shares with a sibling of its leaves its place.
    by_cases his : child.label.isSubtype = true ∧ selectedBy children g = true
    · -- A field that goes has a field beside its subtype that takes its children.
      rcases his with ⟨his, hselected⟩
      rcases selectedBy_iff.1 hselected with ⟨field, hfield, haccepts⟩
      have hin : g ∈ selectedElsewhere children :=
        mem_selectedElsewhere.2 ⟨child, hchild, his, hg, hselected⟩
      have hfieldMem : keepUnselected children field ∈ children.map (keepUnselected children) :=
        List.mem_map_of_mem hfield
      have hkeeps : Accepts g (keepUnselected children field) := by
        unfold Accepts at haccepts ⊢
        rwa [label_keepUnselected]
      exact .inr ⟨his, foldl_addToField_adds hin hfieldMem hkeeps⟩
    · refine .inl (hsub ?_)
      rcases child with ⟨label, grandchildren⟩
      rw [keepUnselected]
      split
      · next hs =>
          have hnot : ¬ selectedBy children g = true := fun h => his ⟨hs, h⟩
          exact List.mem_filter.2 ⟨hg, by simpa using hnot⟩
      · exact hg

/-! ## Normal form, level by level -/

/-- A level in normal form: children are merged, subtypes folded, and what is below each node is
in normal form. -/
theorem normalize_eq_ok {limit levels : Nat}
    (h : normalize limit (levels + 1) children = .ok out) :
    ∃ merged, mergeAll children = .ok merged ∧
      List.Forall₂ (fun child node => node.label = child.label ∧
        normalize limit levels child.children = .ok node.children) (foldSubtypes merged) out := by
  unfold normalize at h
  rcases Outcome.bind_eq_ok_iff.1 h with ⟨merged, hmerged, h⟩
  refine ⟨merged, hmerged, (Outcome.mapM_eq_ok_iff.1 h).imp ?_⟩
  intro child node hnode
  rcases Outcome.bind_eq_ok_iff.1 hnode with ⟨below, hbelow, hnode⟩
  cases hnode
  exact ⟨rfl, hbelow⟩

/-- Nothing comes of nothing. -/
theorem exists_mem_of_normalize {limit levels : Nat} {node : Selection}
    (h : normalize limit levels children = .ok out) (hnode : node ∈ out) :
    ∃ child, child ∈ children := by
  cases levels with
  | zero => cases h
  | succ levels =>
      rcases normalize_eq_ok h with ⟨merged, hmerged, hout⟩
      rcases Outcome.mem_right hout hnode with ⟨folded, hfolded, -⟩
      rcases (foldSubtypes_folds merged).label folded hfolded with ⟨m, hm, -⟩
      rcases (mergeAll_merges hmerged).label m hm with ⟨child, hchild, -⟩
      exact ⟨child, hchild⟩

/-! ## Extraction -/

theorem define_eq_ok {fragment : FragmentDefinition} {found out : List FragmentDefinition}
    (h : define fragment found = .ok out) :
    (out = found ++ [fragment] ∧ ∀ f ∈ found, f.name ≠ fragment.name) ∨
      ∃ before other after, found = before ++ other :: after ∧ other.name = fragment.name ∧
        other.type = fragment.type ∧
        out = before ++ { other with children := other.children ++ fragment.children } ::
          after := by
  induction found generalizing out with
  | nil =>
      cases h
      exact .inl ⟨rfl, nofun⟩
  | cons other rest ih =>
      unfold define at h
      split at h
      · next hname =>
          split at h
          · next htype =>
              cases h
              exact .inr ⟨[], other, rest, rfl, hname, htype, rfl⟩
          · cases h
      · next hname =>
          rcases Outcome.bind_eq_ok_iff.1 h with ⟨tail, htail, h⟩
          cases h
          rcases ih htail with ⟨rfl, hnew⟩ | ⟨before, o, after, rfl, hrest⟩
          · exact .inl ⟨rfl, List.forall_mem_cons.2 ⟨hname, hnew⟩⟩
          · rcases hrest with ⟨hoName, hoType, rfl⟩
            exact .inr ⟨other :: before, o, after, rfl, hoName, hoType, rfl⟩

/-- What holds below all definitions holds when one is added, if it holds below that one. -/
theorem forall_children_of_define {P : Selection → Prop} {fragment : FragmentDefinition}
    {found out : List FragmentDefinition} (h : define fragment found = .ok out)
    (hfragment : ∀ child ∈ fragment.children, P child)
    (hfound : ∀ f ∈ found, ∀ child ∈ f.children, P child) :
    ∀ f ∈ out, ∀ child ∈ f.children, P child := by
  rcases define_eq_ok h with ⟨rfl, -⟩ | ⟨before, other, after, rfl, -, -, rfl⟩
  · exact List.forall_mem_append.2 ⟨hfound, List.forall_mem_singleton.2 hfragment⟩
  · have hother := hfound other (List.mem_append_right _ List.mem_cons_self)
    exact forall_mem_replace hfound (List.forall_mem_append.2 ⟨hother, hfragment⟩)

/-- How a list of nodes is gone through: definitions are put with those found before, inner ones
first, and leave a spread behind. -/
inductive Extraction : List FragmentDefinition → List Selection → List Selection →
    List FragmentDefinition → Prop where
  | nil {found : List FragmentDefinition} : Extraction found [] [] found
  | keep {found mid last : List FragmentDefinition} {label : Label}
      {children below rest nodes : List Selection} :
      (∀ name type, label ≠ .fragment name type) →
      Extraction found children below mid → Extraction mid rest nodes last →
      Extraction found (.node label children :: rest) (.node label below :: nodes) last
  | define {found mid defined last : List FragmentDefinition} {name : String} {type : GraphType}
      {children below rest nodes : List Selection} :
      Extraction found children below mid →
      Selection.define ⟨name, type, below⟩ mid = .ok defined →
      Extraction defined rest nodes last →
      Extraction found (.node (.fragment name type) children :: rest)
        (.node (.spread name type) [] :: nodes) last

/-- Extracting a node first, and then the nodes behind it, goes through them all. -/
def ExtractsFirst (s : Selection) : Prop :=
  ∀ {found mid last : List FragmentDefinition} {node : Selection} {rest nodes : List Selection},
    extract found s = .ok (node, mid) → Extraction mid rest nodes last →
      Extraction found (s :: rest) (node :: nodes) last

theorem extraction_of_forall {found last : List FragmentDefinition}
    (hall : ∀ child ∈ children, ExtractsFirst child)
    (h : extractAll found children = .ok (out, last)) : Extraction found children out last := by
  induction children generalizing found out last with
  | nil =>
      cases h
      exact .nil
  | cons child rest ih =>
      rcases Outcome.bind_eq_ok_iff.1 h with ⟨⟨node, mid⟩, hchild, h⟩
      rcases Outcome.bind_eq_ok_iff.1 h with ⟨⟨nodes, found'⟩, hrest, h⟩
      cases h
      refine hall child List.mem_cons_self hchild ?_
      exact ih (fun c hc => hall c (List.mem_cons_of_mem _ hc)) hrest

theorem extractsFirst (s : Selection) : ExtractsFirst s := by
  induction s with
  | node label children ih =>
      intro found mid last node rest nodes h hrest
      rw [extract] at h
      -- The children come first, with all definitions inside them.
      rcases Outcome.bind_eq_ok_iff.1 h with ⟨⟨below, inner⟩, hbelow, h⟩
      have hchildren : Extraction found children below inner := extraction_of_forall ih hbelow
      cases label with
      | fragment name type =>
          rcases Outcome.bind_eq_ok_iff.1 h with ⟨defined, hdefine, h⟩
          cases h
          exact .define hchildren hdefine hrest
      | _ =>
          cases h
          exact .keep nofun hchildren hrest

theorem extraction_of_extractAll {found last : List FragmentDefinition}
    (h : extractAll found children = .ok (out, last)) : Extraction found children out last :=
  extraction_of_forall (fun child _ => extractsFirst child) h

/-! ## Passes through all nodes -/

theorem substituteAll_eq_map (fragments : List FragmentDefinition) (children : List Selection) :
    substituteAll fragments children = children.map (substitute fragments) := by
  induction children with
  | nil => rfl
  | cons child rest ih => rw [substituteAll, ih, List.map_cons]

theorem label_substitute (fragments : List FragmentDefinition) (node : Selection) :
    (substitute fragments node).label = node.label := by
  rcases node with ⟨label, children⟩
  rw [substitute]
  rfl

theorem label_elide (node : Selection) : (elide node).label = node.label := by
  rcases node with ⟨label, children⟩
  rw [elide]
  rfl

theorem coversAll_iff {candidates : List Selection} :
    coversAll candidates children = true ↔ ∀ child ∈ children, covers candidates child = true := by
  induction children with
  | nil => simp [coversAll]
  | cons child rest ih => simp [coversAll, ih]

theorem covers_iff {candidates : List Selection} {label : Label} :
    covers candidates (.node label children) = true ↔
      ∃ candidate ∈ candidates, candidate.label.sameSelection label = true ∧
        ∀ child ∈ children, covers candidate.children child = true := by
  rw [covers, List.any_eq_true]
  simp only [Bool.and_eq_true, coversAll_iff]

theorem mem_elideAll {node : Selection} :
    node ∈ elideAll children ↔ ∃ child ∈ children, elide child = node ∧ node.isVoid = false := by
  induction children with
  | nil => simp [elideAll]
  | cons child rest ih =>
      unfold elideAll
      by_cases hvoid : (elide child).isVoid = true
      · rw [if_pos hvoid, ih]
        constructor
        · rintro ⟨c, hc, hrest⟩
          exact ⟨c, List.mem_cons_of_mem _ hc, hrest⟩
        · rintro ⟨c, hc, rfl, hnot⟩
          rcases List.mem_cons.1 hc with rfl | hc
          · rw [hvoid] at hnot
            cases hnot
          · exact ⟨c, hc, rfl, hnot⟩
      · rw [if_neg hvoid, List.mem_cons, ih]
        constructor
        · rintro (rfl | ⟨c, hc, hrest⟩)
          · exact ⟨child, List.mem_cons_self, rfl, by simpa using hvoid⟩
          · exact ⟨c, List.mem_cons_of_mem _ hc, hrest⟩
        · rintro ⟨c, hc, rfl, hnot⟩
          rcases List.mem_cons.1 hc with rfl | hc
          · exact .inl rfl
          · exact .inr ⟨c, hc, rfl, hnot⟩

theorem exists_mem_of_extraction {found last : List FragmentDefinition} {node : Selection}
    (h : Extraction found children out last) (hnode : node ∈ out) : ∃ child, child ∈ children := by
  cases h with
  | nil => cases hnode
  | keep => exact ⟨_, List.mem_cons_self⟩
  | define => exact ⟨_, List.mem_cons_self⟩

/-! ## Spreading -/

/-- The node that uses a fragment. -/
def spreadNode (fragment : FragmentDefinition) : Selection :=
  .node (.spread fragment.name fragment.type) []

/-- No node merges with the spread of a fragment. -/
def Spares (f : FragmentDefinition) (children : List Selection) : Prop :=
  ∀ child ∈ children, child.label.mergesWith (.spread f.name f.type) = false

/-- What is there once a fragment is spread: what it does not cover, and its spread. -/
theorem mem_spread_iff {fragment : FragmentDefinition} {node : Selection} :
    node ∈ spread fragment children ↔
      (node ∈ children ∧ (node.label.isSpread = true ∨ covers fragment.children node = false)) ∨
        (node = spreadNode fragment ∧ Spares fragment children) := by
  have hkept : ∀ child, child ∈ children.filter (fun child =>
      child.label.isSpread || !covers fragment.children child) ↔ child ∈ children ∧
        (child.label.isSpread = true ∨ covers fragment.children child = false) := by
    simp
  -- What merges with the spread is a spread itself, and stays.
  have hany : (children.filter fun child => child.label.isSpread || !covers fragment.children child
      ).any (fun child => child.label.mergesWith (.spread fragment.name fragment.type)) = true ↔
        ∃ child ∈ children,
          child.label.mergesWith (.spread fragment.name fragment.type) = true := by
    rw [List.any_eq_true]
    constructor
    · rintro ⟨child, hchild, hmerges⟩
      exact ⟨child, ((hkept child).1 hchild).1, hmerges⟩
    · rintro ⟨child, hchild, hmerges⟩
      exact ⟨child, (hkept child).2 ⟨hchild, .inl (Label.isSpread_of_mergesWith hmerges)⟩, hmerges⟩
  unfold spread
  dsimp only
  split
  · next hthere =>
      rcases hany.1 hthere with ⟨child, hchild, hmerges⟩
      rw [hkept]
      refine (or_iff_left ?_).symm
      rintro ⟨-, hnone⟩
      simp [hnone child hchild] at hmerges
  · next hnot =>
      rw [List.mem_append, hkept, List.mem_singleton]
      refine or_congr_right (and_iff_left fun child hchild => ?_).symm
      exact Bool.eq_false_iff.2 fun hmerges => hnot (hany.2 ⟨child, hchild, hmerges⟩)

theorem mem_spread {fragment : FragmentDefinition} {node : Selection}
    (h : node ∈ spread fragment children) : node ∈ children ∨ node = spreadNode fragment :=
  (mem_spread_iff.1 h).imp And.left And.left

/-- Only what the fragment covers goes. -/
theorem mem_spread_or_covers (fragment : FragmentDefinition) {child : Selection}
    (h : child ∈ children) :
    child ∈ spread fragment children ∨ covers fragment.children child = true := by
  by_cases hcovers : covers fragment.children child = true
  · exact .inr hcovers
  · exact .inl (mem_spread_iff.2 (.inl ⟨h, .inr (Bool.eq_false_iff.2 hcovers)⟩))

theorem mem_spread_of_isSpread (fragment : FragmentDefinition) {child : Selection}
    (h : child ∈ children) (hspread : child.label.isSpread = true) :
    child ∈ spread fragment children :=
  mem_spread_iff.2 (.inl ⟨h, .inl hspread⟩)

/-- A spread of the fragment is among the children afterwards. -/
theorem exists_mem_spread (fragment : FragmentDefinition) (children : List Selection) :
    ∃ node ∈ spread fragment children,
      node.label.mergesWith (.spread fragment.name fragment.type) = true := by
  by_cases hthere : ∃ child ∈ children,
      child.label.mergesWith (.spread fragment.name fragment.type) = true
  · rcases hthere with ⟨child, hchild, hmerges⟩
    have hspread : child.label.isSpread = true := Label.isSpread_of_mergesWith hmerges
    exact ⟨child, mem_spread_of_isSpread fragment hchild hspread, hmerges⟩
  · have hspares : Spares fragment children := fun child hchild =>
      Bool.eq_false_iff.2 fun hmerges => hthere ⟨child, hchild, hmerges⟩
    exact ⟨_, mem_spread_iff.2 (.inr ⟨rfl, hspares⟩), Label.mergesWith_refl _⟩

/-- Spreading the fragments of a type one after the other keeps what each of them keeps. -/
theorem spreadAll_induction {motive : List Selection → Prop} {fragments : List FragmentDefinition}
    {label : Label} (hstart : motive children)
    (hspread : label.needsChildren = true → ∀ fragment ∈ fragments,
      fragment.type.typeRef = label.type.typeRef → ∀ found, motive found →
        motive (spread fragment found)) :
    motive (spreadAll fragments label children) := by
  unfold spreadAll
  split
  · next hneeds =>
      -- Only this much of the hypothesis is kept, so that it goes through the induction.
      have hall := hspread hneeds
      clear hspread
      induction fragments generalizing children with
      | nil => exact hstart
      | cons fragment rest ih =>
          rw [List.foldl_cons]
          refine ih ?_ fun f hf => hall f (List.mem_cons_of_mem _ hf)
          split
          · next htype => exact hall fragment List.mem_cons_self htype children hstart
          · exact hstart
  · exact hstart

theorem mem_spreadAll {fragments : List FragmentDefinition} {label : Label} {node : Selection}
    (h : node ∈ spreadAll fragments label children) :
    node ∈ children ∨
      (label.needsChildren = true ∧ ∃ fragment ∈ fragments, node = spreadNode fragment) := by
  revert h
  refine spreadAll_induction (motive := fun found => node ∈ found → _) .inl ?_
  intro hneeds fragment hfragment _ found hfound h
  rcases mem_spread h with h | rfl
  · exact hfound h
  · exact .inr ⟨hneeds, fragment, hfragment, rfl⟩

/-! ## All passes -/

/-- The passes that led to a pruned query, with what they made of the tree and of its fragments. -/
structure Prunes (limit : Nat) (tree : Selection) (pruned : Pruned)
    (children nodes : List Selection) (found fragments : List FragmentDefinition) : Prop where
  normal : normalize limit (limit + 1) tree.children = .ok children
  extracted : Extraction [] children nodes found
  fragmentsNormal : List.Forall₂ (fun (f g : FragmentDefinition) =>
    g.name = f.name ∧ g.type = f.type ∧ normalize limit (limit + 1) f.children = .ok g.children)
      found fragments
  root : pruned.root = elide (substitute fragments (.node tree.label nodes))
  rootFilled : pruned.root.isVoid = false
  fragmentsElided : List.Forall₂ (fun (f g : FragmentDefinition) =>
    g.name = f.name ∧ g.type = f.type ∧ g.children = elideAll f.children ∧ g.children ≠ [])
      fragments pruned.fragments

theorem normalize_fragment_eq_ok {limit : Nat} {f g : FragmentDefinition}
    (h : f.normalize limit = .ok g) :
    g.name = f.name ∧ g.type = f.type ∧
      normalize limit (limit + 1) f.children = .ok g.children := by
  rcases Outcome.bind_eq_ok_iff.1 h with ⟨below, hbelow, h⟩
  cases h
  exact ⟨rfl, rfl, hbelow⟩

theorem elide_fragment_eq_ok {f g : FragmentDefinition} (h : f.elide = .ok g) :
    g.name = f.name ∧ g.type = f.type ∧ g.children = elideAll f.children ∧ g.children ≠ [] := by
  unfold FragmentDefinition.elide at h
  dsimp only at h
  split at h
  · cases h
  · next hne =>
      cases h
      exact ⟨rfl, rfl, rfl, by simpa using hne⟩

theorem prune_eq_ok {limit : Nat} {tree : Selection} {pruned : Pruned}
    (h : tree.prune limit = .ok pruned) :
    ∃ children nodes found fragments, Prunes limit tree pruned children nodes found fragments := by
  rcases Outcome.bind_eq_ok_iff.1 h with ⟨children, hchildren, h⟩
  rcases Outcome.bind_eq_ok_iff.1 h with ⟨⟨nodes, found⟩, hextract, h⟩
  rcases Outcome.bind_eq_ok_iff.1 h with ⟨fragments, hfragments, h⟩
  refine ⟨children, nodes, found, fragments, ?_⟩
  dsimp only at h
  split at h
  · cases h
  · next hvoid =>
      rcases Outcome.bind_eq_ok_iff.1 h with ⟨elided, helided, h⟩
      cases h
      exact {
        normal := hchildren
        extracted := extraction_of_extractAll hextract
        fragmentsNormal :=
          (Outcome.mapM_eq_ok_iff.1 hfragments).imp fun _ _ => normalize_fragment_eq_ok
        root := rfl
        rootFilled := by simpa using hvoid
        fragmentsElided :=
          (Outcome.mapM_eq_ok_iff.1 helided).imp fun _ _ => elide_fragment_eq_ok }

end Selection

end GraphQuery
