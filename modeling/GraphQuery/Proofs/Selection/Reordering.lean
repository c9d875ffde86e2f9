import GraphQuery.Proofs.Selection.Coverage
import GraphQuery.Proofs.Selection.Similar
import Mathlib.Data.List.Nodup

/-!
# Selection.Reordering — trees that differ in the order of nodes only

Trees that are equal but for the order of their nodes are similar, and so are their pruned forms.
These are typed, and repeat no node, so they are equal but for the order of their nodes again. Where
the order is all that differs, the same paths are asked for.

- `Label.Matches` : labels that are equal but for the type tag of the discriminator
- `Selection.Reordered`, `Pruned.Reordered` : trees and queries in another order
- `Selection.similar_of_reordered`, `Selection.reordered_of_similar` : the order of similar trees
- `Selection.agree_prune_of_reordered` : pruning
- `Selection.selects_of_similar` : paths
-/

set_option autoImplicit false

namespace GraphQuery

/-! ## Lists in another order -/

/-- The lists correspond, element by element, once one of them is put in another order. -/
def Permuted {α : Type} (R : α → α → Prop) (xs ys : List α) : Prop :=
  ∃ zs, List.Perm ys zs ∧ List.Forall₂ R xs zs

section Permuted

variable {α : Type} {R : α → α → Prop} {xs ys : List α}

theorem Permuted.paired (h : Permuted R xs ys) : Selection.Paired R (· ∈ xs) (· ∈ ys) := by
  rcases h with ⟨zs, hperm, hzs⟩
  refine ⟨fun x hx => ?_, fun y hy => ?_⟩
  · rcases Outcome.mem_left hzs hx with ⟨z, hz, hxz⟩
    exact ⟨z, hperm.mem_iff.2 hz, hxz⟩
  · exact Outcome.mem_right hzs (hperm.mem_iff.1 hy)

/-- Partners that nothing else has put the lists in correspondence. -/
theorem permuted_of_paired (h : Selection.Paired R (· ∈ xs) (· ∈ ys)) (hxs : xs.Nodup)
    (hys : ys.Nodup) (hleft : ∀ x ∈ xs, ∀ x' ∈ xs, ∀ y, R x y → R x' y → x = x')
    (hright : ∀ x, ∀ y ∈ ys, ∀ y' ∈ ys, R x y → R x y' → y = y') : Permuted R xs ys := by
  rcases Selection.exists_partners h.left with ⟨partner, hpartner⟩
  have hinj : ∀ x ∈ xs, ∀ x' ∈ xs, partner x = partner x' → x = x' := by
    intro x hx x' hx' heq
    exact hleft x hx x' hx' _ (hpartner x hx).2 (heq ▸ (hpartner x' hx').2)
  refine ⟨xs.map partner, ?_, ?_⟩
  · refine (List.perm_ext_iff_of_nodup hys (hxs.map_on hinj)).2 fun y => ?_
    refine ⟨fun hy => ?_, fun hy => ?_⟩
    · rcases h.right y hy with ⟨x, hx, hxy⟩
      rcases hpartner x hx with ⟨hmem, hpartner⟩
      rw [hright x y hy _ hmem hxy hpartner]
      exact List.mem_map_of_mem hx
    · rcases List.mem_map.1 hy with ⟨x, hx, rfl⟩
      exact (hpartner x hx).1
  · rw [List.forall₂_map_right_iff, List.forall₂_same]
    exact fun x hx => (hpartner x hx).2

end Permuted

/-! ## Labels -/

/-- Labels of one kind, name and type, with the same arguments and a source of the same identity.
The type tag of a discriminator does not count. -/
structure Label.Matches (a b : Label) : Prop where
  same : a.sameSelection b = true
  arguments : a.arguments = b.arguments

namespace Label

variable {a b : Label}

theorem Matches.refl (a : Label) : a.Matches a :=
  ⟨sameSelection_refl a, rfl⟩

/-- Where sources of one identity are one source, labels that match are equal, but for the type tag
of the discriminator. -/
theorem Matches.eq (h : a.Matches b) (hname : a.isTypename = false)
    (hsource : ∀ x y, a.source? = some x → b.source? = some y → x.identity = y.identity → x = y) :
    a = b := by
  rcases h with ⟨hsame, harguments⟩
  have hmerges : a.mergesWith b = true := (sameSelection_iff.1 hsame).1
  have htype : a.type = b.type := type_eq_of_sameSelection hsame hname
  have hidentity := sameSource_iff.1 (sameSelection_iff.1 hsame).2.2
  cases a <;> cases b <;> first | cases hmerges | skip
  case field.field name type arguments source name' type' arguments' source' =>
    obtain rfl : source = source' := by
      cases source <;> cases source' <;> simp_all [source?]
    simp_all [mergesWith, Label.type, Label.arguments]
  all_goals simp_all [mergesWith, Label.type, isTypename]

/-- What merges and can be selected from one type has the arguments that the type declares. -/
theorem arguments_eq_of_fits {s : Schema} {owner : TypeRef} (h : a.mergesWith b = true)
    (ha : a.Fits s owner) (hb : b.Fits s owner) : a.arguments = b.arguments := by
  cases a <;> cases b <;> first | cases h | skip
  case field.field name type arguments source name' type' arguments' source' =>
    obtain rfl : name = name' := by simpa [mergesWith] using h
    have hfield := ha.1.symm.trans hb.1
    simp_all [Label.arguments]
  all_goals rfl

end Label

namespace Selection

/-! ## Trees -/

/-- Trees with labels that match and with the same children in some order, and so on below. -/
inductive Reordered : Selection → Selection → Prop where
  | node {a b : Label} {xs ys zs : List Selection} :
      a.Matches b → List.Perm ys zs → xs.length = zs.length →
      (∀ x z, (x, z) ∈ xs.zip zs → Reordered x z) → Reordered (.node a xs) (.node b ys)

variable {s t : Selection} {xs ys : List Selection}

theorem Reordered.label (h : Reordered s t) : s.label.Matches t.label := by
  cases h with
  | node hlabel => exact hlabel

theorem Reordered.of_children (hlabel : s.label.Matches t.label)
    (h : Permuted Reordered s.children t.children) : Reordered s t := by
  rcases s with ⟨a, xs⟩
  rcases t with ⟨b, ys⟩
  rcases h with ⟨zs, hperm, hzs⟩
  rcases List.forall₂_iff_zip.1 hzs with ⟨hlength, hzip⟩
  exact .node hlabel hperm hlength fun x z => hzip

theorem Reordered.refl (s : Selection) : Reordered s s := by
  induction s with
  | node label children ih =>
      exact .of_children (.refl label)
        ⟨children, List.Perm.refl _, List.forall₂_same.2 ih⟩

theorem similar_of_reordered (h : Reordered s t) : Similar s t := by
  induction h with
  | node hlabel hperm hlength _ ih =>
      have hchildren : Permuted Similar _ _ :=
        ⟨_, hperm, List.forall₂_iff_zip.2 ⟨hlength, fun hmem => ih _ _ hmem⟩⟩
      exact .of_children hlabel.same hchildren.paired

theorem mergesWith_of_reordered (h : Reordered s t) : s.label.mergesWith t.label = true :=
  (Label.sameSelection_iff.1 h.label.same).1

theorem Apart.nodup (h : Apart xs) : xs.Nodup := by
  refine (List.pairwise_map.1 h).imp fun {x y} hxy heq => ?_
  rw [heq, Label.mergesWith_refl] at hxy
  cases hxy

/-- Among nodes that are apart, a node has one partner only. -/
theorem permuted_of_apart (h : Paired Reordered (· ∈ xs) (· ∈ ys)) (hxs : Apart xs)
    (hys : Apart ys) : Permuted Reordered xs ys := by
  refine permuted_of_paired h hxs.nodup hys.nodup ?_ ?_
  · intro x hx x' hx' y hxy hxy'
    exact hxs.eq hx hx' (Label.mergesWith_trans (mergesWith_of_reordered hxy)
      (Label.mergesWith_symm (mergesWith_of_reordered hxy')))
  · intro x y hy y' hy' hxy hxy'
    exact hys.eq hy hy' (Label.mergesWith_trans
      (Label.mergesWith_symm (mergesWith_of_reordered hxy)) (mergesWith_of_reordered hxy'))

/-- Similar trees that repeat no node and can be selected from one type differ in their order. -/
theorem reordered_of_similar {schema : Schema} {owner : TypeRef} (h : Similar s t)
    (hs : Distinct s) (ht : Distinct t) (hsTyped : Typed schema owner s)
    (htTyped : Typed schema owner t) : Reordered s t := by
  refine Similar.induction (motive := fun s t => ∀ owner, Distinct s → Distinct t →
    Typed schema owner s → Typed schema owner t → Reordered s t) ?_ h owner hs ht hsTyped htTyped
  intro a b xs ys hlabel hbelow owner hs ht hsTyped htTyped
  have hmerges : a.mergesWith b = true := (Label.sameSelection_iff.1 hlabel).1
  refine .of_children ⟨hlabel, Label.arguments_eq_of_fits hmerges hsTyped.fits htTyped.fits⟩
    (permuted_of_apart (hbelow.imp fun x y hx hy hxy => ?_) hs.apart ht.apart)
  -- The children of both are selected from one type.
  have hyTyped := (htTyped.child_of_sameSelection hy hlabel).2
  exact hxy _ (hs.children x hx) (ht.children y hy) (hsTyped.childrenTyped x hx) hyTyped

theorem permuted_of_allSimilar {schema : Schema} {owner : TypeRef} (h : AllSimilar xs ys)
    (hxs : AllDistinct xs) (hys : AllDistinct ys) (hxsTyped : AllTyped schema owner xs)
    (hysTyped : AllTyped schema owner ys) : Permuted Reordered xs ys := by
  refine permuted_of_apart (h.imp fun x y hx hy hxy => ?_) hxs.1 hys.1
  exact reordered_of_similar hxy (hxs.2 x hx) (hys.2 y hy) (hxsTyped x hx) (hysTyped y hy)

end Selection

/-! ## Queries -/

/-- Definitions of one fragment that differ in the order of nodes. -/
structure FragmentDefinition.Reordered (f g : FragmentDefinition) : Prop where
  name : f.name = g.name
  type : f.type = g.type
  children : Permuted Selection.Reordered f.children g.children

/-- Queries that differ in the order of nodes and in the order of fragments. -/
structure Pruned.Reordered (p q : Pruned) : Prop where
  root : Selection.Reordered p.root q.root
  fragments : Permuted FragmentDefinition.Reordered p.fragments q.fragments

namespace Selection

variable {schema : Schema} {owner : TypeRef} {limit : Nat}

theorem permuted_of_definitionsSimilar {fragments others : List FragmentDefinition}
    (h : DefinitionsSimilar fragments others) (hd : DistinctNames fragments)
    (hd' : DistinctNames others)
    (hf : ∀ f ∈ fragments, AllDistinct f.children ∧ DefinitionTyped schema f)
    (hg : ∀ g ∈ others, AllDistinct g.children ∧ DefinitionTyped schema g) :
    Permuted FragmentDefinition.Reordered fragments others := by
  have hpaired : Paired FragmentDefinition.Reordered (· ∈ fragments) (· ∈ others) := by
    refine h.imp fun f g hfMem hgMem hfg => ⟨hfg.name, hfg.type, ?_⟩
    rcases hf f hfMem with ⟨hfDistinct, -, hfTyped⟩
    rcases hg g hgMem with ⟨hgDistinct, -, hgTyped⟩
    rw [← hfg.type] at hgTyped
    exact permuted_of_allSimilar hfg.children hfDistinct hgDistinct hfTyped hgTyped
  refine permuted_of_paired hpaired (List.Nodup.of_map _ hd) (List.Nodup.of_map _ hd') ?_ ?_
  · intro f hf f' hf' g hfg hfg'
    exact List.inj_on_of_nodup_map hd hf hf' (hfg.name.trans hfg'.name.symm)
  · intro f g hg g' hg' hfg hfg'
    exact List.inj_on_of_nodup_map hd' hg hg' (hfg.name.symm.trans hfg'.name)

/-- Pruning fails on both of two trees in different orders, or gives queries in different orders. -/
theorem agree_prune_of_reordered {tree other : Unpruned} (h : tree.root.Reordered other.root)
    (ht : Typed schema owner tree.root) (ho : Typed schema owner other.root) :
    Outcome.Agree (fun _ _ => True) Pruned.Reordered
      (tree.root.prune limit) (other.root.prune limit) := by
  refine (agree_prune_of_similar (similar_of_reordered h) limit).imp fun p q hp hq hpq => ?_
  rcases distinct_of_prune hp with ⟨hpRoot, hpDistinct⟩
  rcases distinct_of_prune hq with ⟨hqRoot, hqDistinct⟩
  rcases typed_of_prune hp ht with ⟨hpTyped, hpFragments⟩
  rcases typed_of_prune hq ho with ⟨hqTyped, hqFragments⟩
  exact ⟨reordered_of_similar hpq.root hpRoot hqRoot hpTyped hqTyped,
    permuted_of_definitionsSimilar hpq.fragments (distinctNames_of_prune hp)
      (distinctNames_of_prune hq) (fun f hf => ⟨hpDistinct f hf, hpFragments f hf⟩)
      fun g hg => ⟨hqDistinct g hg, hqFragments g hg⟩⟩

/-! ## Paths -/

/-- Similar nodes, with similar definitions, ask for the same paths. -/
theorem selects_of_similar {nodes nodes' : List Selection}
    {fragments fragments' : List FragmentDefinition} {path : List Step}
    (h : Selects schema fragments nodes path) (hnodes : AllSimilar nodes nodes')
    (hfragments : DefinitionsSimilar fragments fragments') :
    Selects schema fragments' nodes' path := by
  induction h generalizing nodes' with
  | leaf hnode hreads hleaf =>
      rcases hnodes.left _ hnode with ⟨node', hnode', hsimilar⟩
      have hsame := Label.sameSelection_symm hsimilar.label
      refine .leaf hnode' (Label.reads_of_sameSelection hsame hreads) ?_
      rw [Label.opens_eq_of_sameSelection hsame]
      exact hleaf
  | deeper hnode hreads hopens hadmits _ ih =>
      rcases hnodes.left _ hnode with ⟨node', hnode', hsimilar⟩
      have hsame := Label.sameSelection_symm hsimilar.label
      refine .deeper hnode' (Label.reads_of_sameSelection hsame hreads) ?_ ?_
        (ih hsimilar.children)
      · rw [Label.opens_eq_of_sameSelection hsame]
        exact hopens
      · rw [Label.type_eq_of_opens hsame hopens]
        exact hadmits
  | within hnode hnarrows hadmits _ ih =>
      rcases hnodes.left _ hnode with ⟨node', hnode', hsimilar⟩
      have hsame := Label.sameSelection_symm hsimilar.label
      have hnarrows' := Label.narrows_of_sameSelection hsame hnarrows
      refine .within hnode' hnarrows' ?_ (ih hsimilar.children)
      rw [Label.type_eq_of_sameSelection hsame (Label.isTypename_of_narrows hnarrows')]
      exact hadmits
  | spread hnode hlabel hdefinition hadmits _ ih =>
      rcases hnodes.left _ hnode with ⟨node', hnode', hsimilar⟩
      rcases hfragments.left _ hdefinition with ⟨g, hg, hsame⟩
      have hlabel' : node'.label = .spread g.name g.type := by
        rw [← hsame.name, ← hsame.type]
        exact Label.eq_spread_of_sameSelection (hlabel ▸ Label.sameSelection_symm hsimilar.label)
      refine .spread hnode' hlabel' hg ?_ (ih hsame.children)
      rw [← hsame.type]
      exact hadmits

end Selection

/-- Similar queries ask for the same paths. -/
theorem Pruned.Similar.selects_iff {schema : Schema} {p q : Pruned} (h : p.Similar q)
    (path : List Step) : Selection.Selects schema p.fragments [p.root] path ↔
      Selection.Selects schema q.fragments [q.root] path := by
  have hroot : Selection.AllSimilar [p.root] [q.root] := by
    refine ⟨fun x hx => ⟨q.root, List.mem_singleton_self _, ?_⟩,
      fun y hy => ⟨p.root, List.mem_singleton_self _, ?_⟩⟩
    · rw [List.mem_singleton.1 hx]
      exact h.root
    · rw [List.mem_singleton.1 hy]
      exact h.root
  constructor
  · exact fun hselects => Selection.selects_of_similar hselects hroot h.fragments
  · exact fun hselects => Selection.selects_of_similar hselects hroot.symm
      (Selection.Paired.symm h.fragments fun _ _ => Selection.DefinitionSimilar.symm)

end GraphQuery
