import GraphQuery.Proofs.Outcome
import GraphQuery.Proofs.Selection.Passes

/-!
# Selection.Exchange — sources that are exchanged for others

Selections look at the sources of arguments in three ways only: which names they list, which names
they have a value for, and which of them are one source. Where sources are exchanged for others
that are alike in this, every pass does the same on both sides.

- `Interchangeable` : a correspondence of sources that are alike
- `Label.Alike`, `Selection.Alike` : labels and trees whose sources correspond
- `Label.Alike.mergesWith`, `Label.Alike.sameSelection` : what passes ask of labels
- `Selection.agree_normalize`, `Selection.agree_extractAll`, `Selection.alike_substitute`,
  `Selection.alike_elide` : one lemma for each pass
- `Selection.agree_prune` : pruning
-/

set_option autoImplicit false

namespace GraphQuery

open Outcome (Agree)

/-- Sources that correspond are alike: they list the same set of names and have values for the
same names, and two of them are one source just when their partners are. -/
structure Interchangeable (R : ArgumentSource → ArgumentSource → Prop) : Prop where
  sameAs : ∀ {a b a' b' : ArgumentSource}, R a a' → R b b' → a.sameAs b = a'.sameAs b'
  fields : ∀ {a a' : ArgumentSource}, R a a' → ∀ name, name ∈ a.fields ↔ name ∈ a'.fields
  values : ∀ {a a' : ArgumentSource}, R a a' →
    ∀ name, (a.value name).isSome = (a'.value name).isSome

variable {R : ArgumentSource → ArgumentSource → Prop}

/-! ## Labels -/

namespace Label

/-- Labels that are equal but for their sources, which correspond. -/
inductive Alike (R : ArgumentSource → ArgumentSource → Prop) : Label → Label → Prop where
  | same {label : Label} : label.source? = none → Alike R label label
  | field {name : String} {type : GraphType} {arguments : List Argument}
      {x y : ArgumentSource} :
      R x y →
        Alike R (.field name type arguments (some x)) (.field name type arguments (some y))

namespace Alike

variable {a b a' b' : Label}

theorem name (h : Alike R a a') : a.name = a'.name := by
  cases h <;> rfl

theorem type (h : Alike R a a') : a.type = a'.type := by
  cases h <;> rfl

theorem isField (h : Alike R a a') : a.isField = a'.isField := by
  cases h <;> rfl

theorem isTypename (h : Alike R a a') : a.isTypename = a'.isTypename := by
  cases h <;> rfl

theorem isSubtype (h : Alike R a a') : a.isSubtype = a'.isSubtype := by
  cases h <;> rfl

theorem isSpread (h : Alike R a a') : a.isSpread = a'.isSpread := by
  cases h <;> rfl

theorem needsChildren (h : Alike R a a') : a.needsChildren = a'.needsChildren := by
  cases h <;> rfl

/-- Sources do not count when nodes merge. -/
theorem mergesWith (ha : Alike R a a') (hb : Alike R b b') :
    a.mergesWith b = a'.mergesWith b' := by
  cases ha with
  | same =>
      cases hb with
      | same => rfl
      | field => cases a <;> rfl
  | field =>
      cases hb with
      | same => cases b <;> rfl
      | field => rfl

theorem sameType (ha : Alike R a a') (hb : Alike R b b') : a.sameType b = a'.sameType b' := by
  simp [Label.sameType, ha.isTypename, ha.type, hb.type]

theorem sameSource (hR : Interchangeable R) (ha : Alike R a a') (hb : Alike R b b') :
    a.sameSource b = a'.sameSource b' := by
  cases ha with
  | same hnone =>
      cases hb with
      | same => rfl
      | field =>
          rw [Label.sameSource, Label.sameSource, hnone]
          rfl
  | field hx =>
      cases hb with
      | same hnone =>
          rw [Label.sameSource, Label.sameSource, hnone]
          rfl
      | field hy => exact hR.sameAs hx hy

theorem sameSelection (hR : Interchangeable R) (ha : Alike R a a') (hb : Alike R b b') :
    a.sameSelection b = a'.sameSelection b' := by
  simp only [Label.sameSelection, ha.mergesWith hb, ha.sameType hb, ha.sameSource hR hb]

end Alike

end Label

/-! ## Trees -/

namespace Selection

/-- Trees that are equal but for their sources, which correspond node by node. -/
inductive Alike (R : ArgumentSource → ArgumentSource → Prop) : Selection → Selection → Prop where
  | node {a b : Label} {xs ys : List Selection} :
      Label.Alike R a b → List.Forall₂ (Alike R) xs ys → Alike R (.node a xs) (.node b ys)

/-- Lists of trees that are alike one by one. -/
abbrev AllAlike (R : ArgumentSource → ArgumentSource → Prop) :
    List Selection → List Selection → Prop :=
  List.Forall₂ (Alike R)

variable {s t s' t' : Selection} {xs ys zs ws : List Selection}

theorem Alike.label (h : Alike R s t) : s.label.Alike R t.label := by
  cases h with
  | node hlabel _ => exact hlabel

theorem Alike.children (h : Alike R s t) : AllAlike R s.children t.children := by
  cases h with
  | node _ hchildren => exact hchildren

theorem allAlike_append (hxy : AllAlike R xs ys) (hzw : AllAlike R zs ws) :
    AllAlike R (xs ++ zs) (ys ++ ws) :=
  List.rel_append hxy hzw

theorem allAlike_filter {p q : Selection → Bool} (h : AllAlike R xs ys)
    (hpq : ∀ s t, Alike R s t → p s = q t) : AllAlike R (xs.filter p) (ys.filter q) :=
  List.rel_filter (fun s t hst => by simp [hpq s t hst]) h

theorem allAlike_any {p q : Selection → Bool} (h : AllAlike R xs ys)
    (hpq : ∀ s t, Alike R s t → p s = q t) : xs.any p = ys.any q := by
  induction h with
  | nil => rfl
  | cons hst _ ih => simp [hpq _ _ hst, ih]

theorem allAlike_isEmpty (h : AllAlike R xs ys) : xs.isEmpty = ys.isEmpty := by
  cases h <;> rfl

/-! ## Merging -/

theorem agree_absorb (hR : Interchangeable R) (hs : Alike R s s') (ht : Alike R t t') :
    Agree Eq (Alike R) (s.absorb t) (s'.absorb t') := by
  unfold absorb
  rw [hs.label.sameType ht.label, hs.label.sameSource hR ht.label, hs.label.name, hs.label.type,
    ht.label.type]
  split
  · exact .error rfl
  · split
    · exact .error rfl
    · exact .ok (.node hs.label (allAlike_append hs.children ht.children))

theorem agree_mergeInto (hR : Interchangeable R) (h : AllAlike R xs ys) (hst : Alike R s t) :
    Agree Eq (AllAlike R) (mergeInto xs s) (mergeInto ys t) := by
  induction h with
  | nil => exact .ok (.cons hst .nil)
  | cons hfirst hrest ih =>
      unfold mergeInto
      rw [hfirst.label.mergesWith hst.label]
      split
      · apply (agree_absorb hR hfirst hst).bind
        intro a b hab
        exact .ok (.cons hab hrest)
      · apply ih.bind
        intro as bs hmerged
        exact .ok (.cons hfirst hmerged)

theorem agree_mergeAll (hR : Interchangeable R) (h : AllAlike R xs ys) :
    Agree Eq (AllAlike R) (mergeAll xs) (mergeAll ys) :=
  Agree.foldlM h (fun _ _ _ _ hst hmerged => agree_mergeInto hR hmerged hst) .nil

/-! ## Folding -/

theorem alike_selectedBy (hR : Interchangeable R) (h : AllAlike R xs ys) (hst : Alike R s t) :
    selectedBy xs s = selectedBy ys t := by
  unfold selectedBy
  rw [hst.label.isField]
  congr 1
  apply allAlike_any h
  intro x y hxy
  rw [hxy.label.isField, hxy.label.sameSelection hR hst.label]

theorem alike_keepUnselected (hR : Interchangeable R) (h : AllAlike R xs ys)
    (hst : Alike R s t) : Alike R (keepUnselected xs s) (keepUnselected ys t) := by
  cases hst with
  | node hlabel hchildren =>
      rw [keepUnselected, keepUnselected, hlabel.isSubtype]
      split
      · refine .node hlabel (allAlike_filter hchildren ?_)
        intro x y hxy
        rw [alike_selectedBy hR h hxy]
      · exact .node hlabel hchildren

theorem alike_selectedElsewhere (hR : Interchangeable R) (h : AllAlike R xs ys) :
    AllAlike R (selectedElsewhere xs) (selectedElsewhere ys) := by
  -- The siblings stay what they are while the subtypes among them are gone through.
  refine List.rel_flatMap h fun s t hst => ?_
  rw [hst.label.isSubtype]
  split
  · exact allAlike_filter hst.children fun x y hxy => alike_selectedBy hR h hxy
  · exact .nil

theorem alike_addToField (hR : Interchangeable R) (hst : Alike R s t) (h : AllAlike R xs ys) :
    AllAlike R (addToField s xs) (addToField t ys) := by
  induction h with
  | nil => exact .nil
  | cons hfirst hrest ih =>
      unfold addToField
      rw [hfirst.label.isField, hfirst.label.sameSelection hR hst.label]
      split
      · exact .cons (.node hfirst.label (allAlike_append hfirst.children hst.children)) hrest
      · exact .cons hfirst ih

theorem alike_foldSubtypes (hR : Interchangeable R) (h : AllAlike R xs ys) :
    AllAlike R (foldSubtypes xs) (foldSubtypes ys) := by
  have hkept : AllAlike R (xs.map (keepUnselected xs)) (ys.map (keepUnselected ys)) :=
    List.rel_map (fun _ _ hst => alike_keepUnselected hR h hst) h
  have hstep : ∀ as bs, AllAlike R as bs → ∀ s t, Alike R s t →
      AllAlike R (addToField s as) (addToField t bs) :=
    fun _ _ hfound _ _ hst => alike_addToField hR hst hfound
  exact List.rel_foldl hstep hkept (alike_selectedElsewhere hR h)

/-! ## Normal form -/

theorem agree_normalize (hR : Interchangeable R) (limit levels : Nat) (h : AllAlike R xs ys) :
    Agree Eq (AllAlike R) (normalize limit levels xs) (normalize limit levels ys) := by
  induction levels generalizing xs ys with
  | zero => exact .error rfl
  | succ levels ih =>
      unfold normalize
      apply (agree_mergeAll hR h).bind
      intro as bs hmerged
      apply Agree.mapM (alike_foldSubtypes hR hmerged)
      intro s t hst
      apply (ih hst.children).bind
      intro _ _ hbelow
      exact .ok (.node hst.label hbelow)

end Selection

/-! ## Fragments -/

/-- Definitions that are equal but for the sources below them, which correspond. -/
structure FragmentDefinition.Alike (R : ArgumentSource → ArgumentSource → Prop)
    (f g : FragmentDefinition) : Prop where
  name : f.name = g.name
  type : f.type = g.type
  children : Selection.AllAlike R f.children g.children

namespace Selection

variable {s t : Selection} {xs ys : List Selection} {f g : FragmentDefinition}
  {found found' fragments fragments' : List FragmentDefinition}

/-- Lists of definitions that are alike one by one. -/
abbrev DefinitionsAlike (R : ArgumentSource → ArgumentSource → Prop) :
    List FragmentDefinition → List FragmentDefinition → Prop :=
  List.Forall₂ (FragmentDefinition.Alike R)

theorem agree_define (hfg : f.Alike R g) (h : DefinitionsAlike R found found') :
    Agree Eq (DefinitionsAlike R) (define f found) (define g found') := by
  induction h with
  | nil => exact .ok (.cons hfg .nil)
  | cons hfirst hrest ih =>
      unfold define
      rw [hfirst.name, hfirst.type, hfg.name, hfg.type]
      split
      · split
        · have hchildren := allAlike_append hfirst.children hfg.children
          exact .ok (.cons ⟨rfl, rfl, hchildren⟩ hrest)
        · exact .error rfl
      · apply ih.bind
        intro _ _ hdefined
        exact .ok (.cons hfirst hdefined)

/-- What extraction gives on both sides: a result, and the definitions found so far. -/
abbrev ExtractedAlike {α : Type} (R : ArgumentSource → ArgumentSource → Prop)
    (S : α → α → Prop) (p q : α × List FragmentDefinition) : Prop :=
  S p.1 q.1 ∧ DefinitionsAlike R p.2 q.2

theorem agree_extractAll_of_forall (h : AllAlike R xs ys)
    (hall : ∀ x ∈ xs, ∀ y found found', Alike R x y → DefinitionsAlike R found found' →
      Agree Eq (ExtractedAlike R (Alike R)) (extract found x) (extract found' y))
    (hfound : DefinitionsAlike R found found') :
    Agree Eq (ExtractedAlike R (AllAlike R)) (extractAll found xs) (extractAll found' ys) := by
  induction h generalizing found found' with
  | nil => exact .ok ⟨.nil, hfound⟩
  | cons hst _ ih =>
      rcases List.forall_mem_cons.1 hall with ⟨hfirst, hrest⟩
      rw [extractAll, extractAll]
      apply (hfirst _ _ _ hst hfound).bind
      rintro ⟨node, mid⟩ ⟨node', mid'⟩ ⟨hnode, hmid⟩
      apply (ih hrest hmid).bind
      rintro ⟨nodes, last⟩ ⟨nodes', last'⟩ ⟨hnodes, hlast⟩
      exact .ok ⟨.cons hnode hnodes, hlast⟩

theorem agree_extract (s t : Selection) (hst : Alike R s t)
    (hfound : DefinitionsAlike R found found') :
    Agree Eq (ExtractedAlike R (Alike R)) (extract found s) (extract found' t) := by
  induction s generalizing t found found' with
  | node label children ih =>
      cases hst with
      | node hlabel hchildren =>
          rw [extract, extract]
          have hall := agree_extractAll_of_forall hchildren
            (fun x hx y _ _ hxy hdefs => ih x hx y hxy hdefs) hfound
          apply hall.bind
          rintro ⟨below, mid⟩ ⟨below', mid'⟩ ⟨hbelow, hmid⟩
          -- Only a definition is taken out, and it has no source of its own.
          cases hlabel with
          | field hx => exact .ok ⟨.node (.field hx) hbelow, hmid⟩
          | same hnone =>
              cases label with
              | fragment name type =>
                  have hdefine := agree_define (f := ⟨name, type, below⟩)
                    (g := ⟨name, type, below'⟩) ⟨rfl, rfl, hbelow⟩ hmid
                  apply hdefine.bind
                  intro _ _ hdefined
                  exact .ok ⟨.node (.same rfl) .nil, hdefined⟩
              | _ => exact .ok ⟨.node (.same hnone) hbelow, hmid⟩

theorem agree_extractAll (h : AllAlike R xs ys) :
    Agree Eq (ExtractedAlike R (AllAlike R)) (extractAll [] xs) (extractAll [] ys) :=
  agree_extractAll_of_forall h (fun x _ y _ _ hxy hdefs => agree_extract x y hxy hdefs) .nil

/-! ## Substitution -/

theorem covers_eq_of_alike (hR : Interchangeable R) (s t : Selection) (hst : Alike R s t)
    (h : AllAlike R xs ys) : covers xs s = covers ys t := by
  induction s generalizing t xs ys with
  | node label children ih =>
      cases hst with
      | @node _ _ _ below hlabel hchildren =>
          have hall : ∀ as bs, AllAlike R as bs → coversAll as children = coversAll bs below := by
            intro as bs hab
            clear h
            induction hchildren with
            | nil => rfl
            | cons hfirst _ ihRest =>
                rcases List.forall_mem_cons.1 ih with ⟨ihFirst, ihOthers⟩
                rw [coversAll, coversAll, ihFirst _ hfirst hab, ihRest ihOthers]
          rw [covers, covers]
          apply allAlike_any h
          intro x y hxy
          rw [hxy.label.sameSelection hR hlabel, hall _ _ hxy.children]

theorem alike_spread (hR : Interchangeable R) (hfg : f.Alike R g) (h : AllAlike R xs ys) :
    AllAlike R (spread f xs) (spread g ys) := by
  have hkept : AllAlike R
      (xs.filter fun child => child.label.isSpread || !covers f.children child)
      (ys.filter fun child => child.label.isSpread || !covers g.children child) := by
    apply allAlike_filter h
    intro x y hxy
    rw [hxy.label.isSpread, covers_eq_of_alike hR x y hxy hfg.children]
  have hspread : Label.Alike R (.spread f.name f.type) (.spread g.name g.type) := by
    rw [hfg.name, hfg.type]
    exact .same rfl
  unfold spread
  dsimp only
  rw [allAlike_any hkept fun x y hxy => hxy.label.mergesWith hspread]
  split
  · exact hkept
  · exact allAlike_append hkept (.cons (.node hspread .nil) .nil)

theorem alike_spreadAll (hR : Interchangeable R) {a b : Label} (hab : a.Alike R b)
    (hf : DefinitionsAlike R fragments fragments') (h : AllAlike R xs ys) :
    AllAlike R (spreadAll fragments a xs) (spreadAll fragments' b ys) := by
  unfold spreadAll
  rw [hab.needsChildren, hab.type]
  split
  · refine List.rel_foldl (fun as bs hfound f g hfg => ?_) h hf
    rw [hfg.type]
    split
    · exact alike_spread hR hfg hfound
    · exact hfound
  · exact h

theorem alike_substitute (hR : Interchangeable R)
    (hf : DefinitionsAlike R fragments fragments') (s t : Selection) (hst : Alike R s t) :
    Alike R (substitute fragments s) (substitute fragments' t) := by
  induction s generalizing t with
  | node label children ih =>
      cases hst with
      | node hlabel hchildren =>
          rw [substitute, substitute, substituteAll_eq_map, substituteAll_eq_map]
          refine .node hlabel (alike_spreadAll hR hlabel hf ?_)
          induction hchildren with
          | nil => exact .nil
          | cons hfirst _ ihRest =>
              rcases List.forall_mem_cons.1 ih with ⟨ihFirst, ihOthers⟩
              exact .cons (ihFirst _ hfirst) (ihRest ihOthers)

/-! ## Elision -/

theorem alike_isVoid (hst : Alike R s t) : s.isVoid = t.isVoid := by
  unfold isVoid
  rw [hst.label.needsChildren, allAlike_isEmpty hst.children]

theorem alike_elideAll_of_forall (h : AllAlike R xs ys)
    (hall : ∀ x ∈ xs, ∀ y, Alike R x y → Alike R (elide x) (elide y)) :
    AllAlike R (elideAll xs) (elideAll ys) := by
  induction h with
  | nil => exact .nil
  | cons hst _ ih =>
      rcases List.forall_mem_cons.1 hall with ⟨hfirst, hrest⟩
      have helided := hfirst _ hst
      rw [elideAll, elideAll, alike_isVoid helided]
      split
      · exact ih hrest
      · exact .cons helided (ih hrest)

theorem alike_elide (s t : Selection) (hst : Alike R s t) : Alike R (elide s) (elide t) := by
  induction s generalizing t with
  | node label children ih =>
      cases hst with
      | node hlabel hchildren =>
          rw [elide, elide]
          exact .node hlabel (alike_elideAll_of_forall hchildren fun x hx y hxy => ih x hx y hxy)

theorem alike_elideAll (h : AllAlike R xs ys) : AllAlike R (elideAll xs) (elideAll ys) :=
  alike_elideAll_of_forall h fun x _ y hxy => alike_elide x y hxy

end Selection

/-! ## Pruning -/

theorem FragmentDefinition.agree_normalize (hR : Interchangeable R) (limit : Nat)
    {f g : FragmentDefinition} (hfg : f.Alike R g) :
    Agree Eq (FragmentDefinition.Alike R) (f.normalize limit) (g.normalize limit) := by
  apply (Selection.agree_normalize hR limit (limit + 1) hfg.children).bind
  intro _ _ hbelow
  exact .ok ⟨hfg.name, hfg.type, hbelow⟩

theorem FragmentDefinition.agree_elide {f g : FragmentDefinition} (hfg : f.Alike R g) :
    Agree Eq (FragmentDefinition.Alike R) f.elide g.elide := by
  have hbelow := Selection.alike_elideAll hfg.children
  unfold FragmentDefinition.elide
  dsimp only
  rw [Selection.allAlike_isEmpty hbelow, hfg.name]
  split
  · exact .error rfl
  · exact .ok ⟨rfl, hfg.type, hbelow⟩

/-- Pruned queries that are equal but for their sources, which correspond. -/
structure Pruned.Alike (R : ArgumentSource → ArgumentSource → Prop) (p q : Pruned) : Prop where
  root : Selection.Alike R p.root q.root
  fragments : Selection.DefinitionsAlike R p.fragments q.fragments

theorem Selection.agree_prune (hR : Interchangeable R) (limit : Nat) {s t : Selection}
    (hst : Selection.Alike R s t) :
    Agree Eq (Pruned.Alike R) (s.prune limit) (t.prune limit) := by
  unfold prune
  apply (Selection.agree_normalize hR limit (limit + 1) hst.children).bind
  intro xs ys hchildren
  apply (Selection.agree_extractAll hchildren).bind
  rintro ⟨nodes, found⟩ ⟨nodes', found'⟩ ⟨hnodes, hfound⟩
  apply (Agree.mapM hfound fun _ _ => FragmentDefinition.agree_normalize hR limit).bind
  intro fragments fragments' hfragments
  have hroot := Selection.alike_elide _ _
    (Selection.alike_substitute hR hfragments _ _ (.node hst.label hnodes))
  dsimp only
  rw [Selection.alike_isVoid hroot, hroot.label.name]
  split
  · exact .error rfl
  · apply (Agree.mapM hfragments fun _ _ => FragmentDefinition.agree_elide).bind
    intro _ _ helided
    exact .ok ⟨hroot, helided⟩

end GraphQuery
