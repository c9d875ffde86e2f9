import GraphQuery.Proofs.Selection.Extraction
import GraphQuery.Proofs.Selection.NormalForm
import GraphQuery.Proofs.Selection.Paths
import GraphQuery.Proofs.Selection.Typing
import Mathlib.Logic.Relation

/-!
# Selection.Places — where a node stands, and where normal form takes it

The place of a node are the fields that lead to it and the type that it is selected from. Subtypes
and spreads lead to no other field, and the definition of a fragment starts anew. Normal form takes
a field to another place only when it folds it out of a subtype: the fields that lead to it stay,
and so does the object that it is read from.

Which types an object is of is left open. Where every object is of every type, places only tell
which fields lead there.

- `Place`, `Place.Into` : places, and how a node leads from one to the next
- `Selection.Stands` : the nodes that stand at a place
- `Selection.Stands.fits` : a node fits the type that its place names
- `Selection.Solid` : nodes that select something
- `Selection.FoldsTo`, `Selection.Kept` : the places that a field can be folded out to
- `Selection.exists_stands_of_normalize` : what stands in a normal form stood there before
- `Selection.kept_of_normalize` : normal form keeps the fields of a tree, up to folding
-/

set_option autoImplicit false

namespace GraphQuery

/-- Where a node stands in a query: the fields that lead to it, the object that it is read from and
the type that it is selected from. The fields start at the operation, or at the definition of a
fragment. -/
structure Place where
  fragment : Option String
  steps : List Step
  object : TypeRef
  owner : TypeRef

/-- Objects are of all types. -/
def anyObject : TypeRef → TypeRef → Prop := fun _ _ => True

namespace Place

variable {admits other : TypeRef → TypeRef → Prop} {place mid next : Place} {a b : Label}

/-- The place of what is selected below a node, for an object that the type of the node admits. -/
inductive Into (admits : TypeRef → TypeRef → Prop) (place : Place) : Label → Place → Prop where
  | field {name : String} {type : GraphType} {arguments : List Argument}
      {source : Option ArgumentSource} {object : TypeRef} :
      admits type.typeRef object →
      Into admits place (.field name type arguments source)
        ⟨place.fragment,
          place.steps ++ [⟨place.object, name, source.map ArgumentSource.identity⟩], object,
          type.typeRef⟩
  | subtype {type : GraphType} :
      admits type.typeRef place.object →
      Into admits place (.subtype type) { place with owner := type.typeRef }
  | fragment {name : String} {type : GraphType} {object : TypeRef} :
      admits type.typeRef object →
      Into admits place (.fragment name type) ⟨some name, [], object, type.typeRef⟩

namespace Into

theorem owner_eq (h : Into admits place a next) : next.owner = a.type.typeRef := by
  cases h <;> rfl

theorem admits_object (h : Into admits place a next) : admits next.owner next.object := by
  cases h <;> assumption

theorem imp (h : Into admits place a next) (himp : ∀ type object, admits type object →
    other type object) : Into other place a next := by
  cases h with
  | field hadmits => exact .field (himp _ _ hadmits)
  | subtype hadmits => exact .subtype (himp _ _ hadmits)
  | fragment hadmits => exact .fragment (himp _ _ hadmits)

/-- Nodes that select the same lead to the same places. -/
theorem of_sameSelection (h : Into admits place a next) (hsame : b.sameSelection a = true) :
    Into admits place b next := by
  have hmerges := (Label.sameSelection_iff.1 hsame).1
  have hsource := Label.sameSource_iff.1 (Label.sameSelection_iff.1 hsame).2.2
  have htype : b.isTypename = false → b.type = a.type := Label.type_eq_of_sameSelection hsame
  cases h <;> cases b <;> first | cases hmerges | skip
  all_goals
    simp only [Label.mergesWith, beq_iff_eq, Label.isTypename, Label.type, Label.source?,
      forall_const] at hmerges hsource htype
    subst htype
  · subst hmerges
    rw [← hsource]
    exact .field ‹_›
  · exact .subtype ‹_›
  · subst hmerges
    exact .fragment ‹_›

/-- A field leads from a type to where it leads from a subtype of that. -/
theorem of_subtype (h : Into admits place a mid) (ha : a.isSubtype = true)
    (hnext : Into admits mid b next) (hb : b.isField = true) : Into admits place b next := by
  cases h <;> cases ha
  cases hnext <;> cases hb
  exact .field ‹_›

/-- And the other way round. -/
theorem in_subtype (h : Into admits place a mid) (ha : a.isSubtype = true)
    (hnext : Into admits place b next) (hb : b.isField = true) : Into admits mid b next := by
  cases h <;> cases ha
  cases hnext <;> cases hb
  exact .field ‹_›

end Into

/-- Where objects are of all types, every subtype leads somewhere. -/
theorem exists_into_of_isSubtype (place : Place) (h : a.isSubtype = true) :
    ∃ next, Into anyObject place a next := by
  cases a <;> cases h
  exact ⟨_, .subtype trivial⟩

theorem exists_into_of_opens (place : Place) (h : a.opens = true) :
    ∃ next, Into anyObject place a next := by
  cases a <;> first | cases h | skip
  · exact ⟨⟨_, _, place.object, _⟩, .field trivial⟩
  · exact ⟨_, .subtype trivial⟩
  · exact ⟨⟨_, _, place.object, _⟩, .fragment trivial⟩

end Place

/-- The place of what a definition selects from an object. -/
def FragmentDefinition.place (fragment : FragmentDefinition) (object : TypeRef) : Place :=
  ⟨some fragment.name, [], object, fragment.type.typeRef⟩

theorem FragmentDefinition.place_eq {f g : FragmentDefinition} (hname : g.name = f.name)
    (htype : g.type = f.type) (object : TypeRef) : g.place object = f.place object := by
  rw [place, place, hname, htype]

namespace Label

variable {a b : Label}

theorem isSpread_of_isSubtype (h : a.isSubtype = true) : a.isSpread = false := by
  cases a <;> first | rfl | cases h

theorem needsChildren_of_sameSelection (h : a.sameSelection b = true) :
    a.needsChildren = b.needsChildren := by
  have hmerges := (sameSelection_iff.1 h).1
  have htype : a.isTypename = false → a.type = b.type := type_eq_of_sameSelection h
  cases a <;> cases b <;>
    first | rfl | exact congrArg GraphType.isComposite (htype rfl) | cases hmerges

end Label

namespace Selection

/-- The nodes that stand at a place, where the given ones stand at the start. Spreads are read as
the fragments of their names. -/
inductive Stands (admits : TypeRef → TypeRef → Prop) (fragments : List FragmentDefinition) :
    Place → List Selection → Place → Selection → Prop where
  | here {start : Place} {nodes : List Selection} {node : Selection} :
      node ∈ nodes → Stands admits fragments start nodes start node
  | deeper {start next place : Place} {nodes : List Selection} {node found : Selection} :
      node ∈ nodes → start.Into admits node.label next →
      Stands admits fragments next node.children place found →
      Stands admits fragments start nodes place found
  | spread {start place : Place} {nodes : List Selection} {node found : Selection}
      {fragment : FragmentDefinition} :
      node ∈ nodes → node.label = .spread fragment.name fragment.type → fragment ∈ fragments →
      admits fragment.type.typeRef start.object →
      Stands admits fragments { start with owner := fragment.type.typeRef } fragment.children place
        found →
      Stands admits fragments start nodes place found

/-- The nodes that stand at a place whatever the types of the objects are. -/
abbrev StandsAnyhow : Place → List Selection → Place → Selection → Prop := Stands anyObject []

namespace Stands

variable {admits : TypeRef → TypeRef → Prop} {fragments : List FragmentDefinition}
  {start place mid next : Place} {nodes others : List Selection} {node found : Selection}
  {s : Schema}

theorem mono (h : Stands admits fragments start nodes place node) (hsub : nodes ⊆ others) :
    Stands admits fragments start others place node := by
  cases h with
  | here hnode => exact .here (hsub hnode)
  | deeper hnode hinto hbelow => exact .deeper (hsub hnode) hinto hbelow
  | spread hnode hlabel hfragment hadmits hbelow =>
      exact .spread (hsub hnode) hlabel hfragment hadmits hbelow

theorem exists_mem (h : Stands admits fragments start nodes place node) :
    ∃ first ∈ nodes, Stands admits fragments start [first] place node := by
  cases h with
  | here hnode => exact ⟨_, hnode, .here (List.mem_singleton.2 rfl)⟩
  | deeper hnode hinto hbelow =>
      exact ⟨_, hnode, .deeper (List.mem_singleton.2 rfl) hinto hbelow⟩
  | spread hnode hlabel hfragment hadmits hbelow =>
      exact ⟨_, hnode, .spread (List.mem_singleton.2 rfl) hlabel hfragment hadmits hbelow⟩

theorem of_mem {first : Selection} (h : Stands admits fragments start [first] place node)
    (hfirst : first ∈ nodes) : Stands admits fragments start nodes place node :=
  h.mono (List.cons_subset.2 ⟨hfirst, List.nil_subset _⟩)

/-- What stands below a node that stands somewhere. -/
theorem descend (h : Stands admits fragments start nodes mid node)
    (hinto : mid.Into admits node.label next)
    (hbelow : Stands admits fragments next node.children place found) :
    Stands admits fragments start nodes place found := by
  induction h with
  | here hnode => exact .deeper hnode hinto hbelow
  | deeper hnode hfirst _ ih => exact .deeper hnode hfirst (ih hinto hbelow)
  | spread hnode hlabel hfragment hadmits _ ih =>
      exact .spread hnode hlabel hfragment hadmits (ih hinto hbelow)

/-- Without spreads, what stands for some objects stands for any. -/
theorem anyhow (h : Stands admits [] start nodes place node) :
    StandsAnyhow start nodes place node := by
  induction h with
  | here hnode => exact .here hnode
  | deeper hnode hinto _ ih => exact .deeper hnode (hinto.imp fun _ _ _ => trivial) ih
  | spread _ _ hfragment _ _ => cases hfragment

/-- In a typed query, every node fits the type that its place names. -/
theorem fits (h : Stands admits fragments start nodes place node)
    (hf : ∀ f ∈ fragments, AllTyped s f.type.typeRef f.children)
    (ht : AllTyped s start.owner nodes) : node.label.Fits s place.owner := by
  induction h with
  | here hnode => exact (ht _ hnode).fits
  | deeper hnode hinto _ ih =>
      refine ih ?_
      rw [hinto.owner_eq]
      exact (ht _ hnode).childrenTyped
  | spread _ _ hfragment _ _ ih => exact ih (hf _ hfragment)

end Stands

/-- Every node of a typed tree stands somewhere. -/
theorem Typed.exists_stands {s : Schema} {start : Place} {owner : TypeRef} {root node : Selection}
    (h : Typed s owner root) (hholds : root.Holds node) :
    ∃ place, StandsAnyhow start [root] place node := by
  induction hholds generalizing owner start with
  | here => exact ⟨start, .here (List.mem_singleton.2 rfl)⟩
  | deeper hchild _ ih =>
      rcases start.exists_into_of_opens (h.opens hchild) with ⟨next, hinto⟩
      rcases ih (h.childrenTyped _ hchild) with ⟨place, hplace⟩
      exact ⟨place, .deeper (List.mem_singleton.2 rfl) hinto (hplace.of_mem hchild)⟩

/-! ## Nodes that select something -/

/-- A node that selects something: one that needs no children, or has such a node below it. -/
inductive Solid : Selection → Prop where
  | leaf {label : Label} {children : List Selection} :
      label.needsChildren = false → Solid (.node label children)
  | deeper {label : Label} {children : List Selection} {child : Selection} :
      child ∈ children → Solid child → Solid (.node label children)

theorem solid_iff {node : Selection} :
    node.Solid ↔ node.label.needsChildren = false ∨ ∃ child ∈ node.children, child.Solid := by
  constructor
  · intro h
    cases h with
    | leaf hneeds => exact .inl hneeds
    | deeper hchild hsolid => exact .inr ⟨_, hchild, hsolid⟩
  · rcases node with ⟨label, children⟩
    rintro (hneeds | ⟨child, hchild, hsolid⟩)
    · exact .leaf hneeds
    · exact .deeper hchild hsolid

theorem Solid.of_children {a b : Selection} (h : a.Solid)
    (hneeds : b.label.needsChildren = a.label.needsChildren)
    (hbelow : (∃ child ∈ a.children, child.Solid) → ∃ child ∈ b.children, child.Solid) :
    b.Solid := by
  rcases solid_iff.1 h with hleaf | hchild
  · exact solid_iff.2 (.inl (hneeds.trans hleaf))
  · exact solid_iff.2 (.inr (hbelow hchild))

/-- What stands for a node after a pass: another one that selects the same, and still something if
the node selects something. -/
structure StandsFor (found node : Selection) : Prop where
  same : found.label.sameSelection node.label = true
  solid : node.Solid → found.Solid

theorem StandsFor.refl (node : Selection) : node.StandsFor node :=
  ⟨Label.sameSelection_refl _, id⟩

theorem StandsFor.trans {a b c : Selection} (hab : a.StandsFor b) (hbc : b.StandsFor c) :
    a.StandsFor c :=
  ⟨Label.sameSelection_trans hab.same hbc.same, hab.solid ∘ hbc.solid⟩

/-! ## Folding outward -/

/-- The next place that a field can be folded out to: a subtype stands there, in which the inner
place is, and beside it a field that selects the same. -/
def Outward (stands : Place → Selection → Prop) (label : Label) (inner outer : Place) : Prop :=
  (∃ subtype, stands outer subtype ∧ subtype.label.isSubtype = true ∧
    outer.Into anyObject subtype.label inner) ∧
    ∃ field, stands outer field ∧ field.label.sameSelection label = true

/-- The places that a field can be folded out to, from one subtype after the other. -/
abbrev FoldsTo (stands : Place → Selection → Prop) (label : Label) : Place → Place → Prop :=
  Relation.ReflTransGen (Outward stands label)

section FoldsTo

variable {stands other : Place → Selection → Prop} {a b : Label} {inner outer : Place}

/-- Only the labels of what stands around a place matter, and what the field itself selects. -/
theorem Outward.imp (h : Outward stands a inner outer)
    (himp : ∀ place node, stands place node → node.label.isSpread = false →
      ∃ origin, other place origin ∧ origin.label = node.label)
    (hsame : a.sameSelection b = true) (hspread : a.isSpread = false) :
    Outward other b inner outer := by
  rcases h with ⟨⟨subtype, hsubtype, his, hinner⟩, field, hfield, hfieldSame⟩
  rcases himp outer subtype hsubtype (Label.isSpread_of_isSubtype his) with ⟨s, hs, hsLabel⟩
  have hfieldSpread : field.label.isSpread = false :=
    (Label.isSpread_of_mergesWith (Label.sameSelection_iff.1 hfieldSame).1).trans hspread
  rcases himp outer field hfield hfieldSpread with ⟨f, hf, hfLabel⟩
  exact ⟨⟨s, hs, hsLabel ▸ his, hsLabel ▸ hinner⟩, f, hf,
    hfLabel ▸ Label.sameSelection_trans hfieldSame hsame⟩

theorem foldsTo_imp (h : FoldsTo stands a inner outer)
    (himp : ∀ place node, stands place node → node.label.isSpread = false →
      ∃ origin, other place origin ∧ origin.label = node.label)
    (hsame : a.sameSelection b = true) (hspread : a.isSpread = false) :
    FoldsTo other b inner outer :=
  Relation.ReflTransGen.mono (fun _ _ hstep => hstep.imp himp hsame hspread) _ _ h

/-- Folding outward changes the type only that a field is selected from. -/
theorem foldsTo_eq_with_owner (h : FoldsTo stands a inner outer) :
    outer = { inner with owner := outer.owner } := by
  induction h with
  | refl => rfl
  | tail _ hstep ih =>
      rcases hstep with ⟨⟨subtype, -, his, hinto⟩, -⟩
      cases hlabel : subtype.label <;> rw [hlabel] at his hinto <;> cases his
      cases hinto
      rw [Place.mk.injEq] at ih ⊢
      exact ⟨ih.1, ih.2.1, ih.2.2.1, rfl⟩

/-- Where a field can be folded outward to, a field stands that selects the same. -/
theorem exists_of_foldsTo {node : Selection} (h : FoldsTo stands node.label inner outer)
    (hs : stands inner node) :
    ∃ near, stands outer near ∧ near.label.sameSelection node.label = true := by
  cases h with
  | refl => exact ⟨node, hs, Label.sameSelection_refl _⟩
  | tail _ hstep => exact hstep.2

/-- Something stands for a node, at its place or where it can be folded out to. -/
def Kept (before after : Place → Selection → Prop) (place : Place) (node : Selection) : Prop :=
  ∃ outer found, after outer found ∧ found.StandsFor node ∧ FoldsTo before node.label place outer

end FoldsTo

variable {admits : TypeRef → TypeRef → Prop} {limit levels : Nat} {start next place : Place}
  {children below out : List Selection} {child node image : Selection}

/-! ## Normal form -/

/-- What pruning puts below a node stood at the same place before, perhaps in a subtype. -/
theorem stands_of_below (h : normalize limit (levels + 1) children = .ok out)
    (hchild : child ∈ children) (hinto : start.Into anyObject child.label next)
    (hbelow : ∀ g ∈ below, Below (· ∈ children) child g)
    (hs : StandsAnyhow next below place node) : StandsAnyhow start children place node := by
  rcases hs.exists_mem with ⟨g, hg, hs⟩
  cases hbelow g hg with
  | @child other _ hother hmerges hg _ =>
      have hsame : child.label.sameSelection other.label = true :=
        sameSelection_of_together (.here hchild hother) rfl h hmerges
      exact .deeper hother (hinto.of_sameSelection (Label.sameSelection_symm hsame)) (hs.of_mem hg)
  | @folded subtype field _ hsubtype his hfield haccepts hg =>
      -- The field was selected in a subtype, which leads to the same place.
      have hsame := Label.sameSelection_symm haccepts.2
      have hisField : field.label.isField = true :=
        (Label.isField_of_mergesWith (Label.sameSelection_iff.1 hsame).1).trans haccepts.1
      rcases start.exists_into_of_isSubtype his with ⟨mid, hmid⟩
      have hnext := hmid.in_subtype his (hinto.of_sameSelection hsame) hisField
      exact .deeper hsubtype hmid (.deeper hfield hnext (hs.of_mem hg))

/-- What stands in a normal form stood there before. -/
theorem exists_stands_of_normalize (h : normalize limit levels children = .ok out)
    (hs : StandsAnyhow start out place node) :
    ∃ origin, StandsAnyhow start children place origin ∧ origin.label = node.label := by
  induction levels generalizing start children out with
  | zero => cases h
  | succ levels ih =>
      cases hs with
      | here hnode =>
          rcases exists_source_of_normalize h hnode with ⟨child, hchild, hlabel, -⟩
          exact ⟨child, .here hchild, hlabel.symm⟩
      | deeper hfirst hinto hs =>
          rcases exists_source_of_normalize h hfirst with
            ⟨child, hchild, hlabel, below, hbelow, hnormal⟩
          rcases ih hnormal hs with ⟨origin, horigin, horiginLabel⟩
          rw [hlabel] at hinto
          exact ⟨origin, stands_of_below h hchild hinto (fun g => (hbelow g).1) horigin,
            horiginLabel⟩
      | spread _ _ hfragment _ _ => cases hfragment

/-- Where something was selected, something is selected in normal form. -/
theorem exists_solid_of_normalize (h : normalize limit levels children = .ok out)
    (hsolid : ∃ child ∈ children, child.Solid) : ∃ node ∈ out, node.Solid := by
  induction levels generalizing children out with
  | zero => cases h
  | succ levels ih =>
      -- The image of a child is solid if something solid is put below it, or it needs nothing.
      have himage : ∀ {child g : Selection}, child ∈ children → g.Solid →
          g.label.sameSelection child.label = true →
          ((∃ k ∈ g.children, k.Solid) → ∃ k, Below (· ∈ children) child k ∧ k.Solid) →
            ∃ node ∈ out, node.Solid := by
        intro child g hchild hg hsame hbelow
        rcases exists_image_of_normalize h hchild with ⟨node, hnode, himage, below, hmem, hnormal⟩
        refine ⟨node, hnode, hg.of_children ?_ fun hk => ?_⟩
        · exact Label.needsChildren_of_sameSelection
            (Label.sameSelection_trans himage (Label.sameSelection_symm hsame))
        · rcases hbelow hk with ⟨k, hk, hkSolid⟩
          exact ih hnormal ⟨k, (hmem k).2 hk, hkSolid⟩
      rcases hsolid with ⟨child, hchild, hsolid⟩
      by_cases htaken : ∃ g ∈ child.children, g.Solid ∧ child.label.isSubtype = true ∧
          Takes (· ∈ children) g
      · rcases htaken with ⟨g, hg, hgSolid, his, field, hfield, haccepts⟩
        refine himage hfield hgSolid (Label.sameSelection_symm haccepts.2) ?_
        rintro ⟨k, hk, hkSolid⟩
        exact ⟨k, .folded hchild his hg haccepts hk, hkSolid⟩
      · refine himage hchild hsolid (Label.sameSelection_refl _) ?_
        rintro ⟨k, hk, hkSolid⟩
        refine ⟨k, .child hchild (Label.mergesWith_refl _) hk fun his htakes => ?_, hkSolid⟩
        exact htaken ⟨k, hk, hkSolid, his, htakes⟩

/-- A node that selects the same as another one, with the normal form of all that is below that. -/
theorem Solid.normalized {a b : Selection} (h : a.Solid)
    (hsame : b.label.sameSelection a.label = true) (hbelow : a.children ⊆ below)
    (hnormal : normalize limit levels below = .ok b.children) : b.Solid := by
  refine h.of_children (Label.needsChildren_of_sameSelection hsame) ?_
  rintro ⟨k, hk, hkSolid⟩
  exact exists_solid_of_normalize hnormal ⟨k, hbelow hk, hkSolid⟩

/-- What is kept below the image of a node is kept. -/
theorem kept_of_below (h : normalize limit (levels + 1) children = .ok out)
    (hchild : child ∈ children) (hinto : start.Into admits child.label next) (himage : image ∈ out)
    (hsame : image.label.sameSelection child.label = true)
    (hbelow : ∀ g ∈ below, Below (· ∈ children) child g) (hfield : node.label.isField = true)
    (hkept : Kept (StandsAnyhow next below) (Stands admits [] next image.children) place node) :
    Kept (StandsAnyhow start children) (Stands admits [] start out) place node := by
  rcases hkept with ⟨outer, found, hfound, hstandsFor, hfolds⟩
  refine ⟨outer, found, .deeper himage (hinto.of_sameSelection hsame) hfound, hstandsFor, ?_⟩
  refine foldsTo_imp hfolds (fun place node hs _ => ⟨node, ?_, rfl⟩) (Label.sameSelection_refl _)
    (Label.isSpread_of_isField hfield)
  exact stands_of_below h hchild (hinto.imp fun _ _ _ => trivial) hbelow hs

/-- Normal form keeps every field of a tree where it stands, or folds it out to where a field of
the tree stands that selects the same. -/
theorem kept_of_normalize (h : normalize limit levels children = .ok out)
    (hs : Stands admits [] start children place node) (hfield : node.label.isField = true) :
    Kept (StandsAnyhow start children) (Stands admits [] start out) place node := by
  induction levels generalizing start children out with
  | zero => cases h
  | succ levels ih =>
      -- What stands below a node goes below its image.
      have hlift : ∀ {child : Selection} {next : Place} {near : List Selection},
          child ∈ children → start.Into admits child.label next →
          (∀ g ∈ near, Below (· ∈ children) child g) → Stands admits [] next near place node →
            Kept (StandsAnyhow start children) (Stands admits [] start out) place node := by
        intro child next near hchild hinto hnear hs
        rcases exists_image_of_normalize h hchild with ⟨image, himage, hsame, below, hmem, hnormal⟩
        exact kept_of_below h hchild hinto himage hsame (fun g => (hmem g).1) hfield
          (ih hnormal (hs.mono fun g hg => (hmem g).2 (hnear g hg)))
      cases hs with
      | here hnode =>
          rcases exists_image_of_normalize h hnode with ⟨found, hfound, hsame, below, hmem, hnormal⟩
          refine ⟨place, found, .here hfound, ⟨hsame, fun hsolid => ?_⟩, .refl⟩
          refine hsolid.normalized hsame (fun g hg => (hmem g).2 ?_) hnormal
          refine .child hnode (Label.mergesWith_refl _) hg fun his => ?_
          rw [Label.isField_of_isSubtype his] at hfield
          cases hfield
      | @deeper _ mid _ _ first _ hfirst hinto hs =>
          rcases hs.exists_mem with ⟨g, hg, hsg⟩
          by_cases htaken : first.label.isSubtype = true ∧ Takes (· ∈ children) g
          · rcases htaken with ⟨his, field, hfieldMem, haccepts⟩
            have hsame := haccepts.2
            cases hsg with
            | here hnode =>
                -- The field itself is folded out.
                rcases List.mem_singleton.1 hnode with rfl
                rcases exists_image_of_normalize h hfieldMem with
                  ⟨found, hfound, himage, below, hmem, hnormal⟩
                have hfoundSame := Label.sameSelection_trans himage hsame
                refine ⟨start, found, .here hfound, ⟨hfoundSame, fun hsolid => ?_⟩, ?_⟩
                · exact hsolid.normalized hfoundSame
                    (fun k hk => (hmem k).2 (.folded hfirst his hg haccepts hk)) hnormal
                · exact .single ⟨⟨first, .here hfirst, his, hinto.imp fun _ _ _ => trivial⟩,
                    field, .here hfieldMem, hsame⟩
            | deeper hnode hnext hbelow =>
                -- What is below the field goes with it, and stands where it stood.
                rcases List.mem_singleton.1 hnode with rfl
                have hgField := (Label.isField_of_mergesWith
                  (Label.sameSelection_iff.1 hsame).1).symm.trans haccepts.1
                exact hlift hfieldMem
                  ((hinto.of_subtype his hnext hgField).of_sameSelection hsame)
                  (fun k hk => .folded hfirst his hg haccepts hk) hbelow
            | spread _ _ hfragment _ _ => cases hfragment
          · refine hlift hfirst hinto (fun k hk => ?_) hsg
            rcases List.mem_singleton.1 hk with rfl
            exact .child hfirst (Label.mergesWith_refl _) hg fun his htakes =>
              htaken ⟨his, htakes⟩
      | spread _ _ hfragment _ _ => cases hfragment

end Selection

end GraphQuery
