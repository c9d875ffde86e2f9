import GraphQuery.Proofs.Selection.Typing

/-!
# Selection.Paths — what selections ask of a response

A response is an object whose fields hold objects, and so on down to leaves. A selection asks for
some of its paths, which depend on the types of the objects on the way.

- `Step` : a field of an object of the response
- `Selection.Selects` : the paths that nodes ask for, with spreads read as their fragments
- `Selection.selects_iff` : they are those that single nodes ask for
- `Selection.Selects.replace`, `Selection.Selects.withChildren` : a node that asks for the paths of
  another one
- `Selection.Refines`, `Selection.Selects.refine` : fragments that ask for the paths of others
- `Selection.selects_of_covers` : what covers a node asks for its paths
-/

set_option autoImplicit false

namespace GraphQuery

/-- A field of an object of a response: the type of the object, the name of the field and the
identity of the source of its arguments. -/
structure Step where
  type : TypeRef
  field : String
  source : Option Nat
  deriving DecidableEq, Repr

namespace Label

/-- Whether the node is the field of a step. -/
def Reads (label : Label) (step : Step) : Prop :=
  label.isField = true ∧ label.name = step.field ∧
    label.source?.map ArgumentSource.identity = step.source

/-- Whether the node only restricts the types that its children are selected for. -/
def narrows : Label → Bool
  | .subtype _ | .fragment _ _ => true
  | _ => false

variable {a b : Label}

theorem reads_of_sameSelection {step : Step} (h : b.sameSelection a = true) (ha : a.Reads step) :
    b.Reads step := by
  rcases sameSelection_iff.1 h with ⟨hm, -, hs⟩
  refine ⟨(isField_of_mergesWith hm).trans ha.1, Eq.trans ?_ ha.2.1,
    (sameSource_iff.1 hs).trans ha.2.2⟩
  have hfield := ha.1
  cases a <;> cases b <;> simp_all [mergesWith, isField, name]

theorem narrows_of_sameSelection (h : b.sameSelection a = true) (ha : a.narrows = true) :
    b.narrows = true := by
  have hm := (sameSelection_iff.1 h).1
  cases a <;> cases b <;> simp_all [mergesWith, narrows]

theorem isTypename_of_narrows (h : a.narrows = true) : a.isTypename = false := by
  cases a <;> first | rfl | cases h

/-- Nodes that spread one fragment of one type are equal. -/
theorem eq_spread_of_sameSelection {name : String} {type : GraphType}
    (h : b.sameSelection (.spread name type) = true) : b = .spread name type := by
  have hm : b.mergesWith (.spread name type) = true := (sameSelection_iff.1 h).1
  have htype : b.type = type := type_eq_of_sameSelection h (isTypename_of_mergesWith hm)
  cases b <;> simp_all [mergesWith, Label.type]

end Label

namespace Selection

variable {s : Schema} {fragments more : List FragmentDefinition} {nodes out : List Selection}
  {path : List Step}

/-- The paths of a response that nodes ask for. A path ends in a field without a selection of its
own. Below a composite field it goes on for the types that the field can have, and what stands
under a subtype or in a fragment is asked for where the object is of a type it can have. -/
inductive Selects (s : Schema) (fragments : List FragmentDefinition) :
    List Selection → List Step → Prop where
  | leaf {nodes : List Selection} {node : Selection} {step : Step} :
      node ∈ nodes → node.label.Reads step → node.label.opens = false →
      Selects s fragments nodes [step]
  | deeper {nodes : List Selection} {node : Selection} {step next : Step} {rest : List Step} :
      node ∈ nodes → node.label.Reads step → node.label.opens = true →
      s.Admits node.label.type.typeRef next.type →
      Selects s fragments node.children (next :: rest) →
      Selects s fragments nodes (step :: next :: rest)
  | within {nodes : List Selection} {node : Selection} {step : Step} {rest : List Step} :
      node ∈ nodes → node.label.narrows = true → s.Admits node.label.type.typeRef step.type →
      Selects s fragments node.children (step :: rest) →
      Selects s fragments nodes (step :: rest)
  | spread {nodes : List Selection} {node : Selection} {definition : FragmentDefinition}
      {step : Step} {rest : List Step} :
      node ∈ nodes → node.label = .spread definition.name definition.type →
      definition ∈ fragments → s.Admits definition.type.typeRef step.type →
      Selects s fragments definition.children (step :: rest) →
      Selects s fragments nodes (step :: rest)

/-- How a single node asks for a path. -/
inductive Asks (s : Schema) (fragments : List FragmentDefinition) (node : Selection) :
    List Step → Prop where
  | leaf {step : Step} :
      node.label.Reads step → node.label.opens = false → Asks s fragments node [step]
  | deeper {step next : Step} {rest : List Step} :
      node.label.Reads step → node.label.opens = true →
      s.Admits node.label.type.typeRef next.type →
      Selects s fragments node.children (next :: rest) →
      Asks s fragments node (step :: next :: rest)
  | within {step : Step} {rest : List Step} :
      node.label.narrows = true → s.Admits node.label.type.typeRef step.type →
      Selects s fragments node.children (step :: rest) → Asks s fragments node (step :: rest)
  | spread {definition : FragmentDefinition} {step : Step} {rest : List Step} :
      node.label = .spread definition.name definition.type → definition ∈ fragments →
      s.Admits definition.type.typeRef step.type →
      Selects s fragments definition.children (step :: rest) →
      Asks s fragments node (step :: rest)

/-- Every path is asked for by one of the nodes alone. -/
theorem selects_iff :
    Selects s fragments nodes path ↔ ∃ node ∈ nodes, Asks s fragments node path := by
  constructor
  · intro h
    cases h with
    | leaf hnode hreads hleaf => exact ⟨_, hnode, .leaf hreads hleaf⟩
    | deeper hnode hreads hopens hadmits hbelow =>
        exact ⟨_, hnode, .deeper hreads hopens hadmits hbelow⟩
    | within hnode hnarrows hadmits hbelow =>
        exact ⟨_, hnode, .within hnarrows hadmits hbelow⟩
    | spread hnode hlabel hdefinition hadmits hbelow =>
        exact ⟨_, hnode, .spread hlabel hdefinition hadmits hbelow⟩
  · rintro ⟨node, hnode, h⟩
    cases h with
    | leaf hreads hleaf => exact .leaf hnode hreads hleaf
    | deeper hreads hopens hadmits hbelow => exact .deeper hnode hreads hopens hadmits hbelow
    | within hnarrows hadmits hbelow => exact .within hnode hnarrows hadmits hbelow
    | spread hlabel hdefinition hadmits hbelow =>
        exact .spread hnode hlabel hdefinition hadmits hbelow

theorem selects_singleton_iff {node : Selection} :
    Selects s fragments [node] path ↔ Asks s fragments node path := by
  simp [selects_iff]

theorem Selects.mono (h : Selects s fragments nodes path) (hsub : nodes ⊆ out) :
    Selects s fragments out path := by
  rcases selects_iff.1 h with ⟨node, hnode, hasks⟩
  exact selects_iff.2 ⟨node, hsub hnode, hasks⟩

theorem Selects.exists_mem (h : Selects s fragments nodes path) :
    ∃ node ∈ nodes, Selects s fragments [node] path := by
  rcases selects_iff.1 h with ⟨node, hnode, hasks⟩
  exact ⟨node, hnode, selects_singleton_iff.2 hasks⟩

theorem Selects.of_mem {node : Selection} (h : Selects s fragments [node] path)
    (hnode : node ∈ nodes) : Selects s fragments nodes path :=
  selects_iff.2 ⟨node, hnode, selects_singleton_iff.1 h⟩

theorem Selects.asks {node : Selection} (h : Selects s fragments [node] path) :
    Asks s fragments node path :=
  selects_singleton_iff.1 h

theorem not_selects_nil : ¬ Selects s fragments [] path := by
  intro h
  rcases h.exists_mem with ⟨node, hnode, -⟩
  cases hnode

/-- A node asks for the paths of another one that selects the same when its children ask for those
of the other's children, where the objects are of a type that the node can have. -/
theorem Selects.replace {a b : Selection} (hsame : b.label.sameSelection a.label = true)
    (hbelow : ∀ step rest, s.Admits a.label.type.typeRef step.type →
      Selects s fragments a.children (step :: rest) →
        Selects s fragments b.children (step :: rest))
    (h : Selects s fragments [a] path) : Selects s fragments [b] path := by
  have hopens : b.label.opens = a.label.opens := Label.opens_eq_of_sameSelection hsame
  have hmem : b ∈ [b] := List.mem_singleton.2 rfl
  -- Each rule looks at the label, which selects the same, and at paths through the children.
  cases h.asks with
  | leaf hreads hleaf =>
      have hreadsB : b.label.Reads _ := Label.reads_of_sameSelection hsame hreads
      exact .leaf hmem hreadsB (hopens.trans hleaf)
  | deeper hreads hopensA hadmits hpath =>
      have hreadsB : b.label.Reads _ := Label.reads_of_sameSelection hsame hreads
      have htype : b.label.type = a.label.type := Label.type_eq_of_opens hsame hopensA
      refine .deeper hmem hreadsB (hopens.trans hopensA) ?_ (hbelow _ _ hadmits hpath)
      rw [htype]
      exact hadmits
  | within hnarrows hadmits hpath =>
      have hnarrowsB : b.label.narrows = true := Label.narrows_of_sameSelection hsame hnarrows
      have htype : b.label.type = a.label.type :=
        Label.type_eq_of_sameSelection hsame (Label.isTypename_of_narrows hnarrowsB)
      refine .within hmem hnarrowsB ?_ (hbelow _ _ hadmits hpath)
      rw [htype]
      exact hadmits
  | spread hlabel hdefinition hadmits hpath =>
      rw [hlabel] at hsame
      exact .spread hmem (Label.eq_spread_of_sameSelection hsame) hdefinition hadmits hpath

theorem Selects.withChildren {label : Label} {children : List Selection}
    (hbelow : ∀ step rest, s.Admits label.type.typeRef step.type →
      Selects s fragments children (step :: rest) → Selects s fragments out (step :: rest))
    (h : Selects s fragments [.node label children] path) :
    Selects s fragments [.node label out] path := by
  have hsame : (node label out).label.sameSelection (node label children).label = true :=
    Label.sameSelection_refl label
  exact h.replace hsame hbelow

/-! ## Fragments that stand in for others -/

/-- Every fragment has one of its name and type among `more` that asks for all of its paths. -/
def Refines (s : Schema) (fragments more : List FragmentDefinition) : Prop :=
  ∀ f ∈ fragments, ∃ g ∈ more, g.name = f.name ∧ g.type = f.type ∧
    ∀ path, Selects s more f.children path → Selects s more g.children path

theorem Selects.refine (h : Selects s fragments nodes path) (hr : Refines s fragments more) :
    Selects s more nodes path := by
  induction h with
  | leaf hnode hreads hleaf => exact .leaf hnode hreads hleaf
  | deeper hnode hreads hopens hadmits _ ih => exact .deeper hnode hreads hopens hadmits ih
  | within hnode hnarrows hadmits _ ih => exact .within hnode hnarrows hadmits ih
  | spread hnode hlabel hdefinition hadmits _ ih =>
      -- The spread is read as the fragment of its name that stands in for its own.
      rcases hr _ hdefinition with ⟨g, hg, hname, htype, hpaths⟩
      rw [← hname, ← htype] at hlabel
      rw [← htype] at hadmits
      exact .spread hnode hlabel hg hadmits (hpaths _ ih)

/-! ## Covering -/

/-- What covers a node asks for all of its paths. -/
theorem selects_of_covers {candidates : List Selection} {node : Selection}
    (hcovers : covers candidates node = true) (h : Selects s fragments [node] path) :
    Selects s fragments candidates path := by
  induction node generalizing candidates path with
  | node label children ih =>
      rcases covers_iff.1 hcovers with ⟨candidate, hcandidate, hsame, hall⟩
      -- Below the candidate, each child of the node is covered again.
      refine (h.replace hsame ?_).of_mem hcandidate
      intro step rest _ hbelow
      rcases hbelow.exists_mem with ⟨child, hchild, hpath⟩
      exact ih child hchild (hall child hchild) hpath

end Selection

end GraphQuery
