import GraphQuery.Proofs.Schema.Consistency

/-!
# Schema.References — where the references of a built schema lead

A schema is built in two passes: names are resolved to the places of their declarations, and then
interfaces and objects learn who implements or lists them. Whatever asks a schema goes by these
places, and does not look at names again.

- `Schema.references` : every type that a schema mentions
- `Schema.PointsAt` : a type whose reference leads to a definition of its name and kind
- `Declarations.Links` : the laws of the references and of the lists that are tied back
- `Declarations.links_of_build` : every built schema obeys them
- `Declarations.Links.mem_interfaces` : an interface that lists an object is one that it declares
-/

set_option autoImplicit false

namespace GraphQuery

/-! ## References -/

def Field.references (field : Field) : List GraphType :=
  field.type :: field.arguments.map Argument.type

/-- The types that a definition mentions. Those without wrappers have the kind that is asked for at
their place. -/
def TypeDefinition.references : TypeDefinition → List GraphType
  | .scalar _ => []
  | .object type =>
      type.fields.flatMap Field.references ++ type.interfaces.map (.named .interface) ++
        type.unions.map (.named .union)
  | .interface type =>
      type.fields.flatMap Field.references ++ type.interfaces.map (.named .interface) ++
        type.possibleTypes.map (.named .object)
  | .union type => type.members.map (.named .object)
  | .enum _ => []
  | .inputObject type => type.fields.map Argument.type

namespace Schema

variable {s : Schema}

/-- The query root, and the types that definitions mention. -/
def references (s : Schema) : List GraphType :=
  .named .object s.queryType :: s.types.flatMap TypeDefinition.references

/-- The definition at the place of the reference has the name of the reference and the kind of the
type. -/
def PointsAt (s : Schema) (type : GraphType) : Prop :=
  ∃ definition, s.definition? type.typeRef = some definition ∧
    definition.name = type.name ∧ definition.kind = type.kind

/-- Where names are distinct, a name stands for the one place of its definition. -/
theorem typeRef?_eq_some_iff (hs : (s.types.map TypeDefinition.name).Nodup) {name : String}
    {ref : TypeRef} :
    s.typeRef? name = some ref ↔
      ref.name = name ∧ ∃ definition, s.definition? ref = some definition ∧
        definition.name = name := by
  constructor
  · intro h
    rcases Option.map_eq_some_iff.1 h with ⟨index, hindex, rfl⟩
    exact ⟨rfl, (Keyed.findIdx?_eq_some_iff hs).1 hindex⟩
  · rintro ⟨rfl, hdefinition⟩
    have hindex : s.types.findIdx? (fun type => type.name == ref.name) = some ref.index :=
      (Keyed.findIdx?_eq_some_iff hs).2 hdefinition
    exact Option.map_eq_some_iff.2 ⟨ref.index, hindex, rfl⟩

theorem pointsAt_of_declares (hs : (s.types.map TypeDefinition.name).Nodup) {type : GraphType}
    (h : s.Declares type) : s.PointsAt type := by
  have hterminal : s.Declares (.named type.kind type.typeRef) := by
    rw [← terminal_eq]
    exact declares_terminal.2 h
  rcases declares_named_iff.1 hterminal with ⟨href, definition, hdefinition, hkind⟩
  rcases (typeRef?_eq_some_iff hs).1 href with ⟨-, named, hnamed, hname⟩
  obtain rfl : definition = named := Option.some.inj (hdefinition.symm.trans hnamed)
  exact ⟨definition, hdefinition, hname, hkind⟩

end Schema

namespace Declarations

variable {d : Declarations} {s : Schema}

/-! ## Resolved references -/

/-- The type names a declaration of its kind, at the place of its reference. -/
def Finds (d : Declarations) (type : GraphType) : Prop :=
  d.find? type.name = some (type.kind, type.typeRef)

theorem finds_of_resolveArguments {owner : String} {declared : List ArgumentDeclaration}
    {arguments : List Argument} (h : d.resolveArguments owner declared = .ok arguments) :
    ∀ argument ∈ arguments, d.Finds argument.type := by
  rcases Outcome.bind_eq_ok_iff.1 h with ⟨found, hfound, h⟩
  cases h
  intro argument hargument
  obtain ⟨declaration, -, hresolve⟩ :=
    Outcome.mem_right (Outcome.mapM_eq_ok_iff.1 hfound) (Keyed.mem_ofList hargument)
  rcases Outcome.bind_eq_ok_iff.1 hresolve with ⟨type, htype, hresolve⟩
  cases hresolve
  exact resolve_eq_ok htype

theorem finds_of_resolveFields {owner : String} {declared : List FieldDeclaration}
    {fields : List Field} (h : d.resolveFields owner declared = .ok fields) :
    ∀ type ∈ fields.flatMap Field.references, d.Finds type := by
  rcases Outcome.bind_eq_ok_iff.1 h with ⟨found, hfound, h⟩
  cases h
  intro type htype
  rcases List.mem_flatMap.1 htype with ⟨field, hfield, htype⟩
  obtain ⟨declaration, -, hresolve⟩ :=
    Outcome.mem_right (Outcome.mapM_eq_ok_iff.1 hfound) (Keyed.mem_ofList hfield)
  rcases Outcome.bind_eq_ok_iff.1 hresolve with ⟨arguments, harguments, hresolve⟩
  rcases Outcome.bind_eq_ok_iff.1 hresolve with ⟨own, hown, hresolve⟩
  cases hresolve
  -- Either the type of the field itself, or that of one of its arguments.
  rcases List.mem_cons.1 htype with rfl | htype
  · exact resolve_eq_ok hown
  · rcases List.mem_map.1 htype with ⟨argument, hargument, rfl⟩
    exact finds_of_resolveArguments harguments argument hargument

theorem finds_of_resolveKinds {owner : String} {kind : TypeKind} {names : List String}
    {refs : List TypeRef} (h : d.resolveKinds owner kind names = .ok refs) :
    ∀ type ∈ refs.map (GraphType.named kind), d.Finds type := by
  intro type htype
  rcases List.mem_map.1 htype with ⟨ref, href, rfl⟩
  exact (resolveKinds_eq_ok h).2 ref href

/-- Whatever a definition mentions before it is tied back was found among the declarations. -/
theorem finds_of_define {declaration : TypeDeclaration} {definition : TypeDefinition}
    (h : d.define declaration = .ok definition) :
    ∀ type ∈ definition.references, d.Finds type := by
  cases declaration with
  | scalar name =>
      cases h
      nofun
  | object name fields interfaces | interface name fields interfaces =>
      rcases Outcome.bind_eq_ok_iff.1 h with ⟨resolved, hfields, h⟩
      rcases Outcome.bind_eq_ok_iff.1 h with ⟨refs, hrefs, h⟩
      cases h
      -- What is tied back is not listed yet.
      refine List.forall_mem_append.2 ⟨List.forall_mem_append.2 ⟨?_, ?_⟩, nofun⟩
      · exact finds_of_resolveFields hfields
      · exact finds_of_resolveKinds hrefs
  | union name members =>
      rcases Outcome.bind_eq_ok_iff.1 h with ⟨refs, hrefs, h⟩
      cases h
      exact finds_of_resolveKinds hrefs
  | enum name values =>
      cases h
      nofun
  | inputObject name fields =>
      rcases Outcome.bind_eq_ok_iff.1 h with ⟨resolved, hresolved, h⟩
      cases h
      intro type htype
      rcases List.mem_map.1 htype with ⟨argument, hargument, rfl⟩
      exact finds_of_resolveArguments hresolved argument hargument

/-- What is resolved keeps the order of the names, and each name counts once. -/
theorem names_of_resolveKinds {owner : String} {kind : TypeKind} {names : List String}
    {refs : List TypeRef} (h : d.resolveKinds owner kind names = .ok refs) :
    refs.map TypeRef.name = Keyed.distinct names := by
  have hfind := (resolveKinds_eq_ok h).2
  rcases Outcome.bind_eq_ok_iff.1 h with ⟨found, hfound, h⟩
  cases h
  have hresolved := Outcome.mapM_eq_ok_iff.1 hfound
  have hnames : found.map TypeRef.name = names := by
    refine List.forall₂_eq_eq_eq ▸ List.forall₂_map_left_iff.2 (hresolved.imp ?_).flip
    intro name ref href
    exact (find?_eq_some_iff.1 (resolveKind_eq_ok href)).1
  rw [Keyed.map_distinct, hnames]
  -- Two references of one name are what is found under it.
  intro a ha b hb hab
  have hfindA := hfind a (Keyed.mem_distinct.2 ha)
  have hfindB := hfind b (Keyed.mem_distinct.2 hb)
  have hsame := hfindA.symm.trans (hab ▸ hfindB)
  exact congrArg Prod.snd (Option.some.inj hsame)

/-! ## Lists that are tied back -/

theorem mem_memberships {types : List TypeDefinition} {index : Nat} {ref : TypeRef} :
    ref ∈ memberships types index ↔
      ∃ union, types[ref.index]? = some (.union union) ∧ ref.name = union.name ∧
        ∃ member ∈ union.members, member.index = index := by
  unfold memberships
  rw [List.mem_filterMap]
  constructor
  · rintro ⟨⟨type, i⟩, hmem, h⟩
    have htype := List.mem_zipIdx_iff_getElem?.1 hmem
    cases type with
    | union union =>
        simp only [Option.ite_none_right_eq_some, List.any_eq_true, beq_iff_eq,
          Option.some.injEq] at h
        rcases h with ⟨hmember, rfl⟩
        exact ⟨union, htype, rfl, hmember⟩
    | _ => cases h
  · rintro ⟨union, htype, hname, hmember⟩
    refine ⟨(.union union, ref.index), List.mem_zipIdx_iff_getElem?.2 htype, ?_⟩
    simp only [Option.ite_none_right_eq_some, List.any_eq_true, beq_iff_eq, Option.some.injEq]
    exact ⟨hmember, by rw [← hname]⟩

/-- References to later and later definitions, so none of them comes twice. -/
def Ascending (refs : List TypeRef) : Prop :=
  refs.Pairwise fun a b => a.index < b.index

/-- What is collected in one pass over the definitions is in their order. -/
theorem ascending_filterMap {types : List TypeDefinition}
    {f : TypeDefinition × Nat → Option TypeRef}
    (hf : ∀ type i ref, f (type, i) = some ref → ref.index = i) :
    Ascending (types.zipIdx.filterMap f) := by
  -- A reference has the place of the definition that it was collected from.
  have hplaces : types.zipIdx.Pairwise fun a b => a.2 < b.2 := by
    rw [← List.pairwise_map (f := Prod.snd) (R := (· < ·)), List.zipIdx_map_snd]
    exact List.pairwise_lt_range'
  refine hplaces.filterMap f ?_
  rintro ⟨type, i⟩ ⟨other, j⟩ hij a ha b hb
  rw [hf type i a ha, hf other j b hb]
  exact hij

theorem ascending_implementers (types : List TypeDefinition) (index : Nat) :
    Ascending (implementers types index) := by
  refine ascending_filterMap fun type i ref h => ?_
  cases type with
  | object object =>
      obtain ⟨-, rfl⟩ : _ ∧ (⟨i, object.name⟩ : TypeRef) = ref := by simpa using h
      rfl
  | _ => cases h

theorem ascending_memberships (types : List TypeDefinition) (index : Nat) :
    Ascending (memberships types index) := by
  refine ascending_filterMap fun type i ref h => ?_
  cases type with
  | union union =>
      obtain ⟨-, rfl⟩ : _ ∧ (⟨i, union.name⟩ : TypeRef) = ref := by simpa using h
      rfl
  | _ => cases h

/-- Tying back adds references to implementers and unions only. -/
theorem mem_references_tieBack {types : List TypeDefinition} {i : Nat}
    {definition : TypeDefinition} {type : GraphType}
    (h : type ∈ (tieBack types i definition).references) :
    type ∈ definition.references ∨
      (∃ ref ∈ implementers types i, type = .named .object ref) ∨
        ∃ ref ∈ memberships types i, type = .named .union ref := by
  cases definition with
  | object object =>
      rcases List.mem_append.1 h with h | h
      · exact .inl (List.mem_append_left _ h)
      · rcases List.mem_map.1 h with ⟨ref, href, rfl⟩
        exact .inr (.inr ⟨ref, href, rfl⟩)
  | interface interface =>
      rcases List.mem_append.1 h with h | h
      · exact .inl (List.mem_append_left _ h)
      · rcases List.mem_map.1 h with ⟨ref, href, rfl⟩
        exact .inr (.inl ⟨ref, href, rfl⟩)
  | _ => exact .inl h

namespace Builds

variable {types : List TypeDefinition}

/-- A definition before it is tied back is what its name is found to be. -/
theorem finds_place (b : d.Builds types s) {i : Nat} {definition : TypeDefinition}
    (h : types[i]? = some definition) :
    d.find? definition.name = some (definition.kind, ⟨i, definition.name⟩) := by
  rcases Outcome.getElem?_left b.defined h with ⟨declaration, hdeclaration, hdefines⟩
  exact find?_eq_some_iff.2
    ⟨rfl, declaration, hdeclaration, hdefines.name.symm, hdefines.kind.symm⟩

theorem finds_implementer (b : d.Builds types s) {i : Nat} {ref : TypeRef}
    (h : ref ∈ Declarations.implementers types i) : d.Finds (.named .object ref) := by
  rcases mem_implementers.1 h with ⟨object, hobject, hname, -⟩
  rcases ref with ⟨index, name⟩
  obtain rfl : name = object.name := hname
  exact b.finds_place hobject

theorem finds_membership (b : d.Builds types s) {i : Nat} {ref : TypeRef}
    (h : ref ∈ memberships types i) : d.Finds (.named .union ref) := by
  rcases mem_memberships.1 h with ⟨union, hunion, hname, -⟩
  rcases ref with ⟨index, name⟩
  obtain rfl : name = union.name := hname
  exact b.finds_place hunion

/-- What the schema mentions was found among the declarations, also what was tied back. -/
theorem finds (b : d.Builds types s) (htypes : d.types.mapM d.define = .ok types)
    {type : GraphType} (h : type ∈ s.references) : d.Finds type := by
  -- The query root is found by its name; all the rest is in a definition.
  rcases List.mem_cons.1 h with rfl | h
  · have hquery : s.queryType.name = d.queryType.getD "Query" := (find?_eq_some_iff.1 b.query).1
    have hfind : d.find? s.queryType.name = some (.object, s.queryType) := hquery ▸ b.query
    exact hfind
  · rcases List.mem_flatMap.1 h with ⟨found, hfound, h⟩
    rw [b.tied] at hfound
    rcases List.mem_map.1 hfound with ⟨⟨definition, i⟩, hplace, rfl⟩
    have hdefinition := List.mem_zipIdx_iff_getElem?.1 hplace
    rcases Outcome.getElem?_left (Outcome.mapM_eq_ok_iff.1 htypes) hdefinition with
      ⟨declaration, -, hdefine⟩
    rcases mem_references_tieBack h with h | ⟨ref, href, rfl⟩ | ⟨ref, href, rfl⟩
    · exact finds_of_define hdefine type h
    · exact b.finds_implementer href
    · exact b.finds_membership href

theorem pointsAt (b : d.Builds types s) (htypes : d.types.mapM d.define = .ok types)
    {type : GraphType} (h : type ∈ s.references) : s.PointsAt type :=
  Schema.pointsAt_of_declares b.distinct (b.declares_type (b.finds htypes h))

/-- A reference to a place whose definition is known has the name of the definition. -/
theorem name_of_reference (b : d.Builds types s) (htypes : d.types.mapM d.define = .ok types)
    {kind : TypeKind} {ref : TypeRef} {definition : TypeDefinition}
    (h : .named kind ref ∈ s.references) (hplace : s.types[ref.index]? = some definition) :
    ref.name = definition.name := by
  rcases b.pointsAt htypes h with ⟨found, hfound, hname, -⟩
  obtain rfl : found = definition := Option.some.inj (hfound.symm.trans hplace)
  exact hname.symm

/-! ## Definitions at their places -/

theorem place_eq (b : d.Builds types s) {i : Nat} {found : TypeDefinition}
    (h : s.types[i]? = some found) :
    ∃ definition, types[i]? = some definition ∧ tieBack types i definition = found := by
  rw [b.getElem?_eq] at h
  exact Option.map_eq_some_iff.1 h

theorem object_eq (b : d.Builds types s) {i : Nat} {object : ObjectType}
    (h : s.types[i]? = some (.object object)) :
    ∃ before, types[i]? = some (.object before) ∧
      object = { before with unions := memberships types i } := by
  rcases b.place_eq h with ⟨definition, hdefinition, htied⟩
  cases definition with
  | object before =>
      cases htied
      exact ⟨before, hdefinition, rfl⟩
  | _ => cases htied

theorem interface_eq (b : d.Builds types s) {i : Nat} {interface : InterfaceType}
    (h : s.types[i]? = some (.interface interface)) :
    ∃ before, types[i]? = some (.interface before) ∧
      interface = { before with possibleTypes := Declarations.implementers types i } := by
  rcases b.place_eq h with ⟨definition, hdefinition, htied⟩
  cases definition with
  | interface before =>
      cases htied
      exact ⟨before, hdefinition, rfl⟩
  | _ => cases htied

theorem union_eq (b : d.Builds types s) {i : Nat} {union : UnionType}
    (h : s.types[i]? = some (.union union)) : types[i]? = some (.union union) := by
  rcases b.place_eq h with ⟨definition, hdefinition, htied⟩
  cases definition with
  | union before =>
      cases htied
      exact hdefinition
  | _ => cases htied

theorem mem_references {i : Nat} {definition : TypeDefinition} {type : GraphType}
    (hplace : s.types[i]? = some definition) (h : type ∈ definition.references) :
    type ∈ s.references :=
  List.mem_cons_of_mem _ (List.mem_flatMap.2 ⟨definition, List.mem_of_getElem? hplace, h⟩)

section Lists

variable (b : d.Builds types s) (htypes : d.types.mapM d.define = .ok types) {i j : Nat}
  {object : ObjectType}
include b htypes

/-- The interface lists the places of the objects that refer to its own place, and a reference to
that place has the name of the interface. -/
theorem implementers_iff {interface : InterfaceType} (ho : s.types[i]? = some (.object object))
    (hi : s.types[j]? = some (.interface interface)) :
    ⟨i, object.name⟩ ∈ interface.possibleTypes ↔ ⟨j, interface.name⟩ ∈ object.interfaces := by
  rcases b.object_eq ho with ⟨before, hbefore, rfl⟩
  rcases b.interface_eq hi with ⟨listed, -, rfl⟩
  refine mem_implementers.trans ⟨?_, fun h => ⟨before, hbefore, rfl, _, h, rfl⟩⟩
  -- The object was listed for a reference to this place, whatever the name in it.
  rintro ⟨found, hfound, -, ref, href, rfl⟩
  obtain rfl : before = found := by simpa [hbefore] using hfound
  have hmem : GraphType.named .interface ref ∈ s.references :=
    mem_references ho (List.mem_append_left _ (List.mem_append_right _ (List.mem_map_of_mem href)))
  have hname : ref.name = listed.name := b.name_of_reference htypes hmem hi
  rw [← hname]
  exact href

theorem memberships_iff {union : UnionType} (ho : s.types[i]? = some (.object object))
    (hu : s.types[j]? = some (.union union)) :
    ⟨j, union.name⟩ ∈ object.unions ↔ ⟨i, object.name⟩ ∈ union.members := by
  rcases b.object_eq ho with ⟨before, -, rfl⟩
  have hunion := b.union_eq hu
  refine mem_memberships.trans ⟨?_, fun h => ⟨union, hunion, rfl, _, h, rfl⟩⟩
  rintro ⟨found, hfound, -, ref, href, rfl⟩
  obtain rfl : union = found := by simpa [hunion] using hfound
  have hmem : GraphType.named .object ref ∈ s.references :=
    mem_references hu (List.mem_map_of_mem href)
  have hname : ref.name = before.name := b.name_of_reference htypes hmem ho
  rw [← hname]
  exact href

theorem members_eq {name : String} {names : List String} {union : UnionType}
    (hd : d.types[i]? = some (.union name names)) (hu : s.types[i]? = some (.union union)) :
    union.members.map TypeRef.name = Keyed.distinct names := by
  obtain ⟨definition, hdefinition, hdefine⟩ :=
    Outcome.getElem?_right (Outcome.mapM_eq_ok_iff.1 htypes) hd
  rcases Outcome.bind_eq_ok_iff.1 hdefine with ⟨refs, hrefs, hdefine⟩
  cases hdefine
  have hsame : TypeDefinition.union ⟨name, refs⟩ = .union union :=
    Option.some.inj (hdefinition.symm.trans (b.union_eq hu))
  cases hsame
  exact names_of_resolveKinds hrefs

end Lists

end Builds

/-! ## Built schemas -/

/-- The laws of the references of a schema that is built from declarations. Places are numbered in
the order of the declarations. -/
structure Links (d : Declarations) (s : Schema) : Prop where
  /-- At every place is the definition of the name and kind that are declared there. -/
  declared : s.types.map (fun type => (type.name, type.kind)) =
    d.types.map fun type => (type.name, type.kind)
  /-- No two places have one name. -/
  distinct : (s.types.map TypeDefinition.name).Nodup
  /-- A name stands for the place of its definition, and for nothing else. -/
  place : ∀ {name ref}, s.typeRef? name = some ref ↔ ref.name = name ∧
    ∃ definition, s.definition? ref = some definition ∧ definition.name = name
  /-- Whatever the schema mentions leads to the definition of that name and kind. -/
  references : ∀ type ∈ s.references, s.PointsAt type
  query : ∃ object, s.definition? s.queryType = some (.object object) ∧
    object.name = s.queryType.name
  /-- An interface lists an object just when the object implements it. -/
  implementers : ∀ {i j : Nat} {object : ObjectType} {interface : InterfaceType},
    s.types[i]? = some (.object object) →
    s.types[j]? = some (.interface interface) →
      (⟨i, object.name⟩ ∈ interface.possibleTypes ↔ ⟨j, interface.name⟩ ∈ object.interfaces)
  /-- An object lists a union just when the union has it as a member. -/
  memberships : ∀ {i j : Nat} {object : ObjectType} {union : UnionType},
    s.types[i]? = some (.object object) →
    s.types[j]? = some (.union union) →
      (⟨j, union.name⟩ ∈ object.unions ↔ ⟨i, object.name⟩ ∈ union.members)
  /-- Implementers are listed in the order of their declaration, each once. -/
  implementersAscending : ∀ {i : Nat} {interface : InterfaceType},
    s.types[i]? = some (.interface interface) → Ascending interface.possibleTypes
  /-- So are the unions of an object. -/
  membershipsAscending : ∀ {i : Nat} {object : ObjectType},
    s.types[i]? = some (.object object) → Ascending object.unions
  /-- The members of a union are listed in the order in which the union declares them, each
  once. -/
  members : ∀ {i : Nat} {name : String} {names : List String} {union : UnionType},
    d.types[i]? = some (.union name names) → s.types[i]? = some (.union union) →
      union.members.map TypeRef.name = Keyed.distinct names

/-- Whatever is declared, the references of a schema that is built lead to what they name, and its
lists of implementers and unions say the same as the definitions that they are collected from. -/
theorem links_of_build (h : d.build = .ok s) : d.Links s := by
  rcases builds_of_build h with ⟨types, htypes, b⟩
  exact {
    declared := b.signatures_eq
    distinct := b.distinct
    place := Schema.typeRef?_eq_some_iff b.distinct
    references := fun _ => b.pointsAt htypes
    query := by
      rcases b.pointsAt htypes List.mem_cons_self with ⟨definition, hdefinition, hname, hkind⟩
      cases definition with
      | object object => exact ⟨object, hdefinition, hname⟩
      | _ => cases hkind
    implementers := b.implementers_iff htypes
    memberships := b.memberships_iff htypes
    implementersAscending := by
      intro i interface hi
      rcases b.interface_eq hi with ⟨before, -, rfl⟩
      exact ascending_implementers types i
    membershipsAscending := by
      intro i object ho
      rcases b.object_eq ho with ⟨before, -, rfl⟩
      exact ascending_memberships types i
    members := b.members_eq htypes }

namespace Links

variable {object interface : TypeRef}

/-- What a name stands for has the name of its definition. -/
theorem name_eq (l : d.Links s) {type : TypeRef} {definition : TypeDefinition}
    (hname : s.typeRef? type.name = some type) (h : s.definition? type = some definition) :
    definition.name = type.name := by
  rcases l.place.1 hname with ⟨-, found, hfound, hsame⟩
  cases h.symm.trans hfound
  exact hsame

/-- An interface that lists an object is one that the object declares. -/
theorem mem_interfaces (l : d.Links s) (hobject : s.IsObject object)
    (hinterface : s.Declares (.named .interface interface))
    (h : object ∈ s.possibleTypes interface) : interface ∈ s.interfaces object := by
  rcases hobject.definition with ⟨o, ho⟩
  rcases Schema.declares_named_iff.1 hinterface with ⟨hname, definition, hi, hkind⟩
  have hobjectName := l.name_eq (Schema.declares_named_iff.1 hobject).1 ho
  have hinterfaceName := l.name_eq hname hi
  cases definition with
  | interface i =>
      rcases object with ⟨place, name⟩
      rcases interface with ⟨other, otherName⟩
      cases hobjectName
      cases hinterfaceName
      have hlisted : ⟨place, o.name⟩ ∈ i.possibleTypes := by
        simpa [Schema.possibleTypes, hi, TypeDefinition.possibleTypes?] using h
      have hdeclared : ⟨other, i.name⟩ ∈ o.interfaces := (l.implementers ho hi).1 hlisted
      simpa [Schema.interfaces, ho, TypeDefinition.interfaces] using hdeclared
  | _ => cases hkind

end Links

end Declarations

/-! ## A catalog -/

/-- Everything is mentioned before it is declared, and the union names one of its members twice. -/
def catalogDeclarations : Declarations where
  types := [
    .union "Entry" ["Film", "Book", "Film"],
    .object "Film" [⟨"sequels", .nonNull (.list (.named "Media")), [⟨"by", .named "Order"⟩]⟩]
      ["Media"],
    .object "Query" [⟨"entries", .list (.named "Entry"), []⟩] [],
    .object "Book" [⟨"id", .nonNull (.named "ID"), []⟩] ["Media", "Media"],
    .interface "Media" [] [],
    .inputObject "Order" [⟨"first", .list (.named "ID")⟩],
    .scalar "ID"]
  queryType := none
  distinct := by decide

def catalogSchema : Schema :=
  (catalogDeclarations.build.toOption).getD ⟨[], ⟨0, "Query"⟩⟩

theorem links_catalog :
    catalogDeclarations.build = .ok catalogSchema ∧ catalogDeclarations.Links catalogSchema ∧
      catalogSchema.possibleTypes ⟨4, "Media"⟩ = [⟨1, "Film"⟩, ⟨3, "Book"⟩] ∧
      catalogSchema.possibleTypes ⟨0, "Entry"⟩ = [⟨1, "Film"⟩, ⟨3, "Book"⟩] ∧
      catalogSchema.unions ⟨3, "Book"⟩ = [⟨0, "Entry"⟩] ∧
      catalogSchema.PointsAt (.list (.named .scalar ⟨6, "ID"⟩)) := by
  have hbuild : catalogDeclarations.build = .ok catalogSchema := rfl
  have hlinks := Declarations.links_of_build hbuild
  refine ⟨hbuild, hlinks, rfl, rfl, rfl, hlinks.references _ ?_⟩
  decide

end GraphQuery
