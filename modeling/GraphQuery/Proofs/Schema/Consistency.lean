import GraphQuery.Proofs.Keyed
import GraphQuery.Proofs.Outcome
import GraphQuery.Schema.Declaration

/-!
# Schema.Consistency — what holds of every schema that is built

Building resolves names to references. The references of a built schema are those of its own
definitions, of the right kinds, and abstract types list the object types that can stand for them.

- `Schema.Declares` : a type that names a definition of the schema, under any wrappers
- `Schema.Admits` : an object type that values of a type can have
- `Schema.Consistent` : the laws of built schemas
- `Declarations.consistent_of_build` : every built schema obeys them
-/

set_option autoImplicit false

namespace GraphQuery

namespace Schema

variable {s : Schema}

/-- Without its wrappers, the type is what its name stands for in the schema. -/
def Declares (s : Schema) (type : GraphType) : Prop :=
  s.graphType? type.name = some type.terminal

/-- A reference to an object type of the schema. -/
def IsObject (s : Schema) (type : TypeRef) : Prop :=
  s.Declares (.named .object type)

/-- An object type that is expected itself, or is listed by the abstract type that is. -/
def Admits (s : Schema) (expected object : TypeRef) : Prop :=
  object = expected ∨ object ∈ s.possibleTypes expected

structure Consistent (s : Schema) : Prop where
  distinct : (s.types.map TypeDefinition.name).Nodup
  query : s.IsObject s.queryType
  fieldNames : ∀ {owner fields}, s.fields? owner = some fields → (fields.map Field.name).Nodup
  fieldTypes : ∀ {owner fields}, s.fields? owner = some fields →
    ∀ field ∈ fields, s.Declares field.type
  interfaces : ∀ {type interface}, interface ∈ s.interfaces type →
    s.Declares (.named .interface interface)
  possibleTypes : ∀ {type object}, object ∈ s.possibleTypes type → s.IsObject object
  /-- An interface lists every object that declares it. -/
  implementers : ∀ {object interface}, s.IsObject object → interface ∈ s.interfaces object →
    object ∈ s.possibleTypes interface

/-! ## References -/

theorem terminal_eq (type : GraphType) : type.terminal = .named type.kind type.typeRef := by
  induction type with
  | named kind ref => rfl
  | list item ih => exact ih
  | nonNull type ih => exact ih

theorem declares_terminal {type : GraphType} : s.Declares type.terminal ↔ s.Declares type := by
  induction type with
  | named kind ref => exact Iff.rfl
  | list item ih => exact ih
  | nonNull type ih => exact ih

theorem declares_nullable {type : GraphType} : s.Declares type.nullable ↔ s.Declares type := by
  induction type with
  | named kind ref => exact Iff.rfl
  | list item ih => exact Iff.rfl
  | nonNull type ih => exact ih

/-- What a name stands for has that name. -/
theorem name_of_typeRef? {name : String} {ref : TypeRef} (h : s.typeRef? name = some ref) :
    ref.name = name := by
  rcases Option.map_eq_some_iff.1 h with ⟨index, -, rfl⟩
  rfl

/-- What a name stands for is found by its own name. -/
theorem typeRef?_self {name : String} {ref : TypeRef} (h : s.typeRef? name = some ref) :
    s.typeRef? ref.name = some ref := by
  rw [name_of_typeRef? h]
  exact h

theorem graphType?_eq_some_iff {name : String} {type : GraphType} :
    s.graphType? name = some type ↔
      ∃ ref definition, s.typeRef? name = some ref ∧ s.definition? ref = some definition ∧
        type = .named definition.kind ref := by
  constructor
  · intro h
    rcases Option.bind_eq_some_iff.1 h with ⟨ref, hr, h⟩
    rcases Option.bind_eq_some_iff.1 h with ⟨definition, hd, h⟩
    exact ⟨ref, definition, hr, hd, (Option.some.inj h).symm⟩
  · rintro ⟨ref, definition, hr, hd, rfl⟩
    exact Option.bind_eq_some_iff.2 ⟨ref, hr, Option.bind_eq_some_iff.2 ⟨definition, hd, rfl⟩⟩

/-- A declared reference is the one that its name stands for, and leads to a definition of its
kind. -/
theorem declares_named_iff {kind : TypeKind} {ref : TypeRef} :
    s.Declares (.named kind ref) ↔
      s.typeRef? ref.name = some ref ∧
        ∃ definition, s.definition? ref = some definition ∧ definition.kind = kind := by
  refine graphType?_eq_some_iff.trans ⟨?_, ?_⟩
  · rintro ⟨found, definition, hr, hd, h⟩
    cases h
    exact ⟨hr, definition, hd, rfl⟩
  · rintro ⟨hr, definition, hd, rfl⟩
    exact ⟨ref, definition, hr, hd, rfl⟩

theorem declares_of_graphType? {name : String} {type : GraphType}
    (h : s.graphType? name = some type) : s.Declares type := by
  rcases graphType?_eq_some_iff.1 h with ⟨ref, definition, hr, hd, rfl⟩
  exact declares_named_iff.2 ⟨typeRef?_self hr, definition, hd, rfl⟩

/-- The definition that a declared type refers to in the end is of its kind. -/
theorem definition_of_declares {type : GraphType} (h : s.Declares type) :
    ∃ definition, s.definition? type.typeRef = some definition ∧ definition.kind = type.kind := by
  have hterminal : s.Declares (.named type.kind type.typeRef) := by
    rw [← terminal_eq]
    exact declares_terminal.2 h
  exact (declares_named_iff.1 hterminal).2

/-! ## Fields -/

theorem Consistent.field?_of_mem (hs : s.Consistent) {owner : TypeRef} {fields : List Field}
    {field : Field} (hfields : s.fields? owner = some fields) (h : field ∈ fields) :
    s.field? owner field.name = some field := by
  have hfound : Keyed.find? Field.name field.name fields = some field :=
    Keyed.find?_key (hs.fieldNames hfields) h
  simpa [field?, hfields] using hfound

/-! ## Object types -/

theorem IsObject.definition {object : TypeRef} (h : s.IsObject object) :
    ∃ type, s.definition? object = some (.object type) := by
  rcases declares_named_iff.1 h with ⟨-, definition, hdefinition, hkind⟩
  cases definition with
  | object type => exact ⟨type, hdefinition⟩
  | _ => cases hkind

theorem isObject_of_definition {name : String} {ref : TypeRef} {type : ObjectType}
    (href : s.typeRef? name = some ref) (h : s.definition? ref = some (.object type)) :
    s.IsObject ref :=
  declares_named_iff.2 ⟨typeRef?_self href, _, h, rfl⟩

/-- No other type stands for an object type. -/
theorem IsObject.eq_of_admits {object type : TypeRef} (h : s.IsObject object)
    (ha : s.Admits object type) : type = object := by
  rcases ha with ha | ha
  · exact ha
  · rcases h.definition with ⟨definition, hdefinition⟩
    simp [possibleTypes, hdefinition, TypeDefinition.possibleTypes?] at ha

/-- An object type is possible for the types that list it. -/
theorem IsObject.isPossibleType_iff {object : TypeRef} (h : s.IsObject object)
    (abstractType : TypeRef) :
    s.isPossibleType abstractType object = true ↔ object ∈ s.possibleTypes abstractType := by
  rcases h.definition with ⟨definition, hdefinition⟩
  unfold isPossibleType possibleTypes
  rw [hdefinition]
  cases (s.definition? abstractType).bind TypeDefinition.possibleTypes? with
  | none => simp
  | some possible => simp

theorem IsObject.admits_of_isPossibleType {expected object : TypeRef} (h : s.IsObject object)
    (hp : s.isPossibleType expected object = true) : s.Admits expected object :=
  .inr ((h.isPossibleType_iff expected).1 hp)

/-! ## Composite types -/

/-- A type with fields is an object or an interface. -/
theorem isComposite_of_fields? {type : GraphType} {fields : List Field} (hd : s.Declares type)
    (h : s.fields? type.typeRef = some fields) : type.isComposite = true := by
  rcases definition_of_declares hd with ⟨definition, hdefinition, hkind⟩
  have hfields : definition.fields? = some fields := by simpa [fields?, hdefinition] using h
  unfold GraphType.isComposite
  rw [← hkind]
  cases definition <;> first | rfl | cases hfields

/-- A type that others are possible for is abstract. -/
theorem isComposite_of_isPossibleType {type : GraphType} {candidate : TypeRef}
    (hd : s.Declares type) (h : s.isPossibleType type.typeRef candidate = true) :
    type.isComposite = true := by
  rcases definition_of_declares hd with ⟨definition, hdefinition, hkind⟩
  unfold isPossibleType at h
  rw [hdefinition, Option.bind_some] at h
  unfold GraphType.isComposite
  rw [← hkind]
  cases definition <;> first | rfl | cases h

/-- A type that is possible for another is an object or an interface. -/
theorem isComposite_of_candidate {abstractType : TypeRef} {type : GraphType}
    (hd : s.Declares type) (h : s.isPossibleType abstractType type.typeRef = true) :
    type.isComposite = true := by
  rcases definition_of_declares hd with ⟨definition, hdefinition, hkind⟩
  unfold isPossibleType at h
  rw [hdefinition] at h
  unfold GraphType.isComposite
  rw [← hkind]
  split at h
  · cases h
  · cases definition <;> first | rfl | cases h

theorem isComposite_of_isAbstract {type : GraphType} (h : type.isAbstract = true) :
    type.isComposite = true := by
  unfold GraphType.isAbstract at h
  unfold GraphType.isComposite
  cases hkind : type.kind <;> rw [hkind] at h <;> first | rfl | cases h

end Schema

namespace Declarations

variable {d : Declarations} {s : Schema}

/-! ## Resolved references -/

theorem find?_eq_some_iff {name : String} {kind : TypeKind} {ref : TypeRef} :
    d.find? name = some (kind, ref) ↔
      ref.name = name ∧
        ∃ type, d.types[ref.index]? = some type ∧ type.name = name ∧ type.kind = kind := by
  constructor
  · intro h
    rcases Option.bind_eq_some_iff.1 h with ⟨index, hindex, h⟩
    rcases Option.bind_eq_some_iff.1 h with ⟨type, htype, h⟩
    rcases (Keyed.findIdx?_eq_some_iff d.distinct).1 hindex with ⟨found, hfound, hname⟩
    cases h
    rw [htype] at hfound
    cases hfound
    exact ⟨rfl, type, htype, hname, rfl⟩
  · rintro ⟨hname, type, htype, htypeName, hkind⟩
    -- The name has no other position, so the first one is that of the reference.
    rcases ref with ⟨index, refName⟩
    subst hname hkind
    have hindex : d.types.findIdx? (fun type => type.name == refName) = some index :=
      (Keyed.findIdx?_eq_some_iff d.distinct).2 ⟨type, htype, htypeName⟩
    exact Option.bind_eq_some_iff.2 ⟨index, hindex, Option.bind_eq_some_iff.2 ⟨type, htype, rfl⟩⟩

theorem resolveKind_eq_ok {owner name : String} {kind : TypeKind} {ref : TypeRef}
    (h : d.resolveKind owner kind name = .ok ref) : d.find? name = some (kind, ref) := by
  unfold resolveKind at h
  split at h
  · next found type hfind =>
      split at h
      · next hkind =>
          cases h
          rw [hfind, hkind]
      · cases h
  · cases h

theorem resolveKinds_eq_ok {owner : String} {kind : TypeKind} {names : List String}
    {refs : List TypeRef} (h : d.resolveKinds owner kind names = .ok refs) :
    refs.Nodup ∧ ∀ ref ∈ refs, d.find? ref.name = some (kind, ref) := by
  rcases Outcome.bind_eq_ok_iff.1 h with ⟨found, hfound, h⟩
  cases h
  refine ⟨Keyed.nodup_distinct found, ?_⟩
  intro ref href
  obtain ⟨name, -, hname⟩ :=
    Outcome.mem_right (Outcome.mapM_eq_ok_iff.1 hfound) (Keyed.mem_distinct.1 href)
  have hfind : d.find? name = some (kind, ref) := resolveKind_eq_ok hname
  have hrefName : ref.name = name := (find?_eq_some_iff.1 hfind).1
  rw [hrefName]
  exact hfind

/-- A resolved type names, under its wrappers, a declaration of its kind. -/
theorem resolve_eq_ok {owner : String} {e : TypeExpr} {type : GraphType}
    (h : d.resolve owner e = .ok type) : d.find? type.name = some (type.kind, type.typeRef) := by
  induction e generalizing type with
  | named name =>
      simp only [resolve] at h
      split at h
      · next kind ref hfind =>
          cases h
          have hname : (GraphType.named kind ref).name = name := (find?_eq_some_iff.1 hfind).1
          rw [hname]
          exact hfind
      · cases h
  | list item ih =>
      rcases Outcome.map_eq_ok_iff.1 h with ⟨inner, hinner, rfl⟩
      have hfind := ih hinner
      exact hfind
  | nonNull e ih =>
      rcases Outcome.map_eq_ok_iff.1 h with ⟨inner, hinner, rfl⟩
      have hfind := ih hinner
      exact hfind

theorem resolveFields_eq_ok {owner : String} {declared : List FieldDeclaration}
    {fields : List Field} (h : d.resolveFields owner declared = .ok fields) :
    (fields.map Field.name).Nodup ∧
      ∀ field ∈ fields, d.find? field.type.name = some (field.type.kind, field.type.typeRef) := by
  rcases Outcome.bind_eq_ok_iff.1 h with ⟨found, hfound, h⟩
  cases h
  refine ⟨Keyed.nodup_ofList Field.name found, ?_⟩
  intro field hfield
  obtain ⟨declaration, -, hresolve⟩ :=
    Outcome.mem_right (Outcome.mapM_eq_ok_iff.1 hfound) (Keyed.mem_ofList hfield)
  rcases Outcome.bind_eq_ok_iff.1 hresolve with ⟨arguments, -, hresolve⟩
  rcases Outcome.bind_eq_ok_iff.1 hresolve with ⟨type, htype, hresolve⟩
  cases hresolve
  exact resolve_eq_ok htype

/-! ## Definitions -/

/-- What a declaration becomes before implementers and members are tied back. -/
structure Defines (d : Declarations) (declaration : TypeDeclaration)
    (definition : TypeDefinition) : Prop where
  name : definition.name = declaration.name
  kind : definition.kind = declaration.kind
  fields : ∀ fields, definition.fields? = some fields → (fields.map Field.name).Nodup ∧
    ∀ field ∈ fields, d.find? field.type.name = some (field.type.kind, field.type.typeRef)
  interfaces : ∀ ref ∈ definition.interfaces, d.find? ref.name = some (.interface, ref)
  members : ∀ refs, definition.possibleTypes? = some refs →
    ∀ ref ∈ refs, d.find? ref.name = some (.object, ref)

theorem defines_of_define {declaration : TypeDeclaration} {definition : TypeDefinition}
    (h : d.define declaration = .ok definition) : d.Defines declaration definition := by
  cases declaration with
  | scalar name =>
      cases h
      exact ⟨rfl, rfl, nofun, nofun, nofun⟩
  | object name fields interfaces =>
      rcases Outcome.bind_eq_ok_iff.1 h with ⟨resolved, hfields, h⟩
      rcases Outcome.bind_eq_ok_iff.1 h with ⟨refs, hrefs, h⟩
      cases h
      refine ⟨rfl, rfl, ?_, (resolveKinds_eq_ok hrefs).2, nofun⟩
      rintro found ⟨⟩
      exact resolveFields_eq_ok hfields
  | interface name fields interfaces =>
      rcases Outcome.bind_eq_ok_iff.1 h with ⟨resolved, hfields, h⟩
      rcases Outcome.bind_eq_ok_iff.1 h with ⟨refs, hrefs, h⟩
      cases h
      refine ⟨rfl, rfl, ?_, (resolveKinds_eq_ok hrefs).2, ?_⟩
      · rintro found ⟨⟩
        exact resolveFields_eq_ok hfields
      · rintro found ⟨⟩
        nofun
  | union name members =>
      rcases Outcome.bind_eq_ok_iff.1 h with ⟨refs, hrefs, h⟩
      cases h
      refine ⟨rfl, rfl, nofun, nofun, ?_⟩
      rintro found ⟨⟩
      exact (resolveKinds_eq_ok hrefs).2
  | enum name values =>
      cases h
      exact ⟨rfl, rfl, nofun, nofun, nofun⟩
  | inputObject name fields =>
      rcases Outcome.bind_eq_ok_iff.1 h with ⟨resolved, -, h⟩
      cases h
      exact ⟨rfl, rfl, nofun, nofun, nofun⟩

/-! ## Tying back -/

section TieBack

variable (types : List TypeDefinition) (i : Nat) (definition : TypeDefinition)

theorem tieBack_name : (tieBack types i definition).name = definition.name := by
  cases definition <;> rfl

theorem tieBack_kind : (tieBack types i definition).kind = definition.kind := by
  cases definition <;> rfl

theorem tieBack_fields? : (tieBack types i definition).fields? = definition.fields? := by
  cases definition <;> rfl

theorem tieBack_interfaces : (tieBack types i definition).interfaces = definition.interfaces := by
  cases definition <;> rfl

end TieBack

theorem mem_implementers {types : List TypeDefinition} {index : Nat} {ref : TypeRef} :
    ref ∈ implementers types index ↔
      ∃ object, types[ref.index]? = some (.object object) ∧ ref.name = object.name ∧
        ∃ interface ∈ object.interfaces, interface.index = index := by
  unfold implementers
  rw [List.mem_filterMap]
  constructor
  · rintro ⟨⟨type, i⟩, hmem, h⟩
    have htype := List.mem_zipIdx_iff_getElem?.1 hmem
    cases type with
    | object object =>
        simp only [Option.ite_none_right_eq_some, List.any_eq_true, beq_iff_eq,
          Option.some.injEq] at h
        rcases h with ⟨hinterface, rfl⟩
        exact ⟨object, htype, rfl, hinterface⟩
    | _ => cases h
  · rintro ⟨object, htype, hname, hinterface⟩
    refine ⟨(.object object, ref.index), List.mem_zipIdx_iff_getElem?.2 htype, ?_⟩
    simp only [Option.ite_none_right_eq_some, List.any_eq_true, beq_iff_eq, Option.some.injEq]
    exact ⟨hinterface, by rw [← hname]⟩

/-! ## Built schemas -/

/-- The definitions of a schema before and after they are tied back. -/
structure Builds (d : Declarations) (types : List TypeDefinition) (s : Schema) : Prop where
  defined : List.Forall₂ d.Defines d.types types
  query : d.find? (d.queryType.getD "Query") = some (.object, s.queryType)
  tied : s.types = types.zipIdx.map fun (type, i) => tieBack types i type

theorem builds_of_build (h : d.build = .ok s) :
    ∃ types, d.types.mapM d.define = .ok types ∧ d.Builds types s := by
  rcases Outcome.bind_eq_ok_iff.1 h with ⟨types, htypes, h⟩
  refine ⟨types, htypes, ?_⟩
  have hdefined : List.Forall₂ d.Defines d.types types :=
    (Outcome.mapM_eq_ok_iff.1 htypes).imp fun _ _ => defines_of_define
  split at h
  · next queryType hquery =>
      cases h
      exact ⟨hdefined, hquery, rfl⟩
  · cases h

namespace Builds

variable {types : List TypeDefinition}

theorem getElem?_eq (b : d.Builds types s) (i : Nat) :
    s.types[i]? = types[i]?.map (tieBack types i) := by
  rw [b.tied, List.getElem?_map, List.getElem?_zipIdx]
  cases types[i]? <;> simp

/-- Every definition of the schema comes from a declaration at its place. -/
theorem definition (b : d.Builds types s) {ref : TypeRef} {found : TypeDefinition}
    (h : s.definition? ref = some found) :
    ∃ declaration definition, d.types[ref.index]? = some declaration ∧
      types[ref.index]? = some definition ∧ d.Defines declaration definition ∧
      found = tieBack types ref.index definition := by
  have hplace : types[ref.index]?.map (tieBack types ref.index) = some found := by
    rw [← b.getElem?_eq]
    exact h
  rcases Option.map_eq_some_iff.1 hplace with ⟨definition, hdefinition, rfl⟩
  rcases Outcome.getElem?_left b.defined hdefinition with ⟨declaration, hdeclaration, hdefines⟩
  exact ⟨declaration, definition, hdeclaration, hdefinition, hdefines, rfl⟩

/-- Definitions have the names and kinds of the declarations, place by place. -/
theorem signatures_eq (b : d.Builds types s) :
    s.types.map (fun type => (type.name, type.kind)) =
      d.types.map fun type => (type.name, type.kind) := by
  -- Tying back changes neither name nor kind, and defining keeps those of the declaration.
  refine List.ext_getElem? fun i => ?_
  rw [List.getElem?_map, List.getElem?_map, b.getElem?_eq]
  cases hd : d.types[i]? with
  | none =>
      have hlen : types.length = d.types.length := b.defined.length_eq.symm
      have hge : d.types.length ≤ i := List.getElem?_eq_none_iff.1 hd
      have hnone : types[i]? = none := List.getElem?_eq_none (by omega)
      simp [hnone]
  | some declaration =>
      rcases Outcome.getElem?_right b.defined hd with ⟨definition, hdefinition, hdefines⟩
      simp [hdefinition, tieBack_name, tieBack_kind, hdefines.name, hdefines.kind]

theorem names_eq (b : d.Builds types s) :
    s.types.map TypeDefinition.name = d.types.map TypeDeclaration.name := by
  have hnames := congrArg (List.map Prod.fst) b.signatures_eq
  simpa [List.map_map, Function.comp_def] using hnames

theorem distinct (b : d.Builds types s) : (s.types.map TypeDefinition.name).Nodup := by
  rw [b.names_eq]
  exact d.distinct

/-- What is found among the declarations is declared by the schema. -/
theorem declares (b : d.Builds types s) {name : String} {kind : TypeKind} {ref : TypeRef}
    (h : d.find? name = some (kind, ref)) : s.Declares (.named kind ref) := by
  rcases find?_eq_some_iff.1 h with ⟨hname, declaration, hdeclaration, hdeclared, hkind⟩
  rcases Outcome.getElem?_right b.defined hdeclaration with ⟨definition, hdefinition, hdefines⟩
  have hfound : s.definition? ref = some (tieBack types ref.index definition) := by
    simp [Schema.definition?, b.getElem?_eq, hdefinition]
  have hfoundName : (tieBack types ref.index definition).name = ref.name := by
    calc (tieBack types ref.index definition).name
        = definition.name := tieBack_name _ _ _
      _ = declaration.name := hdefines.name
      _ = ref.name := by rw [hdeclared, hname]
  have hfoundKind : (tieBack types ref.index definition).kind = kind := by
    calc (tieBack types ref.index definition).kind
        = definition.kind := tieBack_kind _ _ _
      _ = declaration.kind := hdefines.kind
      _ = kind := hkind
  have hindex : s.types.findIdx? (fun type => type.name == ref.name) = some ref.index :=
    (Keyed.findIdx?_eq_some_iff b.distinct).2 ⟨_, hfound, hfoundName⟩
  refine Schema.declares_named_iff.2 ⟨?_, _, hfound, hfoundKind⟩
  exact Option.map_eq_some_iff.2 ⟨ref.index, hindex, rfl⟩

theorem declares_type (b : d.Builds types s) {type : GraphType}
    (h : d.find? type.name = some (type.kind, type.typeRef)) : s.Declares type := by
  have hterminal : s.Declares type.terminal := by
    rw [Schema.terminal_eq]
    exact b.declares h
  exact Schema.declares_terminal.1 hterminal

theorem fields (b : d.Builds types s) {owner : TypeRef} {fields : List Field}
    (h : s.fields? owner = some fields) :
    (fields.map Field.name).Nodup ∧ ∀ field ∈ fields, s.Declares field.type := by
  rcases Option.bind_eq_some_iff.1 h with ⟨found, hfound, hfields⟩
  rcases b.definition hfound with ⟨_, definition, -, -, hdefines, rfl⟩
  rw [tieBack_fields?] at hfields
  rcases hdefines.fields fields hfields with ⟨hnames, htypes⟩
  exact ⟨hnames, fun field hfield => b.declares_type (htypes field hfield)⟩

theorem interfaces (b : d.Builds types s) {type interface : TypeRef}
    (h : interface ∈ s.interfaces type) : s.Declares (.named .interface interface) := by
  cases hfound : s.definition? type with
  | none => simp [Schema.interfaces, hfound] at h
  | some found =>
      rcases b.definition hfound with ⟨_, definition, -, -, hdefines, rfl⟩
      have hmem : interface ∈ definition.interfaces := by
        simpa [Schema.interfaces, hfound, tieBack_interfaces] using h
      exact b.declares (hdefines.interfaces interface hmem)

/-- Implementers and members are objects of the schema. -/
theorem possibleTypes (b : d.Builds types s) {type object : TypeRef}
    (h : object ∈ s.possibleTypes type) : s.IsObject object := by
  cases hfound : s.definition? type with
  | none => simp [Schema.possibleTypes, hfound] at h
  | some found =>
      rcases b.definition hfound with ⟨_, definition, -, -, hdefines, rfl⟩
      have h : object ∈ ((tieBack types type.index definition).possibleTypes?).getD [] := by
        simpa [Schema.possibleTypes, hfound] using h
      -- Interfaces list their implementers, unions their members, and nothing else lists any.
      cases definition with
      | interface type =>
          rcases mem_implementers.1 h with ⟨o, ho, hname, -⟩
          rcases Outcome.getElem?_left b.defined ho with ⟨declaration, hdeclaration, ho⟩
          refine b.declares (find?_eq_some_iff.2 ⟨rfl, declaration, hdeclaration, ?_, ?_⟩)
          · exact ho.name.symm.trans hname.symm
          · exact ho.kind.symm
      | union type => exact b.declares (hdefines.members type.members rfl object h)
      | _ => simp [tieBack, TypeDefinition.possibleTypes?] at h

theorem implementers (b : d.Builds types s) {object interface : TypeRef}
    (hobject : s.IsObject object) (h : interface ∈ s.interfaces object) :
    object ∈ s.possibleTypes interface := by
  rcases Schema.declares_named_iff.1 hobject with ⟨hr, found, hfound, hkind⟩
  rcases Schema.declares_named_iff.1 (b.interfaces h) with ⟨-, listed, hlisted, hlistedKind⟩
  rcases b.definition hfound with ⟨_, definition, -, hdefinition, hdefines, rfl⟩
  rcases b.definition hlisted with ⟨_, target, -, -, -, rfl⟩
  rw [tieBack_kind] at hkind hlistedKind
  have hmem : interface ∈ definition.interfaces := by
    simpa [Schema.interfaces, hfound, tieBack_interfaces] using h
  unfold Schema.possibleTypes
  rw [hlisted, Option.bind_some]
  -- The kinds leave an interface that is listed and an object that lists it.
  cases target with
  | interface target =>
      cases definition with
      | object o =>
          refine mem_implementers.2 ⟨o, hdefinition, ?_, interface, hmem, rfl⟩
          rcases Option.map_eq_some_iff.1 hr with ⟨index, hindex, href⟩
          rcases (Keyed.findIdx?_eq_some_iff b.distinct).1 hindex with ⟨named, hnamed, hname⟩
          have heq : index = object.index := congrArg TypeRef.index href
          subst heq
          -- The name of the reference is that of the definition it leads to.
          have hsame : some (tieBack types object.index (.object o)) = some named :=
            hfound.symm.trans hnamed
          cases hsame
          exact hname.symm
      | _ => cases hkind
  | _ => cases hlistedKind

end Builds

/-- Whatever is declared, a schema that is built is consistent. -/
theorem consistent_of_build (h : d.build = .ok s) : s.Consistent := by
  rcases builds_of_build h with ⟨types, -, b⟩
  exact {
    distinct := b.distinct
    query := b.declares b.query
    fieldNames := fun hfields => (b.fields hfields).1
    fieldTypes := fun hfields => (b.fields hfields).2
    interfaces := b.interfaces
    possibleTypes := b.possibleTypes
    implementers := b.implementers }

end Declarations

end GraphQuery
