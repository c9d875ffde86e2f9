import GraphQuery.Proofs.Schema.References

/-!
# Schema.Rebuilding — schemas as declarations of themselves

A built schema can be declared again: every definition by its name, with the names of the types that
it refers to in place of the references. Building that gives the schema back. What is tied back,
the implementers of interfaces and the unions of objects, is not declared; it is found once more.

- `TypeDefinition.declaration` : a definition as a declaration
- `TypeDefinition.Distinct`, `Declarations.distinct_of_define` : definitions repeat nothing
- `Declarations.distinct_arguments` : nor do the arguments of a field of a built schema
- `Declarations.define_declaration` : a definition is defined by its declaration
- `Declarations.rebuild` : building the declarations of a schema
-/

set_option autoImplicit false

namespace GraphQuery

/-! ## Declarations of definitions -/

def Argument.declaration (argument : Argument) : ArgumentDeclaration :=
  ⟨argument.name, argument.type.expr⟩

def Field.declaration (field : Field) : FieldDeclaration :=
  ⟨field.name, field.type.expr, field.arguments.map Argument.declaration⟩

namespace TypeDefinition

/-- A definition as it is declared, by names. -/
def declaration : TypeDefinition → TypeDeclaration
  | .scalar name => .scalar name
  | .object type =>
      .object type.name (type.fields.map Field.declaration) (type.interfaces.map TypeRef.name)
  | .interface type =>
      .interface type.name (type.fields.map Field.declaration) (type.interfaces.map TypeRef.name)
  | .union type => .union type.name (type.members.map TypeRef.name)
  | .enum type => .enum type.name type.values
  | .inputObject type => .inputObject type.name (type.fields.map Argument.declaration)

/-- A definition before implementers and unions are tied back to it. -/
def untied : TypeDefinition → TypeDefinition
  | .object type => .object { type with unions := [] }
  | .interface type => .interface { type with possibleTypes := [] }
  | type => type

/-- Nothing is repeated in a definition: no field, no argument of a field, no reference in a list
and no value. -/
inductive Distinct : TypeDefinition → Prop where
  | scalar {name : String} : Distinct (.scalar name)
  | object {type : ObjectType} :
      (type.fields.map Field.name).Nodup →
      (∀ field ∈ type.fields, (field.arguments.map Argument.name).Nodup) →
      type.interfaces.Nodup → Distinct (.object type)
  | interface {type : InterfaceType} :
      (type.fields.map Field.name).Nodup →
      (∀ field ∈ type.fields, (field.arguments.map Argument.name).Nodup) →
      type.interfaces.Nodup → Distinct (.interface type)
  | union {type : UnionType} : type.members.Nodup → Distinct (.union type)
  | enum {type : EnumType} : type.values.Nodup → Distinct (.enum type)
  | inputObject {type : InputObjectType} :
      (type.fields.map Argument.name).Nodup → Distinct (.inputObject type)

@[simp]
theorem declaration_name (type : TypeDefinition) : type.declaration.name = type.name := by
  cases type <;> rfl

@[simp]
theorem declaration_kind (type : TypeDefinition) : type.declaration.kind = type.kind := by
  cases type <;> rfl

/-- What is tied back is not declared. -/
@[simp]
theorem declaration_tieBack (types : List TypeDefinition) (i : Nat) (type : TypeDefinition) :
    (Declarations.tieBack types i type).declaration = type.declaration := by
  cases type <;> rfl

end TypeDefinition

namespace Declarations

variable {d other : Declarations} {s : Schema} {owner : String} {kind : TypeKind}
  {arguments : List Argument} {fields : List Field} {refs : List TypeRef}

/-! ## What is resolved is distinct -/

theorem distinct_of_resolveArguments {declared : List ArgumentDeclaration}
    (h : d.resolveArguments owner declared = .ok arguments) :
    (arguments.map Argument.name).Nodup := by
  rcases Outcome.bind_eq_ok_iff.1 h with ⟨found, -, h⟩
  cases h
  exact Keyed.nodup_ofList Argument.name found

theorem distinct_of_resolveFields {declared : List FieldDeclaration}
    (h : d.resolveFields owner declared = .ok fields) :
    (fields.map Field.name).Nodup ∧
      ∀ field ∈ fields, (field.arguments.map Argument.name).Nodup := by
  refine ⟨(resolveFields_eq_ok h).1, fun field hfield => ?_⟩
  rcases Outcome.bind_eq_ok_iff.1 h with ⟨found, hfound, h⟩
  cases h
  obtain ⟨declaration, -, hresolve⟩ :=
    Outcome.mem_right (Outcome.mapM_eq_ok_iff.1 hfound) (Keyed.mem_ofList hfield)
  rcases Outcome.bind_eq_ok_iff.1 hresolve with ⟨own, hown, hresolve⟩
  rcases Outcome.bind_eq_ok_iff.1 hresolve with ⟨type, -, hresolve⟩
  cases hresolve
  exact distinct_of_resolveArguments hown

theorem distinct_of_define {declaration : TypeDeclaration} {definition : TypeDefinition}
    (h : d.define declaration = .ok definition) :
    definition.Distinct ∧ definition.untied = definition := by
  cases declaration with
  | scalar name =>
      cases h
      exact ⟨.scalar, rfl⟩
  | object name declared interfaces =>
      rcases Outcome.bind_eq_ok_iff.1 h with ⟨fields, hfields, h⟩
      rcases Outcome.bind_eq_ok_iff.1 h with ⟨refs, hrefs, h⟩
      cases h
      rcases distinct_of_resolveFields hfields with ⟨hnames, harguments⟩
      exact ⟨.object hnames harguments (resolveKinds_eq_ok hrefs).1, rfl⟩
  | interface name declared interfaces =>
      rcases Outcome.bind_eq_ok_iff.1 h with ⟨fields, hfields, h⟩
      rcases Outcome.bind_eq_ok_iff.1 h with ⟨refs, hrefs, h⟩
      cases h
      rcases distinct_of_resolveFields hfields with ⟨hnames, harguments⟩
      exact ⟨.interface hnames harguments (resolveKinds_eq_ok hrefs).1, rfl⟩
  | union name members =>
      rcases Outcome.bind_eq_ok_iff.1 h with ⟨refs, hrefs, h⟩
      cases h
      exact ⟨.union (resolveKinds_eq_ok hrefs).1, rfl⟩
  | enum name values =>
      cases h
      exact ⟨.enum (Keyed.nodup_distinct values), rfl⟩
  | inputObject name declared =>
      rcases Outcome.bind_eq_ok_iff.1 h with ⟨fields, hfields, h⟩
      cases h
      exact ⟨.inputObject (distinct_of_resolveArguments hfields), rfl⟩

/-- No argument of a field of a built schema is repeated. -/
theorem distinct_arguments (h : d.build = .ok s) {owner : TypeRef}
    (hfields : s.fields? owner = some fields) :
    ∀ field ∈ fields, (field.arguments.map Argument.name).Nodup := by
  rcases builds_of_build h with ⟨types, htypes, b⟩
  rcases Option.bind_eq_some_iff.1 hfields with ⟨found, hfound, hfields⟩
  rcases b.definition hfound with ⟨_, definition, -, hplace, -, rfl⟩
  rcases Outcome.getElem?_left (Outcome.mapM_eq_ok_iff.1 htypes) hplace with ⟨_, -, hdefine⟩
  rw [tieBack_fields?] at hfields
  cases (distinct_of_define hdefine).1 with
  | object _ harguments _ | interface _ harguments _ =>
      cases hfields
      exact harguments
  | _ => cases hfields

/-! ## Resolving once more -/

theorem resolve_expr {type : GraphType} (h : d.Finds type) :
    d.resolve owner type.expr = .ok type := by
  induction type with
  | named kind ref =>
      have hfind : d.find? ref.name = some (kind, ref) := h
      simp [GraphType.expr, resolve, hfind]
  | list item ih =>
      have hitem : d.resolve owner item.expr = .ok item := ih h
      simp [GraphType.expr, resolve, hitem, Except.map]
  | nonNull type ih =>
      have htype : d.resolve owner type.expr = .ok type := ih h
      simp [GraphType.expr, resolve, htype, Except.map]

theorem resolveArguments_declarations (hdistinct : (arguments.map Argument.name).Nodup)
    (hfinds : ∀ argument ∈ arguments, d.Finds argument.type) :
    d.resolveArguments owner (arguments.map Argument.declaration) = .ok arguments := by
  have hresolved : (arguments.map Argument.declaration).mapM (d.resolveArgument owner) =
      .ok (arguments.map id) := by
    refine Outcome.mapM_map_eq_ok fun argument hargument => ?_
    exact Outcome.bind_eq_ok_iff.2 ⟨_, resolve_expr (hfinds argument hargument), rfl⟩
  refine Outcome.bind_eq_ok_iff.2 ⟨_, hresolved, ?_⟩
  simp [Keyed.ofList_eq_self hdistinct, pure, Except.pure]

theorem resolveFields_declarations (hdistinct : (fields.map Field.name).Nodup)
    (harguments : ∀ field ∈ fields, (field.arguments.map Argument.name).Nodup)
    (hfinds : ∀ type ∈ fields.flatMap Field.references, d.Finds type) :
    d.resolveFields owner (fields.map Field.declaration) = .ok fields := by
  have hresolved : (fields.map Field.declaration).mapM (d.resolveField owner) =
      .ok (fields.map id) := by
    refine Outcome.mapM_map_eq_ok fun field hfield => ?_
    have hmentioned : ∀ type ∈ field.references, d.Finds type := fun type htype =>
      hfinds type (List.mem_flatMap.2 ⟨field, hfield, htype⟩)
    rcases List.forall_mem_cons.1 hmentioned with ⟨htype, hbelow⟩
    refine Outcome.bind_eq_ok_iff.2 ⟨_, resolveArguments_declarations (harguments field hfield) ?_,
      Outcome.bind_eq_ok_iff.2 ⟨_, resolve_expr htype, rfl⟩⟩
    exact fun argument hargument => hbelow _ (List.mem_map_of_mem hargument)
  refine Outcome.bind_eq_ok_iff.2 ⟨_, hresolved, ?_⟩
  simp [Keyed.ofList_eq_self hdistinct, pure, Except.pure]

theorem resolveKinds_names (hdistinct : refs.Nodup)
    (hfinds : ∀ type ∈ refs.map (GraphType.named kind), d.Finds type) :
    d.resolveKinds owner kind (refs.map TypeRef.name) = .ok refs := by
  have hresolved : (refs.map TypeRef.name).mapM (d.resolveKind owner kind) = .ok (refs.map id) := by
    refine Outcome.mapM_map_eq_ok fun ref href => ?_
    have hfind : d.find? ref.name = some (kind, ref) := hfinds _ (List.mem_map_of_mem href)
    simp [resolveKind, hfind]
  refine Outcome.bind_eq_ok_iff.2 ⟨_, hresolved, ?_⟩
  simp [Keyed.distinct_eq_self hdistinct, pure, Except.pure]

/-- A definition whose references are found is what its declaration is defined as, up to what is
tied back. -/
theorem define_declaration {definition : TypeDefinition} (hdistinct : definition.Distinct)
    (hfinds : ∀ type ∈ definition.references, d.Finds type) :
    d.define definition.declaration = .ok definition.untied := by
  cases hdistinct with
  | scalar => rfl
  | object hnames harguments hinterfaces =>
      rcases List.forall_mem_append.1 hfinds with ⟨hfinds, -⟩
      rcases List.forall_mem_append.1 hfinds with ⟨hfields, hrefs⟩
      exact Outcome.bind_eq_ok_iff.2 ⟨_, resolveFields_declarations hnames harguments hfields,
        Outcome.bind_eq_ok_iff.2 ⟨_, resolveKinds_names hinterfaces hrefs, rfl⟩⟩
  | interface hnames harguments hinterfaces =>
      rcases List.forall_mem_append.1 hfinds with ⟨hfinds, -⟩
      rcases List.forall_mem_append.1 hfinds with ⟨hfields, hrefs⟩
      exact Outcome.bind_eq_ok_iff.2 ⟨_, resolveFields_declarations hnames harguments hfields,
        Outcome.bind_eq_ok_iff.2 ⟨_, resolveKinds_names hinterfaces hrefs, rfl⟩⟩
  | union hmembers =>
      exact Outcome.bind_eq_ok_iff.2 ⟨_, resolveKinds_names hmembers hfinds, rfl⟩
  | enum hvalues =>
      simp [TypeDefinition.declaration, TypeDefinition.untied, define, pure, Except.pure,
        Keyed.distinct_eq_self hvalues]
  | inputObject hnames =>
      refine Outcome.bind_eq_ok_iff.2 ⟨_, resolveArguments_declarations hnames ?_, rfl⟩
      exact fun argument hargument => hfinds _ (List.mem_map_of_mem hargument)

/-! ## Building once more -/

/-- What is found depends on the names and kinds of the declarations, place by place. -/
theorem find?_eq_some_iff_getElem? {name : String} {kind : TypeKind} {ref : TypeRef} :
    d.find? name = some (kind, ref) ↔ ref.name = name ∧
      (d.types.map fun type => (type.name, type.kind))[ref.index]? = some (name, kind) := by
  rw [find?_eq_some_iff, List.getElem?_map, Option.map_eq_some_iff]
  simp

theorem find?_congr (h : other.types.map (fun type => (type.name, type.kind)) =
    d.types.map fun type => (type.name, type.kind)) (name : String) :
    other.find? name = d.find? name := by
  refine Option.ext fun found => ?_
  rcases found with ⟨kind, ref⟩
  rw [find?_eq_some_iff_getElem?, find?_eq_some_iff_getElem?, h]

/-- The definitions of a built schema, declared in their order with the root of the schema, are
built to the schema. -/
theorem rebuild (h : d.build = .ok s)
    (htypes : other.types = s.types.map TypeDefinition.declaration)
    (hquery : other.queryType = some s.queryType.name) : other.build = .ok s := by
  rcases builds_of_build h with ⟨types, hdefine, b⟩
  have hfind : ∀ name, other.find? name = d.find? name := by
    refine find?_congr ?_
    calc other.types.map (fun type => (type.name, type.kind))
        = s.types.map fun type => (type.name, type.kind) := by simp [htypes, Function.comp_def]
      _ = d.types.map fun type => (type.name, type.kind) := b.signatures_eq
  -- What was tied back is not declared, so these declare the definitions as they were before.
  have hdeclared : other.types = types.map TypeDefinition.declaration := by
    rw [htypes, b.tied, List.map_map]
    have huntie : TypeDefinition.declaration ∘ (fun p : TypeDefinition × Nat =>
        tieBack types p.2 p.1) = TypeDefinition.declaration ∘ Prod.fst := by
      funext p
      simp
    rw [huntie, ← List.map_map, List.zipIdx_map_fst]
  have hdefined : other.types.mapM other.define = .ok (types.map id) := by
    rw [hdeclared]
    refine Outcome.mapM_map_eq_ok fun definition hdefinition => ?_
    rcases Outcome.mem_right (Outcome.mapM_eq_ok_iff.1 hdefine) hdefinition with
      ⟨declaration, -, hdeclaration⟩
    rcases distinct_of_define hdeclaration with ⟨hdistinct, huntied⟩
    have hfinds : ∀ type ∈ definition.references, other.Finds type := fun type htype =>
      (hfind type.name).trans (finds_of_define hdeclaration type htype)
    rw [define_declaration hdistinct hfinds, huntied]
    rfl
  have hroot : other.find? (other.queryType.getD "Query") = some (.object, s.queryType) := by
    have hname : s.queryType.name = d.queryType.getD "Query" := (find?_eq_some_iff.1 b.query).1
    rw [hquery, Option.getD_some, hfind, hname]
    exact b.query
  refine Outcome.bind_eq_ok_iff.2 ⟨_, hdefined, ?_⟩
  simp only [hroot, List.map_id, ← b.tied]
  rfl

end Declarations

end GraphQuery
