import GraphQuery.Proofs.Schema.Rebuilding
import GraphQuery.Schema.Introspection

/-!
# Schema.Introspection — reading back what a server says of its schema

A server answers the introspection query with one record per type. For a built schema, the records
read back are the declarations of its definitions, and building them gives the schema. Types of the
introspection system, which servers list among the others, are passed over.

- `Introspection.typeJson`, `Introspection.definitionJson`, `Introspection.answer` : the answer of a
  server
- `Introspection.readResult_answer` : the shape of the answer
- `Introspection.declaration_definitionRecord`, `Introspection.declareAll_definitionRecords` :
  its declarations
- `Schema.ofIntrospection_answer` : the schema that it describes
-/

set_option autoImplicit false

namespace GraphQuery

namespace TypeDefinition

/-- Interfaces of objects and interfaces, be there any or not. -/
def interfaces? : TypeDefinition → Option (List TypeRef)
  | .object type => some type.interfaces
  | .interface type => some type.interfaces
  | _ => none

def values? : TypeDefinition → Option (List String)
  | .enum type => some type.values
  | _ => none

def inputFields? : TypeDefinition → Option (List Argument)
  | .inputObject type => some type.fields
  | _ => none

/-- The names that a definition gives, to itself and to its parts. -/
def names (type : TypeDefinition) : List String :=
  type.name :: ((type.fields?.getD []).flatMap (fun field =>
    field.name :: field.arguments.map Argument.name) ++
      (type.inputFields?.getD []).map Argument.name ++ type.values?.getD [])

/-- What holds of all types that a definition mentions holds of those of its parts. -/
theorem forall_references {P : GraphType → Prop} (type : TypeDefinition)
    (h : ∀ mentioned ∈ type.references, P mentioned) :
    (∀ field ∈ type.fields?.getD [], ∀ mentioned ∈ field.references, P mentioned) ∧
      (∀ field ∈ type.inputFields?.getD [], P field.type) ∧
      (∀ ref ∈ type.interfaces?.getD [], P (.named .interface ref)) ∧
      ∀ ref ∈ type.possibleTypes?.getD [], P (.named .object ref) := by
  cases type with
  | scalar | enum => exact ⟨nofun, nofun, nofun, nofun⟩
  | object type =>
      rcases List.forall_mem_append.1 h with ⟨h, -⟩
      rcases List.forall_mem_append.1 h with ⟨hfields, hinterfaces⟩
      exact ⟨fun field hfield mentioned hmem =>
        hfields mentioned (List.mem_flatMap.2 ⟨field, hfield, hmem⟩), nofun,
        List.forall_mem_map.1 hinterfaces, nofun⟩
  | interface type =>
      rcases List.forall_mem_append.1 h with ⟨h, hpossible⟩
      rcases List.forall_mem_append.1 h with ⟨hfields, hinterfaces⟩
      exact ⟨fun field hfield mentioned hmem =>
        hfields mentioned (List.mem_flatMap.2 ⟨field, hfield, hmem⟩), nofun,
        List.forall_mem_map.1 hinterfaces, List.forall_mem_map.1 hpossible⟩
  | union type => exact ⟨nofun, nofun, nofun, List.forall_mem_map.1 h⟩
  | inputObject type => exact ⟨nofun, List.forall_mem_map.1 h, nofun, nofun⟩

end TypeDefinition

/-- All names that a schema gives are names of the language. -/
def Schema.WellNamed (s : Schema) : Prop :=
  ∀ type ∈ s.types, ∀ name ∈ type.names, Name.valid name = true

namespace Introspection

/-! ## Answers -/

def kindName : TypeKind → String
  | .scalar => "SCALAR"
  | .object => "OBJECT"
  | .interface => "INTERFACE"
  | .union => "UNION"
  | .enum => "ENUM"
  | .inputObject => "INPUT_OBJECT"

/-- A type as a chain of its wrappers. -/
def typeJson : GraphType → Json
  | .named kind type =>
      .object [("kind", .string (kindName kind)), ("name", .string type.name), ("ofType", .null)]
  | .list item => .object [("kind", .string "LIST"), ("name", .null), ("ofType", typeJson item)]
  | .nonNull type =>
      .object [("kind", .string "NON_NULL"), ("name", .null), ("ofType", typeJson type)]

def nameJson (name : String) : Json := .object [("name", .string name)]

def argumentJson (argument : Argument) : Json :=
  .object [("name", .string argument.name), ("type", typeJson argument.type)]

def fieldJson (field : Field) : Json :=
  .object [("name", .string field.name), ("args", .array (field.arguments.map argumentJson)),
    ("type", typeJson field.type)]

/-- A list that types of other kinds do not have is null. -/
def listJson {α : Type} (encode : α → Json) : Option (List α) → Json
  | some items => .array (items.map encode)
  | none => .null

/-- What a server says of a type. The unions that an object belongs to are not said. -/
def definitionJson (type : TypeDefinition) : Json :=
  .object [("kind", .string (kindName type.kind)), ("name", .string type.name),
    ("fields", listJson fieldJson type.fields?),
    ("inputFields", listJson argumentJson type.inputFields?),
    ("interfaces", listJson (fun ref => typeJson (.named .interface ref)) type.interfaces?),
    ("enumValues", listJson nameJson type.values?),
    ("possibleTypes", listJson (fun ref => typeJson (.named .object ref)) type.possibleTypes?)]

/-- What a server says of a schema, with the types that it lists. -/
def schemaJson (types : List TypeDefinition) (queryType : TypeRef) : Json :=
  .object [("queryType", nameJson queryType.name), ("types", .array (types.map definitionJson))]

/-- The data of the answer to an introspection query. -/
def answer (types : List TypeDefinition) (queryType : TypeRef) : Json :=
  .object [("__schema", schemaJson types queryType)]

/-! ## Reading -/

def typeNode : GraphType → TypeNode
  | .named kind type => .node (.definition kind) (some type.name) none
  | .list item => .node .list none (some (typeNode item))
  | .nonNull type => .node .nonNull none (some (typeNode type))

def inputRecord (argument : Argument) : InputRecord :=
  ⟨argument.name, typeNode argument.type⟩

def fieldRecord (field : Field) : FieldRecord :=
  ⟨field.name, field.arguments.map inputRecord, typeNode field.type⟩

/-- What is read of a type. -/
def definitionRecord (type : TypeDefinition) : TypeRecord where
  kind := .definition type.kind
  name := type.name
  fields := (type.fields?.getD []).map fieldRecord
  inputFields := (type.inputFields?.getD []).map inputRecord
  interfaces := (type.interfaces?.getD []).map fun ref => typeNode (.named .interface ref)
  enumValues := type.values?.getD []
  possibleTypes := (type.possibleTypes?.getD []).map fun ref => typeNode (.named .object ref)

@[simp]
theorem kindNamed?_kindName (kind : TypeKind) :
    kindNamed? (kindName kind) = some (.definition kind) := by
  cases kind <;> rfl

@[simp]
theorem isNull_typeJson (type : GraphType) : (typeJson type).isNull = false := by
  cases type <;> rfl

@[simp]
theorem readTypeNode_typeJson (type : GraphType) :
    readTypeNode (typeJson type) = some (typeNode type) := by
  induction type with
  | named kind ref =>
      simp [typeJson, typeNode, readTypeNode, readOfType, Json.lookup, readKind, readNodeName,
        readString, Json.isNull]
  | list item ih =>
      simp [typeJson, typeNode, readTypeNode, readOfType, Json.lookup, readKind, readNodeName,
        kindNamed?, ih]
  | nonNull type ih =>
      simp [typeJson, typeNode, readTypeNode, readOfType, Json.lookup, readKind, readNodeName,
        kindNamed?, ih]

section Lists

variable {α β : Type} {encode : α → Json} {read : Json → Option β} {record : α → β}

theorem readList_map (h : ∀ x, read (encode x) = some (record x)) (xs : List α) :
    readList read (.array (xs.map encode)) = some (xs.map record) := by
  unfold readList
  induction xs with
  | nil => rfl
  | cons x xs ih => simp [h, ih]

theorem listOrNull_listJson (h : ∀ x, read (encode x) = some (record x))
    (xs : Option (List α)) :
    (Slot.given (listJson encode xs)).listOrNull (readList read) =
      some ((xs.getD []).map record) := by
  cases xs with
  | none => rfl
  | some xs => exact readList_map h xs

end Lists

@[simp]
theorem readNamed_nameJson (name : String) : readNamed (nameJson name) = some name := rfl

theorem readInput_argumentJson (argument : Argument) :
    readInput (argumentJson argument) = some (inputRecord argument) := by
  simp [readInput, argumentJson, inputRecord, record?, Record.slot, Json.lookup, Slot.required,
    readString]

theorem readField_fieldJson (field : Field) :
    readField (fieldJson field) = some (fieldRecord field) := by
  simp [readField, fieldJson, fieldRecord, record?, Record.slot, Json.lookup, Slot.required,
    Slot.listOrNone, readString, readList_map readInput_argumentJson]

theorem readType_definitionJson (type : TypeDefinition) :
    readType (definitionJson type) = some (definitionRecord type) := by
  simp [readType, definitionJson, definitionRecord, record?, Record.slot, Json.lookup,
    Slot.required, readString, readKind, listOrNull_listJson readField_fieldJson,
    listOrNull_listJson readInput_argumentJson, listOrNull_listJson readNamed_nameJson,
    listOrNull_listJson fun ref => readTypeNode_typeJson (.named .interface ref),
    listOrNull_listJson fun ref => readTypeNode_typeJson (.named .object ref)]

theorem readSchema_schemaJson (types : List TypeDefinition) (queryType : TypeRef) :
    readSchema (schemaJson types queryType) =
      some ⟨some queryType.name, types.map definitionRecord⟩ := by
  have hname : (Slot.given (nameJson queryType.name)).optional readNamed =
      some (some queryType.name) := rfl
  simp [readSchema, schemaJson, record?, Record.slot, Json.lookup, Slot.required, hname,
    readList_map readType_definitionJson]

/-- The answer is read alike where it comes with the response around it and where it does not. -/
theorem readResult_answer (types : List TypeDefinition) (queryType : TypeRef) :
    readResult (answer types queryType) =
        .ok ⟨some queryType.name, types.map definitionRecord⟩ ∧
      readResult (.object [("data", answer types queryType)]) =
        .ok ⟨some queryType.name, types.map definitionRecord⟩ := by
  have hschema := readSchema_schemaJson types queryType
  have hnull : (schemaJson types queryType).isNull = false := rfl
  have hanswer : answer types queryType = .object [("__schema", schemaJson types queryType)] := rfl
  constructor
  · simp [readResult, hanswer, record?, Record.slot, Json.lookup, Slot.optional, hnull, hschema]
  · simp [readResult, hanswer, record?, Record.slot, Json.lookup, Slot.optional, readData,
      Slot.required, hschema, Json.isNull]

/-! ## Declaring -/

theorem checkName_eq_ok {name : String} (h : Name.valid name = true) : checkName name = .ok name :=
  if_pos h

theorem expr_typeNode {type : GraphType} (h : Name.valid type.name = true) :
    (typeNode type).expr = .ok type.expr := by
  induction type with
  | named kind ref =>
      have hname : checkName ref.name = .ok ref.name := checkName_eq_ok h
      simp [typeNode, TypeNode.expr, GraphType.expr, hname, Except.map]
  | list item ih =>
      have hitem : (typeNode item).expr = .ok item.expr := ih h
      simp [typeNode, TypeNode.expr, GraphType.expr, hitem, Except.map]
  | nonNull type ih =>
      have htype : (typeNode type).expr = .ok type.expr := ih h
      simp [typeNode, TypeNode.expr, GraphType.expr, htype, Except.map]

theorem typeNames_eq_ok {kind : TypeKind} {refs : List TypeRef}
    (h : ∀ ref ∈ refs, Name.valid ref.name = true) :
    (refs.map fun ref => typeNode (.named kind ref)).mapM TypeNode.typeName =
      .ok (refs.map TypeRef.name) :=
  Outcome.mapM_map_eq_ok fun ref href => checkName_eq_ok (h ref href)

theorem declaration_inputRecord {argument : Argument} (hname : Name.valid argument.name = true)
    (htype : Name.valid argument.type.name = true) :
    (inputRecord argument).declaration = .ok argument.declaration :=
  Outcome.bind_eq_ok_iff.2 ⟨_, checkName_eq_ok hname,
    Outcome.bind_eq_ok_iff.2 ⟨_, expr_typeNode htype, rfl⟩⟩

theorem declaration_fieldRecord {field : Field}
    (hnames : ∀ name ∈ field.name :: field.arguments.map Argument.name, Name.valid name = true)
    (htypes : ∀ type ∈ field.references, Name.valid type.name = true) :
    (fieldRecord field).declaration = .ok field.declaration := by
  rcases List.forall_mem_cons.1 hnames with ⟨hname, hnames⟩
  rcases List.forall_mem_cons.1 htypes with ⟨htype, htypes⟩
  have harguments : (field.arguments.map inputRecord).mapM InputRecord.declaration =
      .ok (field.arguments.map Argument.declaration) :=
    Outcome.mapM_map_eq_ok fun argument hargument => declaration_inputRecord
      (hnames _ (List.mem_map_of_mem hargument)) (htypes _ (List.mem_map_of_mem hargument))
  exact Outcome.bind_eq_ok_iff.2 ⟨_, harguments, Outcome.bind_eq_ok_iff.2 ⟨_, checkName_eq_ok hname,
    Outcome.bind_eq_ok_iff.2 ⟨_, expr_typeNode htype, rfl⟩⟩⟩

/-- The record of a definition declares it, where all names are names of the language. -/
theorem declaration_definitionRecord {type : TypeDefinition}
    (hnames : ∀ name ∈ type.names, Name.valid name = true)
    (htypes : ∀ mentioned ∈ type.references, Name.valid mentioned.name = true) :
    (definitionRecord type).declaration type.kind = .ok type.declaration := by
  have hbelow := (List.forall_mem_cons.1 hnames).2
  rcases List.forall_mem_append.1 hbelow with ⟨hbelow, hvalues⟩
  rcases List.forall_mem_append.1 hbelow with ⟨hfields, hinputs⟩
  rcases type.forall_references htypes with ⟨hfieldTypes, hinputTypes, hinterfaces, hpossible⟩
  have hdeclaredFields : ((type.fields?.getD []).map fieldRecord).mapM FieldRecord.declaration =
      .ok ((type.fields?.getD []).map Field.declaration) :=
    Outcome.mapM_map_eq_ok fun field hfield => declaration_fieldRecord
      (fun name hname => hfields name (List.mem_flatMap.2 ⟨field, hfield, hname⟩))
      (hfieldTypes field hfield)
  have hdeclaredInputs :
      ((type.inputFields?.getD []).map inputRecord).mapM InputRecord.declaration =
        .ok ((type.inputFields?.getD []).map Argument.declaration) :=
    Outcome.mapM_map_eq_ok fun argument hargument => declaration_inputRecord
      (hinputs _ (List.mem_map_of_mem hargument)) (hinputTypes argument hargument)
  have hcheckedValues : (type.values?.getD []).mapM checkName = .ok (type.values?.getD []) := by
    simpa using Outcome.mapM_map_eq_ok (f := checkName) (g := id) (k := id)
      fun name hname => checkName_eq_ok (hvalues name hname)
  refine Outcome.bind_eq_ok_iff.2 ⟨_, hdeclaredFields, Outcome.bind_eq_ok_iff.2
    ⟨_, hdeclaredInputs, Outcome.bind_eq_ok_iff.2 ⟨_, typeNames_eq_ok hinterfaces,
      Outcome.bind_eq_ok_iff.2 ⟨_, hcheckedValues, ?_⟩⟩⟩⟩
  -- Possible types are read for unions only: interfaces learn theirs from the objects.
  cases type with
  | union type => exact Outcome.bind_eq_ok_iff.2 ⟨_, typeNames_eq_ok hpossible, rfl⟩
  | scalar | enum => rfl
  | object | interface =>
      refine Outcome.bind_eq_ok_iff.2 ⟨[], rfl, ?_⟩
      simp [TypeDefinition.kind, TypeDefinition.declaration, definitionRecord, TypeDefinition.name,
        TypeDefinition.fields?, TypeDefinition.inputFields?, TypeDefinition.interfaces?, pure,
        Except.pure]
  | inputObject =>
      refine Outcome.bind_eq_ok_iff.2 ⟨[], rfl, ?_⟩
      simp [TypeDefinition.kind, TypeDefinition.declaration, definitionRecord, TypeDefinition.name,
        TypeDefinition.fields?, TypeDefinition.inputFields?, Argument.declaration,
        Function.comp_def, pure, Except.pure]

theorem declareType_definitionRecord {type : TypeDefinition} {d : Declarations}
    (hown : Name.reserved type.name = false) (hnames : ∀ name ∈ type.names, Name.valid name = true)
    (htypes : ∀ mentioned ∈ type.references, Name.valid mentioned.name = true)
    (hfree : type.name ∉ d.types.map TypeDeclaration.name) :
    ∃ next, declareType d (definitionRecord type) = .ok next ∧
      next.types = d.types ++ [type.declaration] ∧ next.queryType = d.queryType := by
  have hname : checkName type.name = .ok type.name :=
    checkName_eq_ok (List.forall_mem_cons.1 hnames).1
  have hdeclaration := declaration_definitionRecord hnames htypes
  obtain ⟨next, hadd, htypesNext, hquery⟩ : ∃ next, d.add type.declaration = .ok next ∧
      next.types = d.types ++ [type.declaration] ∧ next.queryType = d.queryType := by
    have hnew : type.declaration.name ∉ d.types.map TypeDeclaration.name := by
      rw [TypeDefinition.declaration_name]
      exact hfree
    exact ⟨_, dif_neg hnew, rfl, rfl⟩
  refine ⟨next, ?_, htypesNext, hquery⟩
  have hreserved : ¬ Name.reserved (definitionRecord type).name = true := by
    simp [definitionRecord, hown]
  unfold declareType
  rw [if_neg hreserved]
  refine Outcome.bind_eq_ok_iff.2 ⟨type.name, hname, ?_⟩
  rw [if_neg hfree]
  exact Outcome.bind_eq_ok_iff.2 ⟨_, hdeclaration, hadd⟩

/-- One after the other, the types of an answer are declared, but for those of the introspection
system. -/
theorem declareAll_definitionRecords {types : List TypeDefinition} {d : Declarations}
    (hvalid : ∀ type ∈ types, Name.reserved type.name = false →
      (∀ name ∈ type.names, Name.valid name = true) ∧
        ∀ mentioned ∈ type.references, Name.valid mentioned.name = true)
    (hdistinct : (d.types.map TypeDeclaration.name ++
      (types.filter fun type => !Name.reserved type.name).map TypeDefinition.name).Nodup) :
    ∃ last, (types.map definitionRecord).foldlM declareType d = .ok last ∧
      last.types = d.types ++
        (types.filter fun type => !Name.reserved type.name).map TypeDefinition.declaration ∧
      last.queryType = d.queryType := by
  induction types generalizing d with
  | nil => exact ⟨d, rfl, by simp, rfl⟩
  | cons type rest ih =>
      rcases List.forall_mem_cons.1 hvalid with ⟨hfirst, hrest⟩
      rw [List.map_cons, List.foldlM_cons]
      by_cases hreserved : Name.reserved type.name = true
      · -- The type is passed over.
        have hskip : declareType d (definitionRecord type) = .ok d := if_pos hreserved
        rw [List.filter_cons_of_neg (by simp [hreserved])] at hdistinct ⊢
        rcases ih hrest hdistinct with ⟨last, hlast, htypes, hquery⟩
        exact ⟨last, Outcome.bind_eq_ok_iff.2 ⟨d, hskip, hlast⟩, htypes, hquery⟩
      · have hown : Name.reserved type.name = false := Bool.eq_false_iff.2 hreserved
        rcases hfirst hown with ⟨hnames, hreferences⟩
        rw [List.filter_cons_of_pos (by simp [hown]), List.map_cons] at hdistinct ⊢
        have hfree : type.name ∉ d.types.map TypeDeclaration.name := by
          rw [List.nodup_append] at hdistinct
          exact fun hmem => hdistinct.2.2 _ hmem _ List.mem_cons_self rfl
        obtain ⟨next, hnext, hnextTypes, hnextQuery⟩ : ∃ next,
            declareType d (definitionRecord type) = .ok next ∧
              next.types = d.types ++ [type.declaration] ∧ next.queryType = d.queryType :=
          declareType_definitionRecord hown hnames hreferences hfree
        have hdistinctNext : (next.types.map TypeDeclaration.name ++
            (rest.filter fun type => !Name.reserved type.name).map
              TypeDefinition.name).Nodup := by
          simpa [hnextTypes] using hdistinct
        rcases ih hrest hdistinctNext with ⟨last, hlast, htypes, hquery⟩
        refine ⟨last, Outcome.bind_eq_ok_iff.2 ⟨next, hnext, hlast⟩, ?_, hquery.trans hnextQuery⟩
        simp [htypes, hnextTypes]

end Introspection

/-! ## Schemas -/

/-- In a built schema, whose names are all names of the language, so are those that it mentions. -/
theorem Schema.WellNamed.references {s : Schema} (hnames : s.WellNamed)
    (hpoints : ∀ type ∈ s.references, s.PointsAt type) :
    ∀ type ∈ s.references, Name.valid type.name = true := by
  intro type htype
  rcases hpoints type htype with ⟨definition, hdefinition, hname, -⟩
  rw [← hname]
  exact hnames definition (List.mem_of_getElem? hdefinition) _ List.mem_cons_self

/-- Reading what a server says of a built schema gives the schema back: its types in their order,
with all their fields, arguments, lists and wrappers, and its root. It makes no difference whether
the response is around the data, and which types of the introspection system are listed. -/
theorem Schema.ofIntrospection_answer {d : Declarations} {s : Schema}
    {listed : List TypeDefinition} (h : d.build = .ok s) (hnames : s.WellNamed)
    (hlisted : (listed.filter fun type => !Name.reserved type.name) = s.types) :
    Schema.ofIntrospection (Introspection.answer listed s.queryType) = .ok s ∧
      Schema.ofIntrospection (.object [("data", Introspection.answer listed s.queryType)]) =
        .ok s := by
  rcases Declarations.builds_of_build h with ⟨types, htypes, b⟩
  have hreferences := hnames.references fun _ => b.pointsAt htypes
  have hvalid : ∀ type ∈ listed, Name.reserved type.name = false →
      (∀ name ∈ type.names, Name.valid name = true) ∧
        ∀ mentioned ∈ type.references, Name.valid mentioned.name = true := by
    intro type htype hown
    have hmem : type ∈ s.types := by
      rw [← hlisted]
      exact List.mem_filter.2 ⟨htype, by simp [hown]⟩
    refine ⟨hnames type hmem, fun mentioned hmentioned => hreferences mentioned ?_⟩
    exact List.mem_cons_of_mem _ (List.mem_flatMap.2 ⟨type, hmem, hmentioned⟩)
  have hdistinct : (Declarations.empty.types.map TypeDeclaration.name ++
      (listed.filter fun type => !Name.reserved type.name).map TypeDefinition.name).Nodup := by
    rw [hlisted]
    exact b.distinct
  obtain ⟨last, hlast, hlastTypes, -⟩ :=
    Introspection.declareAll_definitionRecords hvalid hdistinct
  have hquery : Introspection.checkName s.queryType.name = .ok s.queryType.name :=
    Introspection.checkName_eq_ok (hreferences _ List.mem_cons_self)
  have hdeclare : Introspection.declare
      ⟨some s.queryType.name, listed.map Introspection.definitionRecord⟩ =
        .ok (last.withQueryType s.queryType.name) :=
    Outcome.bind_eq_ok_iff.2 ⟨last, hlast, Outcome.bind_eq_ok_iff.2 ⟨_, hquery, rfl⟩⟩
  have hbuild : (last.withQueryType s.queryType.name).build = .ok s := by
    refine Declarations.rebuild h ?_ rfl
    calc (last.withQueryType s.queryType.name).types
        = Declarations.empty.types ++ (listed.filter fun type =>
            !Name.reserved type.name).map TypeDefinition.declaration := hlastTypes
      _ = s.types.map TypeDefinition.declaration := by rw [hlisted]; rfl
  rcases Introspection.readResult_answer listed s.queryType with ⟨hbare, hdata⟩
  constructor
  · simp [Schema.ofIntrospection, hbare, hdeclare, hbuild, Except.bind]
  · simp [Schema.ofIntrospection, hdata, hdeclare, hbuild, Except.bind]

/-- The catalog, with a type of the introspection system among its own. -/
theorem ofIntrospection_catalog :
    catalogDeclarations.build = .ok catalogSchema ∧
      Schema.ofIntrospection (Introspection.answer
        (.scalar "__Hidden" :: catalogSchema.types) catalogSchema.queryType) = .ok catalogSchema ∧
      Schema.ofIntrospection (.object [("data", Introspection.answer
        (.scalar "__Hidden" :: catalogSchema.types) catalogSchema.queryType)]) =
          .ok catalogSchema := by
  have hbuild : catalogDeclarations.build = .ok catalogSchema := rfl
  have hnames : catalogSchema.WellNamed := by
    unfold Schema.WellNamed
    decide
  exact ⟨hbuild, Schema.ofIntrospection_answer hbuild hnames (by rfl)⟩

end GraphQuery
