import Mathlib.Data.List.Perm.Subperm
import GraphQuery.Proofs.Schema.Rebuilding
import GraphQuery.Proofs.Selection.EntryPoint

/-!
# EntryPoint — the query field that a root is fetched through

A root that names no entry point is fetched through the only query field that returns its type and
takes just the arguments that the source of the filter lists. Where there is no such field, or more
than one, the root fails. An entry point that is named only has to return the type.

- `Schema.queryFields`, `ArgumentSource.listed` : what is chosen from, and the names that count
- `Field.Serves`, `Serving` : the fields that return a type and take just these arguments
- `Inferred`, `Compiler.entryField_eq_iff_inferred` : what comes of a root without an entry point
- `Picks`, `Named`, `Compiler.entryField_eq_iff_named` : what comes of a root with an entry point
- `Compiler.entryField_exact` : all of it, for every schema that is built
-/

set_option autoImplicit false

namespace GraphQuery

/-- The fields that queries start at. -/
def Schema.queryFields (s : Schema) : List Field :=
  (s.fields? s.queryType).getD []

/-- The names that a pending source lists, and none where there is no filter. -/
def ArgumentSource.listed : Option ArgumentSource → List String
  | none => []
  | some source => source.fields

/-! ## Fields that serve -/

/-- The field returns the type, under any wrappers, and takes just the arguments of the names. -/
structure Field.Serves (field : Field) (target : TypeRef) (names : List String) : Prop where
  returns : field.type.typeRef = target
  takes : ∀ name, name ∈ field.arguments.map Argument.name ↔ name ∈ names

/-- The fields that serve are these, in their order. -/
structure Serving (fields : List Field) (target : TypeRef) (names : List String)
    (serving : List Field) : Prop where
  inOrder : serving.Sublist fields
  mem_iff : ∀ field, field ∈ serving ↔ field ∈ fields ∧ field.Serves target names

/-- What comes of a root that names no entry point: the only field that serves, or a failure that
tells why there is none, or which ones there are. -/
inductive Inferred (fields : List Field) (target : TypeRef) (arguments : Option ArgumentSource) :
    Except CompileError Field → Prop where
  | only {field : Field} :
      Serving fields target (ArgumentSource.listed arguments) [field] →
      Inferred fields target arguments (.ok field)
  | none :
      Serving fields target (ArgumentSource.listed arguments) [] →
      Inferred fields target arguments (.error (.noEntryPoint target.name
        (arguments.map fun source => Compiler.ascending source.fields)))
  | several {first second : Field} {others : List Field} :
      Serving fields target (ArgumentSource.listed arguments) (first :: second :: others) →
      Inferred fields target arguments (.error (.ambiguousEntryPoint target.name
        ((first :: second :: others).map Field.name)))

/-- Lists without repetitions have the same elements when one has as many as the other, and all of
its elements are in the other. -/
theorem length_eq_and_subset_iff {α : Type} {xs ys : List α} (hxs : xs.Nodup) (hys : ys.Nodup) :
    (xs.length = ys.length ∧ xs ⊆ ys) ↔ ∀ a, a ∈ xs ↔ a ∈ ys := by
  rw [← List.perm_ext_iff_of_nodup hxs hys]
  constructor
  · rintro ⟨hlength, hsubset⟩
    exact (hxs.subperm hsubset).perm_of_length_le hlength.ge
  · intro hperm
    exact ⟨hperm.length_eq, hperm.subset⟩

namespace Compiler

variable {field : Field} {fields : List Field} {target : TypeRef}
  {arguments : Option ArgumentSource}

/-- As many arguments as there are names, and each of them among the names: these are two lists
without repetitions, so that they have the same elements. -/
theorem takesExactly_iff (hfield : (field.arguments.map Argument.name).Nodup) :
    takesExactly (arguments.map fun source => ascending source.fields) field = true ↔
      ∀ name, name ∈ field.arguments.map Argument.name ↔
        name ∈ ArgumentSource.listed arguments := by
  cases arguments with
  | none =>
      have hnone : (∀ name, name ∉ field.arguments.map Argument.name) ↔ field.arguments = [] := by
        rw [← List.eq_nil_iff_forall_not_mem, List.map_eq_nil_iff]
      simpa [takesExactly, ArgumentSource.listed] using hnone.symm
  | some source =>
      -- Sorted names are listed once, so that counting them compares sets.
      rcases ascending_spec source.fields with ⟨hsorted, hmem⟩
      have hnames : (ascending source.fields).Nodup := hsorted.imp fun h => ne_of_lt h
      have hsets := length_eq_and_subset_iff hfield hnames
      simp only [hmem] at hsets
      rw [ArgumentSource.listed, ← hsets]
      simp [takesExactly, List.subset_def]

theorem serves_iff (hfield : (field.arguments.map Argument.name).Nodup) :
    (decide (field.type.typeRef = target) &&
        takesExactly (arguments.map fun source => ascending source.fields) field) = true ↔
      field.Serves target (ArgumentSource.listed arguments) := by
  rw [Bool.and_eq_true, decide_eq_true_iff, takesExactly_iff hfield]
  exact ⟨fun h => ⟨h.1, h.2⟩, fun h => ⟨h.returns, h.takes⟩⟩

/-- The fields that pass the checks are those that serve. -/
theorem serving_filter (target : TypeRef) (arguments : Option ArgumentSource)
    (hfields : ∀ field ∈ fields, (field.arguments.map Argument.name).Nodup) :
    Serving fields target (ArgumentSource.listed arguments) (fields.filter fun field =>
      decide (field.type.typeRef = target) &&
        takesExactly (arguments.map fun source => ascending source.fields) field) where
  inOrder := List.filter_sublist
  mem_iff := by
    intro field
    rw [List.mem_filter]
    exact and_congr_right fun hfield => serves_iff (hfields field hfield)

end Compiler

/-- There is only one list of the fields that serve, where no field is repeated. -/
theorem Serving.unique {fields xs ys : List Field} {target : TypeRef} {names : List String}
    (hfields : fields.Nodup) (hxs : Serving fields target names xs)
    (hys : Serving fields target names ys) : xs = ys := by
  have hperm : xs.Perm ys :=
    (List.perm_ext_iff_of_nodup (hfields.sublist hxs.inOrder) (hfields.sublist hys.inOrder)).2
      fun field => (hxs.mem_iff field).trans (hys.mem_iff field).symm
  exact (hfields.perm_iff_eq_of_sublist hxs.inOrder hys.inOrder).1 hperm

/-! ## Fields that are named -/

/-- The field that a name stands for: the one with exactly this name, or else the first one that
differs in case only. -/
inductive Picks (fields : List Field) (name : String) : Field → Prop where
  | exact {field : Field} : field ∈ fields → field.name = name → Picks fields name field
  | ignoringCase {before after : List Field} {field : Field} :
      (∀ other ∈ fields, other.name ≠ name) → fields = before ++ field :: after →
      Name.sameIgnoringCase field.name name = true →
      (∀ other ∈ before, Name.sameIgnoringCase other.name name = false) → Picks fields name field

/-- What comes of a root with an entry point: the field that it stands for, if that returns the
type. -/
inductive Named (fields : List Field) (target : TypeRef) (name : String) :
    Except CompileError Field → Prop where
  | fits {field : Field} :
      Picks fields name field → field.type.typeRef = target →
      Named fields target name (.ok field)
  | fails :
      (∀ field, Picks fields name field → field.type.typeRef ≠ target) →
      Named fields target name (.error (.invalidEntryPoint name target.name))

/-- Where the fields of a type have distinct names, look-up finds what the name stands for. -/
theorem findField?_eq_some_iff {s : Schema} {owner : TypeRef} {fields : List Field}
    {name : String} {field : Field} (hfields : s.fields? owner = some fields)
    (hnames : (fields.map Field.name).Nodup) :
    s.findField? owner name = some field ↔ Picks fields name field := by
  have hexact := Keyed.find?_eq_some_iff (k := name) (x := field) hnames
  simp only [Schema.findField?, hfields, Option.bind_eq_bind, Option.bind_some,
    Option.orElse_eq_orElse, Option.orElse_eq_or, Option.or_eq_some_iff, hexact,
    Keyed.find?_eq_none_iff, List.find?_eq_some_iff_append]
  -- Both sides have a case for the exact name and one for names that differ in case.
  constructor
  · rintro (⟨hfield, hname⟩ | ⟨hnone, hsame, before, after, heq, hbefore⟩)
    · exact .exact hfield hname
    · exact .ignoringCase hnone heq hsame (by simpa using hbefore)
  · intro h
    cases h with
    | exact hfield hname => exact .inl ⟨hfield, hname⟩
    | @ignoringCase before after _ hnone heq hsame hbefore =>
        exact .inr ⟨hnone, hsame, before, after, heq, by simpa using hbefore⟩

/-! ## Roots -/

namespace Declarations

variable {d : Declarations} {s : Schema}

/-- The fields that queries on a built schema start at: those of an object type, of distinct names,
and no argument of one is repeated. -/
theorem queryFields_of_build (h : d.build = .ok s) :
    s.fields? s.queryType = some s.queryFields ∧ (s.queryFields.map Field.name).Nodup ∧
      ∀ field ∈ s.queryFields, (field.arguments.map Argument.name).Nodup := by
  have hconsistent := consistent_of_build h
  obtain ⟨root, hroot⟩ := hconsistent.query.definition
  have hfields : s.fields? s.queryType = some s.queryFields := by
    simp [Schema.queryFields, Schema.fields?, hroot, TypeDefinition.fields?]
  exact ⟨hfields, hconsistent.fieldNames hfields, distinct_arguments h hfields⟩

end Declarations

namespace Compiler

variable {c : Compiler} {d : Declarations} {type : GraphType}
  {result : Except CompileError Field}

/-- A root without an entry point goes through the fields that pass the checks: there is none of
them, just one, or more. -/
theorem entryField_eq_iff_inferred (hd : d.build = .ok c.schema)
    (arguments : Option ArgumentSource) :
    c.entryField type none arguments = result ↔
      Inferred c.schema.queryFields type.typeRef arguments result := by
  rcases Declarations.queryFields_of_build hd with ⟨-, hnames, harguments⟩
  have hserving := serving_filter type.typeRef arguments harguments
  have hfields : c.schema.queryFields.Nodup := .of_map _ hnames
  unfold entryField
  dsimp only
  rw [← Schema.queryFields]
  generalize c.schema.queryFields.filter _ = candidates at hserving ⊢
  constructor
  · rintro rfl
    rcases candidates with _ | ⟨first, _ | ⟨second, others⟩⟩
    · exact .none hserving
    · exact .only hserving
    · exact .several hserving
  · -- The fields that serve are the candidates, whichever list tells them.
    intro h
    cases h with
    | only h | none h | several h => rw [hserving.unique hfields h]

/-- A root with an entry point goes through the field that this stands for, whatever the source
provides. -/
theorem entryField_eq_iff_named (hd : d.build = .ok c.schema) (name : String)
    (arguments : Option ArgumentSource) :
    c.entryField type (some name) arguments = result ↔
      Named c.schema.queryFields type.typeRef name result := by
  rcases Declarations.queryFields_of_build hd with ⟨hfields, hnames, -⟩
  have hpicks : ∀ field, c.schema.findField? c.schema.queryType name = some field ↔
      Picks c.schema.queryFields name field := fun _ => findField?_eq_some_iff hfields hnames
  constructor
  · rintro rfl
    unfold entryField
    dsimp only
    split
    · next found hfound =>
        split
        · next htype => exact .fits ((hpicks found).1 hfound) htype
        · next htype =>
            -- The name stands for no other field.
            refine .fails fun field hfield => ?_
            cases hfound.symm.trans ((hpicks field).2 hfield)
            exact htype
    · next hnone =>
        refine .fails fun field hfield => ?_
        cases hnone.symm.trans ((hpicks field).2 hfield)
  · intro h
    cases h with
    | fits hfield htype => simp [entryField, (hpicks _).2 hfield, htype]
    | fails hother =>
        unfold entryField
        dsimp only
        split
        · next found hfound => exact if_neg (hother found ((hpicks found).1 hfound))
        · rfl

/-- Whatever the schema is that is built, whatever the type and the pending source are: without an
entry point a root is fetched through the only field that serves, fails with no entry point where no
field serves, and with all that serve, in their order, where several do. Neither the order nor the
repetition of the names of a source counts. With an entry point it is fetched through the field that
this stands for just where that returns the type. -/
theorem entryField_exact (hd : d.build = .ok c.schema) (type : GraphType) :
    (∀ arguments result, c.entryField type none arguments = result ↔
        Inferred c.schema.queryFields type.typeRef arguments result) ∧
      (∀ source other : ArgumentSource, (∀ name, name ∈ source.fields ↔ name ∈ other.fields) →
        c.entryField type none (some source) = c.entryField type none (some other)) ∧
      ∀ name arguments result, c.entryField type (some name) arguments = result ↔
        Named c.schema.queryFields type.typeRef name result :=
  ⟨fun arguments _ => entryField_eq_iff_inferred hd arguments,
    fun _ _ h => c.entryField_congr type none h,
    fun name arguments _ => entryField_eq_iff_named hd name arguments⟩

/-! ## A gallery -/

/-- Drawings can be queried in four ways, two of which take no arguments. -/
def galleryDeclarations : Declarations where
  types := [
    .scalar "ID",
    .object "Drawing" [⟨"id", .named "ID", []⟩] [],
    .object "Query" [
      ⟨"drawing", .named "Drawing", [⟨"id", .named "ID"⟩]⟩,
      ⟨"latest", .named "Drawing", []⟩,
      ⟨"drawings", .list (.named "Drawing"), [⟨"id", .named "ID"⟩, ⟨"author", .named "ID"⟩]⟩,
      ⟨"Random", .nonNull (.named "Drawing"), []⟩,
      ⟨"author", .named "ID", []⟩] []]
  queryType := none
  distinct := by decide

def galleryCompiler : Compiler where
  schema := (galleryDeclarations.build.toOption).getD ⟨[], ⟨0, "Query"⟩⟩
  naming := Naming.identity
  configuration := Configuration.standard

def drawingType : GraphType := .named .object ⟨1, "Drawing"⟩

/-- A source that lists names and has no values. -/
def listing (names : List String) : ArgumentSource := ⟨0, names, fun _ => none⟩

/-- The names decide, whatever their order and however often they are listed. Too few of them fit no
field, and none of them fit two. -/
theorem entryField_gallery :
    (∃ field, field.name = "drawings" ∧
      galleryCompiler.entryField drawingType none (some (listing ["id", "author"])) = .ok field ∧
      galleryCompiler.entryField drawingType none (some (listing ["author", "id", "author"])) =
        .ok field ∧
      Serving galleryCompiler.schema.queryFields ⟨1, "Drawing"⟩ ["id", "author"] [field]) ∧
    (∀ field ∈ galleryCompiler.schema.queryFields, ¬ field.Serves ⟨1, "Drawing"⟩ ["author"]) ∧
    galleryCompiler.entryField drawingType none none =
      .error (.ambiguousEntryPoint "Drawing" ["latest", "Random"]) ∧
    (∃ field, Picks galleryCompiler.schema.queryFields "random" field ∧
      galleryCompiler.entryField drawingType (some "random") (some (listing ["id"])) = .ok field) ∧
    ¬ ∃ field, galleryCompiler.entryField drawingType (some "author") none = .ok field := by
  have hbuild : galleryDeclarations.build = .ok galleryCompiler.schema := rfl
  rcases entryField_exact hbuild drawingType with ⟨hinferred, hsame, hnamed⟩
  refine ⟨?_, ?_, by decide, ?_, ?_⟩
  · obtain ⟨field, hfield, hname⟩ : ∃ field,
        galleryCompiler.entryField drawingType none (some (listing ["id", "author"])) = .ok field ∧
          field.name = "drawings" := ⟨_, rfl, rfl⟩
    have hnames : ∀ name, name ∈ ["author", "id", "author"] ↔ name ∈ ["id", "author"] := by
      intro name
      simp [or_comm]
    cases (hinferred _ _).1 hfield with
    | only hserving =>
        exact ⟨field, hname, hfield, (hsame (listing _) (listing _) hnames).trans hfield, hserving⟩
  · have hfails : galleryCompiler.entryField drawingType none (some (listing ["author"])) =
        .error (.noEntryPoint "Drawing" (some ["author"])) := by decide
    cases (hinferred _ _).1 hfails with
    | none hserving =>
        intro field hfield hserves
        cases (hserving.mem_iff field).2 ⟨hfield, hserves⟩
  · obtain ⟨field, hfield⟩ : ∃ field,
        galleryCompiler.entryField drawingType (some "random") (some (listing ["id"])) =
          .ok field := ⟨_, rfl⟩
    cases (hnamed _ _ _).1 hfield with
    | fits hpicks _ => exact ⟨field, hpicks, hfield⟩
  · rintro ⟨field, hfield⟩
    have hfails : galleryCompiler.entryField drawingType (some "author") none =
        .error (.invalidEntryPoint "author" "Drawing") := by decide
    cases hfield.symm.trans hfails

end Compiler

end GraphQuery
