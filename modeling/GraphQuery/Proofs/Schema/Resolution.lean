import GraphQuery.Proofs.Schema.Consistency

/-!
# Schema.Resolution — which declarations can be built, and the first fault of all others

Building resolves the names that declarations refer to, one after another, and stops at the first
one that is not declared, or is not declared as what its place asks for. The root of queries comes
last.

- `Declarations.Declares`, `Declarations.DeclaresAs` : names that are declared
- `Declarations.Resolvable` : declarations that refer to nothing but what is declared
- `Reference`, `Declarations.references` : the names that are referred to, in the order of building
- `Declarations.Resolves`, `Declarations.Faulty` : references that hold, and why others do not
- `Declarations.checks_define` : what building checks
- `Declarations.build_exact` : building succeeds for what is resolvable, and reports the first fault
  of all else
-/

set_option autoImplicit false

namespace GraphQuery

/-- A name that a declaration refers to. Where interfaces and members are listed, what it names has
to be of a certain kind. -/
structure Reference where
  /-- The type whose declaration holds the reference. -/
  owner : String
  name : String
  expected : Option TypeKind
  deriving DecidableEq, Repr

namespace Reference

/-- Under the wrappers of a type. -/
def ofType (owner : String) (type : TypeExpr) : Reference := ⟨owner, type.name, none⟩

def ofKind (owner : String) (kind : TypeKind) (name : String) : Reference :=
  ⟨owner, name, some kind⟩

end Reference

/-! ## What is declared -/

namespace FieldDeclaration

/-- The arguments come before the type of the field itself. -/
def references (owner : String) (field : FieldDeclaration) : List Reference :=
  field.arguments.map (fun argument => .ofType owner argument.type) ++ [.ofType owner field.type]

theorem forall_references {P : Reference → Prop} {owner : String} {field : FieldDeclaration} :
    (∀ r ∈ field.references owner, P r) ↔
      (∀ argument ∈ field.arguments, P (.ofType owner argument.type)) ∧
        P (.ofType owner field.type) := by
  simp only [references, List.forall_mem_append, List.forall_mem_map, List.forall_mem_singleton]

end FieldDeclaration

namespace TypeDeclaration

/-- Fields of objects and interfaces. -/
def fields : TypeDeclaration → List FieldDeclaration
  | .object _ fields _ | .interface _ fields _ => fields
  | _ => []

def inputFields : TypeDeclaration → List ArgumentDeclaration
  | .inputObject _ fields => fields
  | _ => []

/-- The names of the interfaces that an object or interface implements. -/
def interfaces : TypeDeclaration → List String
  | .object _ _ interfaces | .interface _ _ interfaces => interfaces
  | _ => []

/-- The names of the members of a union. -/
def members : TypeDeclaration → List String
  | .union _ members => members
  | _ => []

/-- What a declaration refers to, field by field, and then its interfaces. -/
def references : TypeDeclaration → List Reference
  | .scalar _ | .enum _ _ => []
  | .object name fields interfaces | .interface name fields interfaces =>
      fields.flatMap (FieldDeclaration.references name) ++
        interfaces.map (.ofKind name .interface)
  | .union name members => members.map (.ofKind name .object)
  | .inputObject name fields => fields.map fun field => .ofType name field.type

/-- The references of a declaration are those of its parts. -/
theorem forall_references {P : Reference → Prop} {type : TypeDeclaration} :
    (∀ r ∈ type.references, P r) ↔
      (∀ field ∈ type.fields, (∀ argument ∈ field.arguments, P (.ofType type.name argument.type)) ∧
        P (.ofType type.name field.type)) ∧
      (∀ field ∈ type.inputFields, P (.ofType type.name field.type)) ∧
      (∀ name ∈ type.interfaces, P (.ofKind type.name .interface name)) ∧
      ∀ name ∈ type.members, P (.ofKind type.name .object name) := by
  cases type with
  | object name fields interfaces | interface name fields interfaces =>
      simp only [references, List.forall_mem_append, List.forall_mem_flatMap, List.forall_mem_map,
        FieldDeclaration.forall_references]
      simp [TypeDeclaration.fields, inputFields, TypeDeclaration.interfaces, members,
        TypeDeclaration.name]
  | _ =>
      simp [references, TypeDeclaration.fields, inputFields, TypeDeclaration.interfaces,
        TypeDeclaration.members, TypeDeclaration.name]

end TypeDeclaration

namespace Declarations

variable {d : Declarations} {name owner : String} {kind : TypeKind} {r : Reference}
  {e : SchemaError}

def Declares (d : Declarations) (name : String) : Prop :=
  ∃ type ∈ d.types, type.name = name

def DeclaresAs (d : Declarations) (kind : TypeKind) (name : String) : Prop :=
  ∃ type ∈ d.types, type.name = name ∧ type.kind = kind

/-- The name of the type that queries start at. -/
def rootName (d : Declarations) : String := d.queryType.getD "Query"

/-- Under the wrappers of all types are declared names, interfaces are implemented, objects are
members of unions, and queries start at an object. -/
structure Resolvable (d : Declarations) : Prop where
  fields : ∀ type ∈ d.types, ∀ field ∈ type.fields, d.Declares field.type.name
  arguments : ∀ type ∈ d.types, ∀ field ∈ type.fields, ∀ argument ∈ field.arguments,
    d.Declares argument.type.name
  inputFields : ∀ type ∈ d.types, ∀ field ∈ type.inputFields, d.Declares field.type.name
  interfaces : ∀ type ∈ d.types, ∀ name ∈ type.interfaces, d.DeclaresAs .interface name
  members : ∀ type ∈ d.types, ∀ name ∈ type.members, d.DeclaresAs .object name
  query : d.DeclaresAs .object d.rootName

/-! ## References -/

/-- What is referred to, in the order of the declarations. -/
def references (d : Declarations) : List Reference :=
  d.types.flatMap TypeDeclaration.references

/-- The name of a reference is declared, and as what is asked for. -/
def Resolves (d : Declarations) (r : Reference) : Prop :=
  d.Declares r.name ∧ ∀ kind, r.expected = some kind → d.DeclaresAs kind r.name

/-- What is wrong with a reference. -/
inductive Faulty (d : Declarations) (r : Reference) : SchemaError → Prop where
  | undeclared : ¬ d.Declares r.name → Faulty d r (.unresolvedType r.name r.owner)
  | otherKind {kind : TypeKind} : d.Declares r.name → r.expected = some kind →
      ¬ d.DeclaresAs kind r.name → Faulty d r (.invalidReference r.name r.owner kind)

/-- What is wrong first: a reference behind others that resolve, or else the root of queries. -/
inductive FirstFault (d : Declarations) : SchemaError → Prop where
  | reference {before after : List Reference} {r : Reference} {e : SchemaError} :
      d.references = before ++ r :: after → (∀ earlier ∈ before, d.Resolves earlier) →
      d.Faulty r e → FirstFault d e
  | query : (∀ r ∈ d.references, d.Resolves r) → ¬ d.DeclaresAs .object d.rootName →
      FirstFault d .missingQueryType

theorem DeclaresAs.declares (h : d.DeclaresAs kind name) : d.Declares name := by
  rcases h with ⟨type, htype, hname, -⟩
  exact ⟨type, htype, hname⟩

theorem resolves_ofType {type : TypeExpr} :
    d.Resolves (.ofType owner type) ↔ d.Declares type.name := by
  simp [Resolves, Reference.ofType]

theorem resolves_ofKind : d.Resolves (.ofKind owner kind name) ↔ d.DeclaresAs kind name := by
  simp only [Resolves, Reference.ofKind, Option.some.injEq, forall_eq']
  exact and_iff_right_of_imp DeclaresAs.declares

theorem resolvable_iff :
    d.Resolvable ↔ (∀ r ∈ d.references, d.Resolves r) ∧ d.DeclaresAs .object d.rootName := by
  simp only [references, List.forall_mem_flatMap, TypeDeclaration.forall_references,
    resolves_ofType, resolves_ofKind]
  constructor
  · intro h
    refine ⟨fun type htype => ⟨fun field hfield => ⟨?_, ?_⟩, ?_, ?_, ?_⟩, h.query⟩
    · exact h.arguments type htype field hfield
    · exact h.fields type htype field hfield
    · exact h.inputFields type htype
    · exact h.interfaces type htype
    · exact h.members type htype
  · rintro ⟨h, hquery⟩
    exact {
      fields := fun type htype field hfield => ((h type htype).1 field hfield).2
      arguments := fun type htype field hfield => ((h type htype).1 field hfield).1
      inputFields := fun type htype => (h type htype).2.1
      interfaces := fun type htype => (h type htype).2.2.1
      members := fun type htype => (h type htype).2.2.2
      query := hquery }

/-! ## Faults -/

/-- The fault that building finds with a reference. -/
def fault? (d : Declarations) (r : Reference) : Option SchemaError :=
  match d.find? r.name, r.expected with
  | none, _ => some (.unresolvedType r.name r.owner)
  | some _, none => none
  | some (kind, _), some expected =>
      if kind = expected then none else some (.invalidReference r.name r.owner expected)

theorem declaresAs_iff : d.DeclaresAs kind name ↔ ∃ ref, d.find? name = some (kind, ref) := by
  constructor
  · rintro ⟨type, htype, hname, hkind⟩
    rcases List.mem_iff_getElem?.1 htype with ⟨i, hi⟩
    exact ⟨⟨i, name⟩, find?_eq_some_iff.2 ⟨rfl, type, hi, hname, hkind⟩⟩
  · rintro ⟨ref, hfind⟩
    rcases find?_eq_some_iff.1 hfind with ⟨-, type, htype, hname, hkind⟩
    exact ⟨type, List.mem_of_getElem? htype, hname, hkind⟩

/-- A name is declared as the one kind that is found for it. -/
theorem declaresAs_iff_of_find? {found : TypeKind} {ref : TypeRef}
    (h : d.find? name = some (found, ref)) : d.DeclaresAs kind name ↔ found = kind := by
  rw [declaresAs_iff, h]
  simp

theorem declares_of_find? {found : TypeKind} {ref : TypeRef}
    (h : d.find? name = some (found, ref)) : d.Declares name :=
  (declaresAs_iff.2 ⟨ref, h⟩).declares

theorem not_declares_of_find? (h : d.find? name = none) : ¬ d.Declares name := by
  rintro ⟨type, htype, hname⟩
  rcases declaresAs_iff.1 ⟨type, htype, hname, rfl⟩ with ⟨ref, hfind⟩
  rw [h] at hfind
  cases hfind

theorem fault?_eq_some_iff : d.fault? r = some e ↔ d.Faulty r e := by
  unfold fault?
  constructor
  · intro h
    split at h
    · next hfind =>
        cases h
        exact .undeclared (not_declares_of_find? hfind)
    · cases h
    · next found ref expected hfind hexpected =>
        split at h
        · cases h
        · next hkind =>
            cases h
            refine .otherKind (declares_of_find? hfind) hexpected ?_
            rwa [declaresAs_iff_of_find? hfind]
  · intro h
    cases h with
    | undeclared hname =>
        cases hfind : d.find? r.name with
        | none => rfl
        | some found => exact absurd (declares_of_find? hfind) hname
    | @otherKind kind hname hexpected hkind =>
        cases hfind : d.find? r.name with
        | none => exact absurd hname (not_declares_of_find? hfind)
        | some found =>
            rw [declaresAs_iff_of_find? hfind] at hkind
            simp [hexpected, hkind]

/-- Either a reference resolves or something is wrong with it. -/
theorem fault?_eq_none_iff : d.fault? r = none ↔ d.Resolves r := by
  unfold fault? Resolves
  split
  · next hfind => simp [not_declares_of_find? hfind]
  · next hfind hexpected => simp [declares_of_find? hfind, hexpected]
  · next found ref expected hfind hexpected =>
      simp [declares_of_find? hfind, hexpected, declaresAs_iff_of_find? hfind]

/-! ## What building checks -/

open Outcome (Checks)

theorem checks_resolve (type : TypeExpr) :
    Checks d.fault? (d.resolve owner type) [.ofType owner type] := by
  induction type with
  | named name =>
      refine .single ?_
      simp only [resolve, fault?, Reference.ofType, TypeExpr.name]
      cases d.find? name <;> rfl
  | list item ih => exact ih.map GraphType.list
  | nonNull type ih => exact ih.map GraphType.nonNull

theorem checks_resolveKind (name : String) :
    Checks d.fault? (d.resolveKind owner kind name) [.ofKind owner kind name] := by
  refine .single ?_
  simp only [resolveKind, fault?, Reference.ofKind]
  cases d.find? name with
  | none => rfl
  | some found =>
      dsimp only
      split <;> rfl

theorem checks_resolveArguments (arguments : List ArgumentDeclaration) :
    Checks d.fault? (d.resolveArguments owner arguments)
      (arguments.map fun argument => .ofType owner argument.type) := by
  have hargument : ∀ argument : ArgumentDeclaration,
      Checks d.fault? (d.resolveArgument owner argument) [.ofType owner argument.type] :=
    fun argument => (checks_resolve argument.type).pure_bind _
  exact (Checks.mapM_single hargument arguments).pure_bind _

theorem checks_resolveField (field : FieldDeclaration) :
    Checks d.fault? (d.resolveField owner field) (field.references owner) :=
  (checks_resolveArguments field.arguments).bind fun _ => (checks_resolve field.type).pure_bind _

theorem checks_resolveFields (fields : List FieldDeclaration) :
    Checks d.fault? (d.resolveFields owner fields)
      (fields.flatMap (FieldDeclaration.references owner)) :=
  (Checks.mapM checks_resolveField fields).pure_bind _

theorem checks_resolveKinds (names : List String) :
    Checks d.fault? (d.resolveKinds owner kind names) (names.map (.ofKind owner kind)) :=
  (Checks.mapM_single checks_resolveKind names).pure_bind _

/-- A declaration is gone through reference by reference. -/
theorem checks_define (type : TypeDeclaration) :
    Checks d.fault? (d.define type) type.references := by
  cases type with
  | scalar name => exact .ok _
  | object name fields interfaces | interface name fields interfaces =>
      exact (checks_resolveFields fields).bind fun _ => (checks_resolveKinds interfaces).pure_bind _
  | union name members => exact (checks_resolveKinds members).pure_bind _
  | enum name values => exact .ok _
  | inputObject name fields => exact (checks_resolveArguments fields).pure_bind _

/-! ## Building -/

/-- So are all declarations, in their order. -/
theorem checks_types : Checks d.fault? (d.types.mapM d.define) d.references :=
  Checks.mapM checks_define d.types

theorem exists_types_iff :
    (∃ types, d.types.mapM d.define = .ok types) ↔ ∀ r ∈ d.references, d.Resolves r := by
  simp only [checks_types.exists_ok_iff, fault?_eq_none_iff]

theorem types_eq_error_iff :
    d.types.mapM d.define = .error e ↔ ∃ before r after, d.references = before ++ r :: after ∧
      d.Faulty r e ∧ ∀ earlier ∈ before, d.Resolves earlier := by
  simp only [checks_types.eq_error_iff, fault?_eq_none_iff, fault?_eq_some_iff]

/-- The root of queries is looked up when all types are defined. -/
theorem build_eq_error_iff :
    d.build = .error e ↔ d.types.mapM d.define = .error e ∨
      (∃ types, d.types.mapM d.define = .ok types) ∧ ¬ d.DeclaresAs .object d.rootName ∧
        e = .missingQueryType := by
  refine Outcome.bind_eq_error_iff.trans (or_congr_right ⟨?_, ?_⟩)
  · rintro ⟨types, htypes, h⟩
    split at h
    · cases h
    · next hroot =>
        cases h
        refine ⟨⟨types, htypes⟩, ?_, rfl⟩
        rw [declaresAs_iff]
        rintro ⟨ref, hfind⟩
        exact hroot ref hfind
  · rintro ⟨⟨types, htypes⟩, hroot, rfl⟩
    refine ⟨types, htypes, ?_⟩
    split
    · next ref hfind => exact absurd (declaresAs_iff.2 ⟨ref, hfind⟩) hroot
    · rfl

theorem exists_build_iff :
    (∃ s, d.build = .ok s) ↔
      (∃ types, d.types.mapM d.define = .ok types) ∧ d.DeclaresAs .object d.rootName := by
  constructor
  · rintro ⟨s, hs⟩
    rcases builds_of_build hs with ⟨types, htypes, b⟩
    exact ⟨⟨types, htypes⟩, declaresAs_iff.2 ⟨s.queryType, b.query⟩⟩
  · rintro ⟨⟨types, htypes⟩, hroot⟩
    cases hbuild : d.build with
    | ok s => exact ⟨s, rfl⟩
    | error e =>
        -- Neither of the two causes of a failure is there.
        rcases build_eq_error_iff.1 hbuild with hfails | ⟨-, hmissing, -⟩
        · rw [htypes] at hfails
          cases hfails
        · exact absurd hroot hmissing

theorem firstFault_iff :
    d.FirstFault e ↔ d.types.mapM d.define = .error e ∨
      (∃ types, d.types.mapM d.define = .ok types) ∧ ¬ d.DeclaresAs .object d.rootName ∧
        e = .missingQueryType := by
  rw [types_eq_error_iff, exists_types_iff]
  constructor
  · intro h
    cases h with
    | reference hreferences hbefore hfaulty => exact .inl ⟨_, _, _, hreferences, hfaulty, hbefore⟩
    | query hreferences hroot => exact .inr ⟨hreferences, hroot, rfl⟩
  · rintro (⟨before, r, after, hreferences, hfaulty, hbefore⟩ | ⟨hreferences, hroot, rfl⟩)
    · exact .reference hreferences hbefore hfaulty
    · exact .query hreferences hroot

/-- Whatever is declared, a schema is built if and only if the declarations refer to nothing but
what is declared, and start queries at an object. Otherwise the error is that of the first reference
that does not resolve, in the order of the declarations, and a missing root is reported only where
all references resolve. -/
theorem build_exact (d : Declarations) :
    ((∃ s, d.build = .ok s) ↔ d.Resolvable) ∧
      ∀ e, d.build = .error e ↔ d.FirstFault e := by
  constructor
  · rw [resolvable_iff, exists_build_iff, exists_types_iff]
  · intro e
    rw [build_eq_error_iff, firstFault_iff]

end Declarations

/-- The argument of a field is met before the type of the field and before the interfaces. -/
example : Declarations.build {
    types := [.scalar "Int",
      .object "Query" [⟨"books", .list (.named "Book"), [⟨"by", .nonNull (.named "Order")⟩]⟩]
        ["Int"]]
    queryType := some "Root"
    distinct := by decide } = .error (.unresolvedType "Order" "Query") := rfl

end GraphQuery
