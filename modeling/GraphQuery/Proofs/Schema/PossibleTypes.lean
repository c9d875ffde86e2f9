import GraphQuery.Proofs.Entity.Typing
import GraphQuery.Proofs.Schema.References
import GraphQuery.Selection.OfExpression

/-!
# Schema.PossibleTypes — possible types as inclusion of implementers

An object is possible for the types that list it. An interface is possible for another type by one
of two rules: it declares that type, or it has implementers and that type lists all of them. Where
interfaces are declared as GraphQL asks for, the first rule is a case of the second one, so that an
interface stands for its implementers wherever it is expected.

- `Schema.Implements` : the objects that declare an interface
- `Schema.InheritsInterfaces` : what GraphQL asks of schemas, and building does not check
- `Schema.isPossibleType_interface_iff` : the two rules
- `Declarations.mem_possibleTypes_of_isPossibleType` : what an interface admits is admitted wherever
  the interface is possible
- `Declarations.possibleTypes_inclusion` : possible types are inclusion, so that subtypes of
  subtypes are subtypes
-/

set_option autoImplicit false

namespace GraphQuery

namespace Schema

variable {s : Schema} {outer interface object : TypeRef}

/-- An object type of the schema that declares an interface. -/
structure Implements (s : Schema) (object interface : TypeRef) : Prop where
  isObject : s.IsObject object
  declares : interface ∈ s.interfaces object

/-- Objects, and interfaces that an object implements. -/
inductive HasObjects (s : Schema) : TypeRef → Prop where
  | object {object : TypeRef} : s.IsObject object → HasObjects s object
  | interface {interface object : TypeRef} : s.Declares (.named .interface interface) →
      s.Implements object interface → HasObjects s interface

/-- Whatever implements an interface also declares the interfaces which that one implements. -/
def InheritsInterfaces (s : Schema) : Prop :=
  ∀ definition ∈ s.types, ∀ interface ∈ definition.interfaces,
    ∀ inherited ∈ s.interfaces interface, inherited ∈ definition.interfaces

instance (s : Schema) : Decidable s.InheritsInterfaces :=
  inferInstanceAs (Decidable (∀ definition ∈ s.types, ∀ interface ∈ definition.interfaces,
    ∀ inherited ∈ s.interfaces interface, inherited ∈ definition.interfaces))

theorem InheritsInterfaces.mem (h : s.InheritsInterfaces) {type : TypeRef}
    (hinterface : interface ∈ s.interfaces type) (houter : outer ∈ s.interfaces interface) :
    outer ∈ s.interfaces type := by
  unfold interfaces at hinterface ⊢
  cases hdefinition : s.definition? type with
  | none => simp [hdefinition] at hinterface
  | some definition =>
      have hdeclared : interface ∈ definition.interfaces := by
        simpa [hdefinition] using hinterface
      have hmem : definition ∈ s.types := List.mem_of_getElem? hdefinition
      simpa using h definition hmem interface hdeclared outer houter

/-- An interface is possible for the types that it declares, and for those that list all of its
implementers if it has any. -/
theorem isPossibleType_interface_iff (hs : s.Consistent)
    (hinterface : s.Declares (.named .interface interface)) :
    s.isPossibleType outer interface = true ↔ outer ∈ s.interfaces interface ∨
      (s.possibleTypes interface ≠ [] ∧
        ∀ object ∈ s.possibleTypes interface, object ∈ s.possibleTypes outer) := by
  rcases declares_named_iff.1 hinterface with ⟨-, definition, hdefinition, hkind⟩
  cases definition with
  | interface definition =>
      cases hlists : (s.definition? outer).bind TypeDefinition.possibleTypes? with
      | some possible =>
          simp [isPossibleType, possibleTypes, interfaces, hlists, hdefinition,
            TypeDefinition.possibleTypes?, TypeDefinition.interfaces]
      | none =>
          -- A type that lists nothing is no interface, and has no implementer of another one.
          have hnot : s.isPossibleType outer interface = false := by
            simp [isPossibleType, hlists]
          have hempty : s.possibleTypes outer = [] := by simp [possibleTypes, hlists]
          rw [hnot, hempty]
          refine iff_of_false Bool.false_ne_true ?_
          rintro (hdeclared | ⟨hne, hall⟩)
          · rcases declares_named_iff.1 (hs.interfaces hdeclared) with ⟨-, found, hfound, hkind⟩
            cases found with
            | interface found => simp [hfound, TypeDefinition.possibleTypes?] at hlists
            | _ => cases hkind
          · rcases List.exists_mem_of_ne_nil _ hne with ⟨object, hobject⟩
            exact List.not_mem_nil (hall object hobject)
  | _ => cases hkind

/-- A type that others are possible for, and that is possible itself, is an interface. -/
theorem declares_interface_of_isPossibleType {middle inner : TypeRef}
    (hmiddle : s.typeRef? middle.name = some middle)
    (h : s.isPossibleType outer middle = true) (h' : s.isPossibleType middle inner = true) :
    s.Declares (.named .interface middle) := by
  unfold isPossibleType at h h'
  cases hdefinition : s.definition? middle with
  | none => simp [hdefinition] at h'
  | some definition =>
      cases definition with
      | interface definition => exact declares_named_iff.2 ⟨hmiddle, _, hdefinition, rfl⟩
      | union definition =>
          -- A union is possible for no type.
          rw [hdefinition] at h
          split at h <;> cases h
      | _ => simp [hdefinition, TypeDefinition.possibleTypes?] at h'

theorem isSubtype_iff {type : TypeRef} :
    s.isSubtype outer type = true ↔ outer = type ∨ s.isPossibleType outer type = true := by
  simp [isSubtype]

/-! ## Admission -/

/-- An object type is admitted where an interface is selected or expected: a cast narrows to it, a
fragment on it applies, or a response names it. -/
inductive AdmitsThrough (s : Schema) (interface object : TypeRef) : Prop where
  | cast {c : Compiler} : c.schema = s →
      c.castable (.named .interface interface) (.named .object object) = true →
      AdmitsThrough s interface object
  | fragment {c : Compiler} : c.schema = s → c.applicable interface object = true →
      AdmitsThrough s interface object
  | discriminator {m : Materializer} {members : List (String × Json)} : m.schema = s →
      m.discriminate interface members = .ok (some object) → AdmitsThrough s interface object

theorem not_isPossibleType_of_object {type : TypeRef} (hobject : s.IsObject object) :
    s.isPossibleType object type = false := by
  rcases hobject.definition with ⟨definition, hdefinition⟩
  simp [isPossibleType, hdefinition, TypeDefinition.possibleTypes?]

theorem interface_ne_object (hinterface : s.Declares (.named .interface interface))
    (hobject : s.IsObject object) : interface ≠ object := by
  rintro rfl
  rcases hobject.definition with ⟨definition, hdefinition⟩
  rcases declares_named_iff.1 hinterface with ⟨-, found, hfound, hkind⟩
  cases hdefinition.symm.trans hfound
  cases hkind

/-- Each of them asks for a possible type. -/
theorem AdmitsThrough.isPossibleType (h : s.AdmitsThrough interface object)
    (hinterface : s.Declares (.named .interface interface)) (hobject : s.IsObject object) :
    s.isPossibleType interface object = true := by
  have hne := interface_ne_object hinterface hobject
  cases h with
  | cast hc h =>
      subst hc
      simpa [Compiler.castable, GraphType.isAbstract, GraphType.kind, TypeKind.isAbstract,
        GraphType.typeRef] using h
  | fragment hc h =>
      subst hc
      -- A fragment applies to a wider type too, which an object is not.
      simpa [Compiler.applicable, hne, not_isPossibleType_of_object hobject] using h
  | discriminator hm h =>
      subst hm
      rcases Materializer.discriminate_eq_ok h with h | ⟨name, type, h, -, -, hsubtype⟩
      · cases h
      · cases h
        exact (isSubtype_iff.1 hsubtype).resolve_left hne

end Schema

namespace Declarations

variable {d : Declarations} {s : Schema} {outer middle inner interface object : TypeRef}

section

variable (hd : d.build = .ok s)
include hd

/-- An interface lists its implementers and nothing else. -/
theorem mem_possibleTypes_iff (hinterface : s.Declares (.named .interface interface)) :
    object ∈ s.possibleTypes interface ↔ s.Implements object interface := by
  have hs := consistent_of_build hd
  constructor
  · intro h
    have hobject := hs.possibleTypes h
    exact ⟨hobject, (links_of_build hd).mem_interfaces hobject hinterface h⟩
  · intro h
    exact hs.implementers h.isObject h.declares

variable (hinherits : s.InheritsInterfaces)
include hinherits

/-- What implements an interface is listed wherever the interface is possible. -/
theorem mem_possibleTypes_of_isPossibleType (hinterface : s.Declares (.named .interface interface))
    (hpossible : s.isPossibleType outer interface = true) (h : s.Implements object interface) :
    object ∈ s.possibleTypes outer := by
  have hs := consistent_of_build hd
  rcases (Schema.isPossibleType_interface_iff hs hinterface).1 hpossible with
    hdeclared | ⟨-, hlisted⟩
  · -- The object declares what its interface declares.
    exact hs.implementers h.isObject (hinherits.mem h.declares hdeclared)
  · exact hlisted object ((mem_possibleTypes_iff hd hinterface).2 h)

/-- An interface that is implemented is possible where all of its implementers are listed. -/
theorem isPossibleType_iff_implementers (hinterface : s.Declares (.named .interface interface))
    (himplemented : ∃ object, s.Implements object interface) :
    s.isPossibleType outer interface = true ↔
      ∀ object, s.Implements object interface → object ∈ s.possibleTypes outer := by
  refine ⟨fun h object => mem_possibleTypes_of_isPossibleType hd hinherits hinterface h, ?_⟩
  intro hall
  rcases himplemented with ⟨object, hobject⟩
  refine (Schema.isPossibleType_interface_iff (consistent_of_build hd) hinterface).2 (.inr ⟨?_, ?_⟩)
  · exact List.ne_nil_of_mem ((mem_possibleTypes_iff hd hinterface).2 hobject)
  · exact fun other hother => hall other ((mem_possibleTypes_iff hd hinterface).1 hother)

/-- What is possible for a possible type is possible. -/
theorem isPossibleType_trans (hmiddle : s.typeRef? middle.name = some middle)
    (hinner : s.HasObjects inner) (h : s.isPossibleType outer middle = true)
    (h' : s.isPossibleType middle inner = true) : s.isPossibleType outer inner = true := by
  have hinterface := Schema.declares_interface_of_isPossibleType hmiddle h h'
  -- Whatever the middle type lists implements it, and is listed by the outer type.
  have hlisted : ∀ object ∈ s.possibleTypes middle, object ∈ s.possibleTypes outer :=
    fun object hobject => mem_possibleTypes_of_isPossibleType hd hinherits hinterface h
      ((mem_possibleTypes_iff hd hinterface).1 hobject)
  cases hinner with
  | object hobject =>
      rw [hobject.isPossibleType_iff] at h' ⊢
      exact hlisted inner h'
  | interface hinner himplements =>
      have himplemented : ∃ object, s.Implements object inner := ⟨_, himplements⟩
      rw [isPossibleType_iff_implementers hd hinherits hinner himplemented] at h' ⊢
      exact fun object hobject => hlisted object (h' object hobject)

theorem isSubtype_trans (hmiddle : s.typeRef? middle.name = some middle)
    (hinner : s.HasObjects inner) (h : s.isSubtype outer middle = true)
    (h' : s.isSubtype middle inner = true) : s.isSubtype outer inner = true := by
  rw [Schema.isSubtype_iff] at h h'
  rcases h with rfl | h
  · exact Schema.isSubtype_iff.2 h'
  · rcases h' with rfl | h'
    · exact Schema.isSubtype_iff.2 (.inr h)
    · exact Schema.isSubtype_iff.2
        (.inr (isPossibleType_trans hd hinherits hmiddle hinner h h'))

end

/-- For every schema that is built and whose types declare the interfaces of their interfaces, an
interface that is implemented is possible for a type just when all of its implementers are listed by
that type; being a subtype is transitive for objects and for such interfaces; and an object that is
admitted through an interface is listed by every type that the interface is a subtype of. -/
theorem possibleTypes_inclusion (hd : d.build = .ok s) (hinherits : s.InheritsInterfaces) :
    (∀ outer interface, s.Declares (.named .interface interface) →
      (∃ object, s.Implements object interface) →
        (s.isPossibleType outer interface = true ↔
          ∀ object, s.Implements object interface → object ∈ s.possibleTypes outer)) ∧
      (∀ outer middle inner, s.typeRef? middle.name = some middle → s.HasObjects inner →
        s.isSubtype outer middle = true → s.isSubtype middle inner = true →
          s.isSubtype outer inner = true) ∧
      (∀ outer interface object, s.Declares (.named .interface interface) → s.IsObject object →
        s.isSubtype outer interface = true → s.AdmitsThrough interface object →
          object ∈ s.possibleTypes outer) := by
  refine ⟨fun _ _ => isPossibleType_iff_implementers hd hinherits,
    fun _ _ _ => isSubtype_trans hd hinherits, ?_⟩
  intro outer interface object hinterface hobject hsubtype hadmits
  have hpossible := hadmits.isPossibleType hinterface hobject
  rcases Schema.isSubtype_iff.1 hsubtype with rfl | houter
  · exact (hobject.isPossibleType_iff _).1 hpossible
  · have hself := (Schema.declares_named_iff.1 hinterface).1
    exact (hobject.isPossibleType_iff _).1
      (isPossibleType_trans hd hinherits hself (.object hobject) houter hpossible)

end Declarations

/-! ## Pages of a site -/

/-- Pages and posts are content, and all content has an identity. -/
def siteDeclarations : Declarations where
  types := [
    .scalar "ID",
    .interface "Node" [⟨"id", .named "ID", []⟩] [],
    .interface "Content" [⟨"id", .named "ID", []⟩] ["Node"],
    .object "Page" [⟨"id", .named "ID", []⟩] ["Node", "Content"],
    .object "Post" [⟨"id", .named "ID", []⟩] ["Content", "Node"],
    .object "User" [⟨"id", .named "ID", []⟩] ["Node"],
    .union "Linked" ["Post", "User", "Page"],
    .object "Query" [⟨"linked", .list (.named "Linked"), []⟩] []]
  queryType := none
  distinct := by decide

def siteSchema : Schema :=
  (siteDeclarations.build.toOption).getD ⟨[], ⟨0, "Query"⟩⟩

/-- Content stands for pages and posts where linked things are expected. The union does not know of
the interface, but it lists whatever implements it. -/
theorem possibleTypes_site :
    siteDeclarations.build = .ok siteSchema ∧ siteSchema.InheritsInterfaces ∧
      (siteSchema.isPossibleType ⟨6, "Linked"⟩ ⟨2, "Content"⟩ = true ↔
        ∀ object, siteSchema.Implements object ⟨2, "Content"⟩ →
          object ∈ siteSchema.possibleTypes ⟨6, "Linked"⟩) ∧
      siteSchema.isSubtype ⟨6, "Linked"⟩ ⟨2, "Content"⟩ = true ∧
      siteSchema.isSubtype ⟨6, "Linked"⟩ ⟨3, "Page"⟩ = true ∧
      ⟨3, "Page"⟩ ∈ siteSchema.possibleTypes ⟨6, "Linked"⟩ := by
  have hbuild : siteDeclarations.build = .ok siteSchema := rfl
  have hinherits : siteSchema.InheritsInterfaces := by decide
  have hpage : siteSchema.IsObject ⟨3, "Page"⟩ := rfl
  have hcontent : siteSchema.Declares (.named .interface ⟨2, "Content"⟩) := rfl
  have himplements : siteSchema.Implements ⟨3, "Page"⟩ ⟨2, "Content"⟩ := ⟨hpage, by decide⟩
  have hsubtype : siteSchema.isSubtype ⟨6, "Linked"⟩ ⟨2, "Content"⟩ = true := by decide
  have hnamed : (Materializer.ofSchema siteSchema .standard).discriminate ⟨2, "Content"⟩
      [("__typename", .string "Page")] = .ok (some ⟨3, "Page"⟩) := rfl
  have hadmits : siteSchema.AdmitsThrough ⟨2, "Content"⟩ ⟨3, "Page"⟩ := .discriminator rfl hnamed
  rcases Declarations.possibleTypes_inclusion hbuild hinherits with ⟨hiff, htrans, hlisted⟩
  exact ⟨hbuild, hinherits, hiff _ _ hcontent ⟨_, himplements⟩, hsubtype,
    htrans _ _ _ rfl (.object hpage) hsubtype (by decide),
    hlisted _ _ _ hcontent hpage hsubtype hadmits⟩

end GraphQuery
