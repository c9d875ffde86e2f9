import GraphQuery.Proofs.Entity.Trace
import GraphQuery.Proofs.Schema.Consistency

/-!
# Entity.Typing — entities are what a schema says

Fields are set one by one and a response may fail in the middle, but every store on the way is
well typed: an entity has an object type of the schema, each of its fields holds what the field is
declared to hold, and keys lead to entities that can stand for their types.

- `Value.Conforms` : the values of a type
- `Store.WellTyped` : what holds of the store at all times
- `Materializer.Built` : materializers with factories that were accepted
- `Materializer.keepsTypes` : every run obeys
- `Store.wellTyped_applyAll` : so do all sequences of calls, with clears of the cache in between
-/

set_option autoImplicit false

namespace GraphQuery

open Materialization (Ensures runOn)
open Materializer (After)

/-- The values of a type, given the types of the entities in a store. -/
inductive Value.Conforms (s : Schema) (store : Store) : GraphType → Value → Prop where
  | null {type : GraphType} : (∀ inner, type ≠ .nonNull inner) → Conforms s store type .null
  | nonNull {type : GraphType} {v : Value} :
      v ≠ .null → Conforms s store type v → Conforms s store (.nonNull type) v
  | list {item : GraphType} {values : List Value} :
      (∀ v ∈ values, Conforms s store item v) → Conforms s store (.list item) (.list values)
  | scalar {ref : TypeRef} {json : Json} :
      json ≠ .null → Conforms s store (.named .scalar ref) (.leaf json)
  | enum {ref : TypeRef} {definition : EnumType} {name : String} :
      s.definition? ref = some (.enum definition) → name ∈ definition.values →
      Conforms s store (.named .enum ref) (.leaf (.string name))
  | entity {kind : TypeKind} {expected type : TypeRef} {entity : EntityId} :
      kind.isComposite = true → store.typeOf? entity = some type → s.Admits expected type →
      Conforms s store (.named kind expected) (.object entity)

namespace Store

variable {s : Schema} {a b c store : Store}

/-- Entities stay, and keep their types. -/
structure KeepsTypes (a b : Store) : Prop where
  typeOf : ∀ {entity type}, a.typeOf? entity = some type → b.typeOf? entity = some type

theorem KeepsTypes.refl (a : Store) : a.KeepsTypes a :=
  ⟨fun htype => htype⟩

theorem KeepsTypes.trans (hab : a.KeepsTypes b) (hbc : b.KeepsTypes c) : a.KeepsTypes c :=
  ⟨fun htype => hbc.typeOf (hab.typeOf htype)⟩

theorem KeepsTypes.conforms (h : a.KeepsTypes b) {type : GraphType} {v : Value}
    (hv : v.Conforms s a type) : v.Conforms s b type := by
  induction hv with
  | null hnull => exact .null hnull
  | nonNull hne _ ih => exact .nonNull hne ih
  | list _ ih => exact .list ih
  | scalar hjson => exact .scalar hjson
  | enum hdefinition hname => exact .enum hdefinition hname
  | entity hkind htype hadmits => exact .entity hkind (h.typeOf htype) hadmits

structure WellTyped (s : Schema) (store : Store) : Prop where
  object : ∀ {entity found}, store.heap.entity? entity = some found → s.IsObject found.type
  field : ∀ {entity found}, store.heap.entity? entity = some found →
    ∀ populated ∈ found.fields, ∃ field, s.field? found.type populated.1 = some field ∧
      populated.2.Conforms s store field.type
  key : ∀ {key entity}, store.cache.lookup key = some entity →
    ∃ expected type, s.typeRef? key.typeName = some expected ∧
      store.typeOf? entity = some type ∧ s.Admits expected type

theorem KeepsTypes.field (h : a.KeepsTypes b) {type : TypeRef} {name : String} {v : Value}
    (hv : ∃ field, s.field? type name = some field ∧ v.Conforms s a field.type) :
    ∃ field, s.field? type name = some field ∧ v.Conforms s b field.type := by
  rcases hv with ⟨field, hfield, hconforms⟩
  exact ⟨field, hfield, h.conforms hconforms⟩

theorem KeepsTypes.key (h : a.KeepsTypes b) {name : String} {entity : EntityId}
    (hk : ∃ expected type, s.typeRef? name = some expected ∧
      a.typeOf? entity = some type ∧ s.Admits expected type) :
    ∃ expected type, s.typeRef? name = some expected ∧
      b.typeOf? entity = some type ∧ s.Admits expected type := by
  rcases hk with ⟨expected, type, hexpected, htype, hadmits⟩
  exact ⟨expected, type, hexpected, h.typeOf htype, hadmits⟩

theorem wellTyped_empty : Store.empty.WellTyped s where
  object := nofun
  field := nofun
  key := nofun

theorem WellTyped.isObject (h : store.WellTyped s) {entity : EntityId} {type : TypeRef}
    (htype : store.typeOf? entity = some type) : s.IsObject type := by
  rcases Option.map_eq_some_iff.1 htype with ⟨found, hfound, rfl⟩
  exact h.object hfound

/-- What every run keeps to. -/
abbrev Advances (s : Schema) (a b : Store) : Prop := After (WellTyped s) KeepsTypes a b

theorem Advances.refl (h : a.WellTyped s) : Advances s a a :=
  ⟨h, .refl a⟩

theorem Advances.trans (hab : Advances s a b) (hbc : Advances s b c) : Advances s a c :=
  ⟨hbc.inv, hab.rel.trans hbc.rel⟩

/-! ## Changes -/

theorem typeOf?_allocate_next (store : Store) (type : TypeRef) :
    typeOf? { store with heap := store.heap.allocate type } store.heap.next = some type := by
  simp [typeOf?, Heap.entity?_allocate]

theorem keepsTypes_allocate (store : Store) (type : TypeRef) :
    store.KeepsTypes { store with heap := store.heap.allocate type } := by
  refine ⟨fun {entity found} hfound => ?_⟩
  -- The entity that is made is one that the store did not have.
  have hne : entity ≠ store.heap.next := by
    rintro rfl
    simp [typeOf?, Heap.entity?_next] at hfound
  simpa [typeOf?, Heap.entity?_allocate, hne] using hfound

theorem keepsTypes_set (store : Store) (entity : EntityId) (field : String) (v : Value) :
    store.KeepsTypes { store with heap := store.heap.set entity field v } := by
  refine ⟨fun {other found} hfound => ?_⟩
  -- Setting a field changes the fields of one entity, and the type of none.
  by_cases hset : entity = other
  · simpa [typeOf?, Heap.entity?_set, hset, Option.map_map, Function.comp_def, Entity.set]
      using hfound
  · simpa [typeOf?, Heap.entity?_set, hset] using hfound

theorem advances_allocate (h : store.WellTyped s) {type : TypeRef} (htype : s.IsObject type) :
    Advances s store { store with heap := store.heap.allocate type } := by
  have hkeeps := store.keepsTypes_allocate type
  refine ⟨⟨?_, ?_, ?_⟩, hkeeps⟩
  · intro entity found hfound
    rw [Heap.entity?_allocate] at hfound
    split at hfound
    · cases hfound
      exact htype
    · exact h.object hfound
  · intro entity found hfound populated hpopulated
    rw [Heap.entity?_allocate] at hfound
    split at hfound
    · cases hfound
      cases hpopulated
    · exact hkeeps.field (h.field hfound populated hpopulated)
  · intro key entity hkey
    exact hkeeps.key (h.key hkey)

theorem advances_set (h : store.WellTyped s) {entity : EntityId} {type : TypeRef} {field : Field}
    {v : Value} (htype : store.typeOf? entity = some type)
    (hfield : s.field? type field.name = some field) (hv : v.Conforms s store field.type) :
    Advances s store { store with heap := store.heap.set entity field.name v } := by
  have hkeeps := store.keepsTypes_set entity field.name v
  refine ⟨⟨?_, ?_, ?_⟩, hkeeps⟩
  · intro other found hfound
    rw [Heap.entity?_set] at hfound
    split at hfound
    · rcases Option.map_eq_some_iff.1 hfound with ⟨old, hold, rfl⟩
      have hobject : s.IsObject old.type := h.object hold
      exact hobject
    · exact h.object hfound
  · intro other found hfound populated hpopulated
    rw [Heap.entity?_set] at hfound
    split at hfound
    · next heq =>
        rcases Option.map_eq_some_iff.1 hfound with ⟨old, hold, rfl⟩
        rcases Keyed.mem_put hpopulated with rfl | hpopulated
        · -- The field that is set is one of the type that the entity has.
          have htypeOld : old.type = type := by simpa [typeOf?, heq, hold] using htype
          have hdeclared : s.field? old.type field.name = some field := htypeOld ▸ hfield
          exact hkeeps.field ⟨field, hdeclared, hv⟩
        · exact hkeeps.field (h.field hold populated hpopulated)
    · exact hkeeps.field (h.field hfound populated hpopulated)
  · intro key other hkey
    exact hkeeps.key (h.key hkey)

theorem advances_register (h : store.WellTyped s) {entity : EntityId} {expected type : TypeRef}
    (htype : store.typeOf? entity = some type)
    (hexpected : s.typeRef? expected.name = some expected) (hadmits : s.Admits expected type)
    (id : String) :
    Advances s store
      { store with cache := (store.cache.getOrInsert expected id entity).2 } := by
  have hkeeps : store.KeepsTypes
      { store with cache := (store.cache.getOrInsert expected id entity).2 } :=
    ⟨fun hfound => hfound⟩
  refine ⟨⟨h.object, ?_, ?_⟩, hkeeps⟩
  · intro other found hfound populated hpopulated
    exact hkeeps.field (h.field hfound populated hpopulated)
  · intro key other hkey
    -- The key led to the entity before, or is the one that is registered.
    rcases Cache.lookup_eq_some_of_getOrInsert hkey with hold | ⟨rfl, rfl⟩
    · exact h.key hold
    · exact ⟨expected, type, hexpected, htype, hadmits⟩

/-- A new entity is registered under its object type. Whichever entity the key has then, it is one
of that type. -/
theorem advances_create (h : store.WellTyped s) {concrete : TypeRef}
    (hobject : s.IsObject concrete) (id : String) :
    Advances s store ⟨store.heap.allocate concrete,
        (store.cache.getOrInsert concrete id store.heap.next).2⟩ ∧
      typeOf? ⟨store.heap.allocate concrete,
          (store.cache.getOrInsert concrete id store.heap.next).2⟩
        (store.cache.getOrInsert concrete id store.heap.next).1 = some concrete := by
  have hname := (Schema.declares_named_iff.1 hobject).1
  have hcreated := advances_allocate h hobject
  have hregistered := hcreated.trans (advances_register hcreated.inv
    (store.typeOf?_allocate_next concrete) hname (.inl rfl) id)
  refine ⟨hregistered, ?_⟩
  obtain ⟨ref, found, href, htype, hfound⟩ :=
    hregistered.inv.key (Cache.lookup_getOrInsert_self _ concrete id store.heap.next)
  obtain rfl : concrete = ref := Option.some.inj (hname.symm.trans href)
  obtain rfl : found = concrete := hobject.eq_of_admits hfound
  exact htype

end Store

/-! ## Values of a type -/

namespace Value

variable {s : Schema} {store : Store} {type : GraphType} {v : Value}

theorem conforms_of_nullable (hv : v ≠ .null) (h : v.Conforms s store type.nullable) :
    v.Conforms s store type := by
  induction type with
  | named kind ref => exact h
  | list item ih => exact h
  | nonNull type ih => exact .nonNull hv (ih h)

theorem nullable_ne_nonNull (type inner : GraphType) : type.nullable ≠ .nonNull inner := by
  induction type with
  | named kind ref => nofun
  | list item ih => nofun
  | nonNull type ih => exact ih

theorem conforms_null (h : type = type.nullable) : Value.null.Conforms s store type :=
  .null fun inner hinner => nullable_ne_nonNull type inner (h.symm.trans hinner)

/-- What a leaf type lets through is a value of it. -/
theorem conforms_of_leaf {m : Materializer} (hm : m.schema = s) {json : Json}
    (hjson : json ≠ .null) (h : m.leaf type json = .ok v) :
    v ≠ .null ∧ v.Conforms s store type := by
  unfold Materializer.leaf at h
  rw [hm] at h
  split at h
  · cases h
    exact ⟨nofun, .scalar hjson⟩
  · split at h
    · next definition name hdefinition =>
        split at h
        · next hmem =>
            cases h
            exact ⟨nofun, .enum hdefinition hmem⟩
        · cases h
    · cases h
  · cases h
  · cases h

end Value

/-! ## Materializers -/

namespace Materializer

variable {s : Schema} {m : Materializer} {store : Store}

/-- A materializer of a schema, with factories that `constructWith` accepted. -/
inductive Built (s : Schema) : Materializer → Prop where
  | ofSchema {configuration : Configuration} : Built s (ofSchema s configuration)
  | configured {m : Materializer} {configuration : Configuration} :
      Built s m → Built s { m with configuration }
  | constructWith {m built : Materializer} {abstractName concreteName : String} :
      Built s m → m.constructWith abstractName concreteName = .ok built → Built s built

/-- Factories build object types that can stand for the types they are built for. -/
structure Accepted (s : Schema) (m : Materializer) : Prop where
  schema : m.schema = s
  factory : ∀ pair ∈ m.factories, s.IsObject pair.2 ∧ s.Admits pair.1 pair.2

theorem constructWith_eq_ok {built : Materializer} {abstractName concreteName : String}
    (h : m.constructWith abstractName concreteName = .ok built) :
    ∃ abstractType concrete, m.schema.typeRef? concreteName = some concrete ∧
      (m.schema.definition? concrete).map TypeDefinition.kind = some .object ∧
      m.schema.isPossibleType abstractType concrete = true ∧
      built = { m with factories := (abstractType, concrete) :: m.factories } := by
  unfold constructWith at h
  split at h
  · next abstractType habstract =>
      split at h
      · next concrete hconcrete =>
          dsimp only at h
          split at h
          · next haccepted =>
              cases h
              rw [Bool.and_eq_true, beq_iff_eq] at haccepted
              exact ⟨abstractType, concrete, hconcrete, haccepted.1, haccepted.2, rfl⟩
          · cases h
      · cases h
  · cases h

theorem accepted_of_built (h : Built s m) : m.Accepted s := by
  induction h with
  | ofSchema => exact ⟨rfl, nofun⟩
  | configured _ ih =>
      -- Factories do not depend on the configuration.
      exact ⟨ih.schema, ih.factory⟩
  | constructWith _ hbuilt ih =>
      obtain ⟨abstractType, concrete, hconcrete, hkind, hpossible, rfl⟩ :=
        constructWith_eq_ok hbuilt
      rw [ih.schema] at hconcrete hkind hpossible
      have hobject : s.IsObject concrete := by
        rcases Option.map_eq_some_iff.1 hkind with ⟨definition, hdefinition, hkind⟩
        have hself := Schema.typeRef?_self hconcrete
        exact Schema.declares_named_iff.2 ⟨hself, definition, hdefinition, hkind⟩
      refine ⟨ih.schema, List.forall_mem_cons.2 ⟨⟨hobject, ?_⟩, ih.factory⟩⟩
      exact hobject.admits_of_isPossibleType hpossible

/-- What is built for a type is an object type that can stand for it. -/
theorem concreteType_eq_ok (hm : m.Accepted s) {type concrete : TypeRef}
    (hname : s.typeRef? type.name = some type) (h : m.concreteType type = .ok concrete) :
    s.IsObject concrete ∧ s.Admits type concrete := by
  unfold concreteType at h
  rw [hm.schema] at h
  split at h
  · next definition hdefinition =>
      cases h
      exact ⟨Schema.isObject_of_definition hname hdefinition, .inl rfl⟩
  · split at h
    · next found hfound =>
        cases h
        rcases List.lookup_eq_some_iff.1 hfound with ⟨before, after, hsplit, -⟩
        exact hm.factory (type, concrete) (by simp [hsplit])
    · cases h

/-- An object names no type, or one that can stand where it is met. -/
theorem discriminate_eq_ok {expected : TypeRef} {members : List (String × Json)}
    {found : Option TypeRef} (h : m.discriminate expected members = .ok found) :
    found = none ∨ ∃ name type, found = some type ∧ m.schema.typeRef? name = some type ∧
      Json.lookup Name.discriminator members = some (.string name) ∧
      m.schema.isSubtype expected type = true := by
  unfold discriminate at h
  split at h
  · cases h
    exact .inl rfl
  · next name hname =>
      split at h
      · cases h
      · next type htype =>
          split at h
          · next hsubtype =>
              cases h
              exact .inr ⟨name, type, rfl, htype, hname, hsubtype⟩
          · cases h
  · cases h

/-! ## What an object becomes -/

/-- The type that an object is resolved to has its name in the schema. -/
theorem typeRef?_of_discriminate (hm : m.Accepted s) {expected : TypeRef}
    {members : List (String × Json)} {found : Option TypeRef}
    (hexpected : s.typeRef? expected.name = some expected)
    (h : m.discriminate expected members = .ok found) :
    s.typeRef? (found.getD expected).name = some (found.getD expected) := by
  rcases discriminate_eq_ok h with rfl | ⟨name, type, rfl, htype, -⟩
  · exact hexpected
  · have hnamed : s.typeRef? name = some type := hm.schema ▸ htype
    exact Schema.typeRef?_self hnamed

/-- An entity of the type that the object names, if it names one, can stand where it is met. -/
theorem admits_of_discriminate (hm : m.Accepted s) {expected type : TypeRef}
    {members : List (String × Json)} {found : Option TypeRef}
    (h : m.discriminate expected members = .ok found) (htype : s.IsObject type)
    (hadmits : s.Admits (found.getD expected) type)
    (hnamed : ∀ name, Json.lookup Name.discriminator members = some (.string name) →
      name = type.name) : s.Admits expected type := by
  rcases discriminate_eq_ok h with rfl | ⟨name, named, rfl, href, hlookup, hsubtype⟩
  · exact hadmits
  · -- The type that the object names is the type of the entity.
    rw [hm.schema] at href hsubtype
    have hname : name = type.name := hnamed name hlookup
    have htypeRef : s.typeRef? type.name = some type := (Schema.declares_named_iff.1 htype).1
    have heq : named = type := by simpa [hname, htypeRef] using href.symm
    subst heq
    have hcases : expected = named ∨ s.isPossibleType expected named = true := by
      simpa [Schema.isSubtype] using hsubtype
    rcases hcases with heq | hpossible
    · exact .inl heq.symm
    · exact htype.admits_of_isPossibleType hpossible

theorem ensures_registerTyped (h : store.WellTyped s) {entity : EntityId} {type : TypeRef}
    (htype : store.typeOf? entity = some type) (id : String) {types : List TypeRef}
    (hall : ∀ expected ∈ types,
      s.typeRef? expected.name = some expected ∧ s.Admits expected type) :
    Ensures (registerAliases id entity types) store (Store.Advances s store)
      fun _ _ => True := by
  -- Each registration advances the store, whether or not a later one fails.
  induction types generalizing store with
  | nil => exact .pure (.refl h) trivial
  | cons expected rest ih =>
      rcases List.forall_mem_cons.1 hall with ⟨⟨hexpected, hadmits⟩, hrest⟩
      rw [registerAliases]
      refine .bind_of_eq (Materialization.runOn_register expected id entity) ?_
      have hnext := Store.advances_register h htype hexpected hadmits id
      split
      · exact (ih hnext.inv (hnext.rel.typeOf htype) hrest).mono (fun _ => hnext.trans)
          fun _ _ _ h => h
      · exact .throw hnext

theorem mem_aliases (hs : s.Consistent) (hm : m.Accepted s) {type concrete expected : TypeRef}
    (hname : s.typeRef? type.name = some type) (hobject : s.IsObject concrete)
    (hadmits : s.Admits type concrete) (h : expected ∈ m.aliases type concrete) :
    s.typeRef? expected.name = some expected ∧ s.Admits expected concrete := by
  unfold aliases at h
  rcases List.mem_append.1 h with h | h
  · split at h
    · cases h
    · rw [List.mem_singleton.1 h]
      exact ⟨hname, hadmits⟩
  · -- An interface of the object type lists the object type.
    have hinterface : expected ∈ s.interfaces concrete := hm.schema ▸ h
    have hdeclared := Schema.declares_named_iff.1 (hs.interfaces hinterface)
    exact ⟨hdeclared.1, .inr (hs.implementers hobject hinterface)⟩

theorem ensures_constructTyped (hs : s.Consistent) (hm : m.Accepted s) (h : store.WellTyped s)
    {type : TypeRef} (hname : s.typeRef? type.name = some type) (id : String) :
    Ensures (m.construct type id) store (Store.Advances s store) fun entity next =>
      ∃ concrete, next.typeOf? entity = some concrete ∧ s.Admits type concrete := by
  unfold construct
  refine .lift_bind (.refl h) fun concrete hconcrete => ?_
  rcases concreteType_eq_ok hm hname hconcrete with ⟨hobject, hadmits⟩
  refine .bind_of_eq (Materialization.runOn_create concrete) ?_
  refine .bind_of_eq (Materialization.runOn_register concrete id store.heap.next) ?_
  rcases Store.advances_create h hobject id with ⟨hregistered, htype⟩
  have haliases := ensures_registerTyped hregistered.inv htype id
    fun _ => mem_aliases hs hm hname hobject hadmits
  refine Ensures.mono (After.bind haliases Store.KeepsTypes.trans fun _ next hnext _ => ?_)
    (fun _ => hregistered.trans) fun _ _ _ hsuccess => hsuccess
  exact .pure (Store.Advances.refl hnext.inv) ⟨concrete, hnext.rel.typeOf htype, hadmits⟩

theorem ensures_resolveTyped (hs : s.Consistent) (hm : m.Accepted s) (h : store.WellTyped s)
    {expected : TypeRef} (hexpected : s.typeRef? expected.name = some expected)
    (members : List (String × Json)) :
    Ensures (m.resolve expected members) store (Store.Advances s store) fun entity next =>
      ∃ found type, m.discriminate expected members = .ok found ∧
        next.typeOf? entity.1 = some type ∧ s.Admits (found.getD expected) type := by
  unfold resolve
  refine .lift_bind (.refl h) fun found hfound => ?_
  dsimp only
  have hname := typeRef?_of_discriminate hm hexpected hfound
  refine .lift_bind (.refl h) fun id _ => ?_
  cases id with
  | none =>
      refine .lift_bind (.refl h) fun concrete hconcrete => ?_
      rcases concreteType_eq_ok hm hname hconcrete with ⟨hobject, hadmits⟩
      refine .bind_of_eq (Materialization.runOn_create concrete) ?_
      refine .pure (Store.advances_allocate h hobject) ?_
      exact ⟨found, concrete, hfound, store.typeOf?_allocate_next concrete, hadmits⟩
  | some id =>
      refine .same_bind (ensures_checkRegistered _ _ _ _) (.refl h) fun _ _ => ?_
      refine .get_bind ?_
      split
      · next present hpresent =>
          -- What is in the cache under the resolved type can stand for it.
          refine .pure (.refl h) ?_
          rcases h.key hpresent with ⟨ref, type, href, htype, hadmits⟩
          have heq : ref = found.getD expected := Option.some.inj (href.symm.trans hname)
          exact ⟨found, type, hfound, htype, heq ▸ hadmits⟩
      · refine (ensures_constructTyped hs hm h hname id).bind fun entity next hnext hentity => ?_
        rcases hentity with ⟨type, htype, hadmits⟩
        exact .pure hnext ⟨found, type, hfound, htype, hadmits⟩

/-- The fields of an entity's type. -/
def OwnsFields (s : Schema) (store : Store) (entity : EntityId) (fields : List Field) : Prop :=
  ∃ type, store.typeOf? entity = some type ∧ fields = (s.fields? type).getD []

theorem ensures_enterTyped (hs : s.Consistent) (hm : m.Accepted s) (h : store.WellTyped s)
    {type : GraphType} {kind : TypeKind} {expected : TypeRef} (htype : s.Declares type)
    (hexpected : type.nullable = .named kind expected) (hkind : kind.isComposite = true)
    (members : List (String × Json)) :
    Ensures (m.enter expected members) store (Store.Advances s store) fun found next =>
      OwnsFields s next found.1 found.2 ∧ (Value.object found.1).Conforms s next type := by
  have hdeclared : s.Declares (.named kind expected) :=
    hexpected ▸ Schema.declares_nullable.2 htype
  have hname : s.typeRef? expected.name = some expected :=
    (Schema.declares_named_iff.1 hdeclared).1
  unfold enter
  refine (ensures_resolveTyped hs hm h hname members).bind fun entity next hnext hentity => ?_
  rcases hentity with ⟨found, object, hfound, hobject, hadmits⟩
  rcases entity with ⟨entity, id⟩
  -- The entity may come from the cache, but then its type is the one that the object names.
  refine .same_bind (m.ensures_fieldsOf entity id members next) hnext fun fields hfields => ?_
  rcases hfields object hobject with ⟨hfields, hnamed⟩
  rw [hm.schema] at hfields
  refine .pure hnext ⟨⟨object, hobject, hfields⟩, ?_⟩
  refine Value.conforms_of_nullable nofun ?_
  rw [hexpected]
  refine .entity hkind hobject ?_
  exact admits_of_discriminate hm hfound (hnext.inv.isObject hobject) hadmits hnamed

theorem field?_of_owns (hs : s.Consistent) {type : TypeRef} {field : Field}
    (h : field ∈ (s.fields? type).getD []) :
    s.field? type field.name = some field ∧ s.Declares field.type := by
  cases hfields : s.fields? type with
  | none => simp [hfields] at h
  | some fields =>
      rw [hfields, Option.getD_some] at h
      exact ⟨hs.field?_of_mem hfields h, hs.fieldTypes hfields field h⟩

/-- Every run keeps the store well typed, and results conform to what is expected. -/
theorem keepsTypes (hs : s.Consistent) (hm : m.Accepted s) :
    Discipline m (Store.WellTyped s) Store.KeepsTypes s.Declares
      (fun store type v => v.Conforms s store type) (OwnsFields s) where
  refl := .refl
  trans := .trans
  fits_mono h hv := h.conforms hv
  owns_mono := by
    rintro a b entity fields h ⟨type, htype, hfields⟩
    exact ⟨type, h.typeOf htype, hfields⟩
  null := Value.conforms_null
  item := by
    intro type item htype hitem
    have hlist : s.Declares (.list item) := hitem ▸ Schema.declares_nullable.2 htype
    exact hlist
  list := by
    intro store type item values hitem hvalues
    refine Value.conforms_of_nullable nofun ?_
    rw [hitem]
    exact .list hvalues
  leaf := by
    intro store type json v hjson hv
    rcases Value.conforms_of_leaf hm.schema hjson hv with ⟨hne, hconforms⟩
    exact Value.conforms_of_nullable hne hconforms
  enter htype hexpected hkind h := ensures_enterTyped hs hm h htype hexpected hkind _
  field := by
    rintro store entity fields field ⟨type, -, rfl⟩ hfield
    exact (field?_of_owns hs hfield).2
  assign := by
    rintro store entity fields field v h ⟨type, htype, rfl⟩ hfield hv
    exact Store.advances_set h htype (field?_of_owns hs hfield).1 hv

end Materializer

/-! ## Sequences of calls and clears -/

/-- What is done with the materializers that share a store. -/
inductive Action where
  | materialize (call : Call)
  | clear

namespace Action

def apply (store : Store) : Action → Store
  | .materialize call => (call.run store).2
  | .clear => { store with cache := Cache.empty }

/-- A call is one of a materializer of the schema, and expects a type of the schema. -/
def Allowed (s : Schema) : Action → Prop
  | .materialize call => call.materializer.Built s ∧ s.Declares call.type
  | .clear => True

end Action

namespace Store

variable {s : Schema} {store : Store} {actions : List Action}

def applyAll (store : Store) (actions : List Action) : Store :=
  actions.foldl Action.apply store

/-- What an allowed call leaves, and what it gives. -/
theorem ensures_call (hs : s.Consistent) (h : store.WellTyped s) {call : Call}
    (hcall : Action.Allowed s (.materialize call)) :
    Ensures (call.materializer.materialize call.json call.type) store (Advances s store)
      fun v next => v.Conforms s next call.type :=
  (Materializer.keepsTypes hs (Materializer.accepted_of_built hcall.1)).value call.json
    hcall.2 h

theorem WellTyped.apply (hs : s.Consistent) (h : store.WellTyped s) {action : Action}
    (hallowed : action.Allowed s) : (action.apply store).WellTyped s := by
  cases action with
  | materialize call => exact (ensures_call hs h hallowed).always.inv
  | clear =>
      have hkeeps : store.KeepsTypes (Action.clear.apply store) := ⟨fun htype => htype⟩
      refine ⟨h.object, ?_, nofun⟩
      intro entity found hfound populated hpopulated
      exact hkeeps.field (h.field hfound populated hpopulated)

theorem WellTyped.applyAll (hs : s.Consistent) (h : store.WellTyped s)
    (hallowed : ∀ action ∈ actions, action.Allowed s) : (store.applyAll actions).WellTyped s := by
  induction actions generalizing store with
  | nil => exact h
  | cons action rest ih =>
      rcases List.forall_mem_cons.1 hallowed with ⟨haction, hrest⟩
      exact ih (h.apply hs haction) hrest

/-- Over a built schema, whatever is materialized or cleared in whatever order, the store is well
typed and results conform to the types that they were expected to have. -/
theorem wellTyped_applyAll {d : Declarations} (hs : d.build = .ok s)
    (hallowed : ∀ action ∈ actions, action.Allowed s) :
    (Store.empty.applyAll actions).WellTyped s ∧
      ∀ before call later v, actions = before ++ .materialize call :: later →
        (call.run (Store.empty.applyAll before)).1 = .ok v →
          v.Conforms s (Store.empty.applyAll (before ++ [.materialize call])) call.type := by
  have hconsistent := Declarations.consistent_of_build hs
  refine ⟨wellTyped_empty.applyAll hconsistent hallowed, ?_⟩
  rintro before call later v rfl hok
  have hbefore : (Store.empty.applyAll before).WellTyped s :=
    wellTyped_empty.applyAll hconsistent fun action haction =>
      hallowed action (List.mem_append_left _ haction)
  have hcall := hallowed (.materialize call) (List.mem_append_right _ List.mem_cons_self)
  have hconforms : v.Conforms s (call.run (Store.empty.applyAll before)).2 call.type :=
    (ensures_call hconsistent hbefore hcall).success v hok
  have hlast : Store.empty.applyAll (before ++ [.materialize call]) =
      (call.run (Store.empty.applyAll before)).2 := by
    simp [Store.applyAll, Action.apply]
  rw [hlast]
  exact hconforms

end Store

/-! ## A shelf -/

/-- What is done with the shelf: it is read, forgotten and read again. -/
def shelfActions : List Action :=
  [.materialize shelfCall, .clear, .materialize shelfCall]

theorem shelfActions_allowed : ∀ action ∈ shelfActions, action.Allowed shelfSchema := by
  have haccepted : (Materializer.ofSchema shelfSchema .standard).constructWith "Item" "Book" =
      .ok shelfCall.materializer := rfl
  have hcall : Action.Allowed shelfSchema (.materialize shelfCall) :=
    ⟨.constructWith .ofSchema haccepted, rfl⟩
  intro action haction
  rcases List.mem_cons.1 haction with rfl | haction
  · exact hcall
  · rcases List.mem_cons.1 haction with rfl | haction
    · trivial
    · rw [List.mem_singleton.1 haction]
      exact hcall

theorem wellTyped_shelfActions :
    (Store.empty.applyAll shelfActions).WellTyped shelfSchema ∧
      ∃ v, (shelfCall.run (Store.empty.applyAll [.materialize shelfCall, .clear])).1 = .ok v ∧
        v.Conforms shelfSchema (Store.empty.applyAll shelfActions) shelfCall.type := by
  have hbuild : shelfDeclarations.build = .ok shelfSchema := rfl
  rcases Store.wellTyped_applyAll hbuild shelfActions_allowed with ⟨hstore, hresults⟩
  refine ⟨hstore, _, rfl, ?_⟩
  exact hresults [.materialize shelfCall, .clear] shelfCall [] _ rfl rfl

end GraphQuery
