import GraphQuery.Proofs.Entity.Typing

/-!
# Entity.Reading — what a response asks for

A response that materializes is read from top to bottom: each object is resolved to an entity, and
its members are read in their order. What is read, with the entities that the objects are resolved
to, says which fields are assigned which values, and in which order.

- `Reading` : a value of a response with the entities of the objects in it
- `Reading.assignments` : the assignments that it asks for, those inside a member before its own
- `Materializer.Reads` : how a task is read, object by object and member by member
- `Store.Stored` : what a cache leads to is there
- `Materializer.hasReading`, `Materializer.Reads.unique` : what materializes is read, in one way
-/

set_option autoImplicit false

namespace GraphQuery

open Materialization (Ensures runOn)
open Materializer (After)

/-- An object of a response: what reads it, the type that is expected there, its members, and the
entity that it is resolved to. -/
structure Occurrence where
  materializer : Materializer
  expected : TypeRef
  members : List (String × Json)
  entity : EntityId

/-- What is read of a response. -/
inductive Reading where
  | null
  | leaf (json : Json)
  | list (items : List Reading)
  /-- An object, with the members that are fields of its entity. -/
  | object (occurrence : Occurrence) (fields : List (String × Reading))

/-- A field of an entity is given a value. -/
structure Assignment where
  entity : EntityId
  field : String
  value : Value

namespace Reading

mutual

def value : Reading → Value
  | .null => .null
  | .leaf json => .leaf json
  | .list items => .list (values items)
  | .object occurrence _ => .object occurrence.entity

def values : List Reading → List Value
  | [] => []
  | item :: rest => value item :: values rest

end

mutual

/-- The assignments that a response asks for. An object asks for one for each member that is a
field, in their order, and what is inside a member asks for its own before that. -/
def assignments : Reading → List Assignment
  | .null => []
  | .leaf _ => []
  | .list items => itemAssignments items
  | .object occurrence fields => fieldAssignments occurrence.entity fields

def itemAssignments : List Reading → List Assignment
  | [] => []
  | item :: rest => assignments item ++ itemAssignments rest

def fieldAssignments (entity : EntityId) : List (String × Reading) → List Assignment
  | [] => []
  | (field, read) :: rest =>
      assignments read ++ ⟨entity, field, value read⟩ :: fieldAssignments entity rest

end

end Reading

namespace Materializer

/-- How a task is read that starts with one store and ends with another. An object is resolved to an
entity, which stands in the reading; of its members, those are read that are fields of the type of
this entity. What is read of the items of a list is that list, and what is read of the members of
an object is that object. -/
inductive Reads (m : Materializer) : Task → Store → Reading → Store → Prop where
  | null {type : GraphType} {depth : Nat} {store : Store} :
      type = type.nullable → Reads m (.value type depth .null) store .null store
  | leaf {type : GraphType} {depth : Nat} {json : Json} {store : Store} :
      json ≠ .null → m.leaf type.nullable json = .ok (.leaf json) →
      Reads m (.value type depth json) store (.leaf json) store
  | list {type item : GraphType} {depth : Nat} {elements : List Json} {read : List Reading}
      {store next : Store} :
      type.nullable = .list item →
      Reads m (.items item (depth + 1) elements) store (.list read) next →
      Reads m (.value type depth (.array elements)) store (.list read) next
  | object {type : GraphType} {kind : TypeKind} {expected concrete : TypeRef} {depth : Nat}
      {members : List (String × Json)} {entity : EntityId} {id : Option String}
      {read : List (String × Reading)} {store mid next : Store} :
      type.nullable = .named kind expected → kind.isComposite = true →
      runOn (m.resolve expected members) store = (.ok (entity, id), mid) →
      mid.typeOf? entity = some concrete →
      Reads m (.populate entity ((m.schema.fields? concrete).getD []) (depth + 1) members) mid
        (.object ⟨m, expected, members, entity⟩ read) next →
      Reads m (.value type depth (.object members)) store
        (.object ⟨m, expected, members, entity⟩ read) next
  | noItem {type : GraphType} {depth : Nat} {store : Store} :
      Reads m (.items type depth []) store (.list []) store
  | item {type : GraphType} {depth : Nat} {json : Json} {rest : List Json} {first : Reading}
      {others : List Reading} {store mid next : Store} :
      Reads m (.value type depth json) store first mid →
      Reads m (.items type depth rest) mid (.list others) next →
      Reads m (.items type depth (json :: rest)) store (.list (first :: others)) next
  | noMember {occurrence : Occurrence} {fields : List Field} {depth : Nat} {store : Store} :
      Reads m (.populate occurrence.entity fields depth []) store (.object occurrence []) store
  | member {occurrence : Occurrence} {fields : List Field} {field : Field} {depth : Nat}
      {key : String} {json : Json} {rest : List (String × Json)} {first : Reading}
      {others : List (String × Reading)} {store mid next : Store} :
      fieldOf? fields key = some field →
      Reads m (.value field.type depth json) store first mid →
      Reads m (.populate occurrence.entity fields depth rest)
        { mid with heap := mid.heap.set occurrence.entity field.name first.value }
        (.object occurrence others) next →
      Reads m (.populate occurrence.entity fields depth ((key, json) :: rest)) store
        (.object occurrence ((field.name, first) :: others)) next
  | skip {occurrence : Occurrence} {fields : List Field} {depth : Nat} {key : String} {json : Json}
      {rest : List (String × Json)} {read : List (String × Reading)} {store next : Store} :
      fieldOf? fields key = none →
      Reads m (.populate occurrence.entity fields depth rest) store (.object occurrence read)
        next →
      Reads m (.populate occurrence.entity fields depth ((key, json) :: rest)) store
        (.object occurrence read) next

end Materializer

/-! ## Entities that are there -/

namespace Store

variable {a b c store : Store} {entity : EntityId}

/-- What a cache leads to is there. -/
def Stored (store : Store) : Prop :=
  ∀ ⦃key entity⦄, store.cache.lookup key = some entity → ∃ type, store.typeOf? entity = some type

/-- The populated fields of an entity, with their values. -/
def fields (store : Store) (entity : EntityId) : List (String × Value) :=
  ((store.heap.entity? entity).map Entity.fields).getD []

/-- Entities may have been made, but no field was set. -/
structure SameFields (a b : Store) : Prop where
  types : a.KeepsTypes b
  fields : ∀ entity, b.fields entity = a.fields entity

theorem SameFields.trans (hab : a.SameFields b) (hbc : b.SameFields c) : a.SameFields c :=
  ⟨hab.types.trans hbc.types, fun entity => (hbc.fields entity).trans (hab.fields entity)⟩

/-- What entering an object keeps to. -/
abbrev Prepares (a b : Store) : Prop := After Stored SameFields a b

theorem Prepares.refl (h : a.Stored) : Prepares a a :=
  ⟨h, .refl a, fun _ => rfl⟩

theorem Prepares.trans (hab : Prepares a b) (hbc : Prepares b c) : Prepares a c :=
  ⟨hbc.inv, hab.rel.trans hbc.rel⟩

theorem fields_allocate (store : Store) (type : TypeRef) (entity : EntityId) :
    fields { store with heap := store.heap.allocate type } entity = store.fields entity := by
  by_cases hnext : entity = store.heap.next
  · simp [fields, Heap.entity?_allocate, hnext, Heap.entity?_next]
  · simp [fields, Heap.entity?_allocate, hnext]

theorem prepares_allocate (h : store.Stored) (type : TypeRef) :
    Prepares store { store with heap := store.heap.allocate type } := by
  have htypes := store.keepsTypes_allocate type
  refine ⟨fun key entity hkey => ?_, htypes, store.fields_allocate type⟩
  rcases h hkey with ⟨found, hfound⟩
  exact ⟨found, htypes.typeOf hfound⟩

theorem prepares_register (h : store.Stored) {type : TypeRef}
    (htype : store.typeOf? entity = some type) (expected : TypeRef) (id : String) :
    Prepares store { store with cache := (store.cache.getOrInsert expected id entity).2 } := by
  refine ⟨fun key found hkey => ?_, ⟨fun hfound => hfound⟩, fun _ => rfl⟩
  rcases Cache.lookup_eq_some_of_getOrInsert hkey with hold | ⟨-, rfl⟩
  · exact h hold
  · exact ⟨type, htype⟩

end Store

namespace Materializer

variable {m : Materializer} {store : Store} {expected type : TypeRef} {id : String}
  {members : List (String × Json)} {entity : EntityId}

theorem prepares_registerAliases (h : store.Stored) (htype : store.typeOf? entity = some type)
    (id : String) (types : List TypeRef) :
    Ensures (registerAliases id entity types) store store.Prepares fun _ _ => True := by
  induction types generalizing store with
  | nil => exact .pure (.refl h) trivial
  | cons expected rest ih =>
      rw [registerAliases]
      refine .bind_of_eq (Materialization.runOn_register expected id entity) ?_
      have hnext := Store.prepares_register h htype expected id
      split
      · exact (ih hnext.inv (hnext.rel.types.typeOf htype)).mono (fun _ => hnext.trans)
          fun _ _ _ hdone => hdone
      · exact .throw hnext

theorem prepares_construct (h : store.Stored) (m : Materializer) (type : TypeRef) (id : String) :
    Ensures (m.construct type id) store store.Prepares fun entity next =>
      ∃ found, next.typeOf? entity = some found := by
  unfold construct
  refine .lift_bind (.refl h) fun concrete _ => ?_
  refine .bind_of_eq (Materialization.runOn_create concrete) ?_
  refine .bind_of_eq (Materialization.runOn_register concrete id store.heap.next) ?_
  have hcreated := Store.prepares_allocate h concrete
  have hregistered := hcreated.trans (Store.prepares_register hcreated.inv
    (store.typeOf?_allocate_next concrete) concrete id)
  -- The entity is the one that was made, or one that the cache had.
  obtain ⟨found, hfound⟩ := hregistered.inv (Cache.lookup_getOrInsert_self _ _ _ _)
  have haliases := prepares_registerAliases hregistered.inv hfound id (m.aliases type concrete)
  refine Ensures.mono (After.bind haliases Store.SameFields.trans fun _ next hnext _ => ?_)
    (fun _ => hregistered.trans) fun _ _ _ hsuccess => hsuccess
  exact .pure (Store.Prepares.refl hnext.inv) ⟨found, hnext.rel.types.typeOf hfound⟩

/-- The entity that an object is resolved to is there, and has no field yet that it did not have. -/
theorem prepares_resolve (h : store.Stored) (m : Materializer) (expected : TypeRef)
    (members : List (String × Json)) :
    Ensures (m.resolve expected members) store store.Prepares fun found next =>
      ∃ type, next.typeOf? found.1 = some type := by
  unfold resolve
  refine .lift_bind (.refl h) fun found _ => ?_
  dsimp only
  refine .lift_bind (.refl h) fun id _ => ?_
  cases id with
  | none =>
      -- Nothing identifies the object, and no key is bound for it.
      refine .lift_bind (.refl h) fun concrete _ => ?_
      refine .bind_of_eq (Materialization.runOn_create concrete) ?_
      exact .pure (Store.prepares_allocate h concrete)
        ⟨concrete, store.typeOf?_allocate_next concrete⟩
  | some id =>
      refine .same_bind (ensures_checkRegistered _ _ _ _) (.refl h) fun _ _ => ?_
      refine .get_bind ?_
      split
      · next present hpresent => exact .pure (.refl h) (h hpresent)
      · -- The identity is new, so the entity is made and registered.
        exact (prepares_construct h m _ id).bind fun entity next hnext hfound =>
          .pure hnext hfound

theorem prepares_enter (h : store.Stored) (m : Materializer) (expected : TypeRef)
    (members : List (String × Json)) :
    Ensures (m.enter expected members) store store.Prepares fun _ _ => True := by
  unfold enter
  refine (prepares_resolve h m expected members).bind fun found next hnext _ => ?_
  exact .same_bind (m.ensures_fieldsOf found.1 found.2 members next) hnext fun _ _ =>
    .pure hnext trivial

end Materializer

/-! ## Runs -/

namespace Store

variable {a b c store : Store}

/-- The names of the populated fields of an entity. -/
def fieldNames (store : Store) (entity : EntityId) : List String :=
  (store.fields entity).map Prod.fst

/-- Entities keep their types, and their fields in the order in which they have them. -/
structure Populates (a b : Store) : Prop where
  types : a.KeepsTypes b
  names : ∀ entity, a.fieldNames entity <+: b.fieldNames entity

theorem Populates.refl (a : Store) : a.Populates a :=
  ⟨.refl a, fun _ => List.prefix_rfl⟩

theorem Populates.trans (hab : a.Populates b) (hbc : b.Populates c) : a.Populates c :=
  ⟨hab.types.trans hbc.types, fun entity => (hab.names entity).trans (hbc.names entity)⟩

theorem SameFields.populates (h : a.SameFields b) : a.Populates b := by
  refine ⟨h.types, fun entity => ?_⟩
  have hnames : b.fieldNames entity = a.fieldNames entity :=
    congrArg (List.map Prod.fst) (h.fields entity)
  exact hnames ▸ List.prefix_rfl

theorem fields_set (store : Store) {entity : EntityId} {type : TypeRef}
    (htype : store.typeOf? entity = some type) (field : String) (v : Value) (other : EntityId) :
    fields { store with heap := store.heap.set entity field v } other =
      if entity = other then Keyed.put Prod.fst (field, v) (store.fields other)
      else store.fields other := by
  rcases Option.map_eq_some_iff.1 htype with ⟨found, hfound, -⟩
  by_cases hset : entity = other
  · subst hset
    simp [fields, Heap.entity?_set, hfound, Entity.set]
  · simp [fields, Heap.entity?_set, hset]

/-- A field that is set keeps its place, and a new one comes last. -/
theorem populates_set (store : Store) (entity : EntityId) (field : String) (v : Value) :
    store.Populates { store with heap := store.heap.set entity field v } := by
  refine ⟨store.keepsTypes_set entity field v, fun other => ?_⟩
  cases htype : store.typeOf? entity with
  | some type =>
      rw [fieldNames, fieldNames, store.fields_set htype]
      split
      · rw [Keyed.map_key_put]
        split
        · exact List.prefix_rfl
        · exact List.prefix_append _ _
      · exact List.prefix_rfl
  | none =>
      -- Nothing is changed where no entity is.
      have habsent : store.heap.entity? entity = none := by simpa [typeOf?] using htype
      by_cases hset : entity = other
      · subst hset
        simp [fieldNames, fields, Heap.entity?_set, habsent]
      · simp [fieldNames, fields, Heap.entity?_set, hset]

theorem Stored.set (h : store.Stored) (entity : EntityId) (field : String) (v : Value) :
    Stored { store with heap := store.heap.set entity field v } := by
  intro key found hkey
  rcases h hkey with ⟨type, htype⟩
  exact ⟨type, (store.keepsTypes_set entity field v).typeOf htype⟩

end Store

namespace Materializer

variable {m : Materializer} {store next : Store}

/-- Every run keeps what is there, and the order of fields. -/
theorem keepsPopulates (m : Materializer) : m.Keeps Store.Stored Store.Populates where
  refl := .refl
  trans := .trans
  fits_mono _ _ := trivial
  owns_mono _ _ := trivial
  null _ := trivial
  item _ _ := trivial
  list _ _ := trivial
  leaf _ _ := trivial
  enter := by
    intro store _ _ expected members _ _ _ hstored
    exact (prepares_enter hstored m expected members).mono
      (fun _ hnext => ⟨hnext.inv, hnext.rel.populates⟩) fun _ _ _ _ => ⟨trivial, trivial⟩
  field _ _ := trivial
  assign hstored _ _ _ := ⟨hstored.set _ _ _, Store.populates_set _ _ _ _⟩

theorem leaf_eq_ok {type : GraphType} {json : Json} {v : Value} (h : m.leaf type json = .ok v) :
    v = .leaf json := by
  unfold leaf at h
  split at h
  · cases h
    rfl
  · split at h
    · split at h <;> cases h
      rfl
    · cases h
  · cases h
  · cases h

/-- An object is entered by resolving it to an entity that is there, and the fields that its members
give values to are those of the type of this entity. -/
theorem resolve_of_enter {expected : TypeRef} {members : List (String × Json)} {entity : EntityId}
    {fields : List Field} (hstored : store.Stored)
    (h : runOn (m.enter expected members) store = (.ok (entity, fields), next)) :
    ∃ id type, runOn (m.resolve expected members) store = (.ok (entity, id), next) ∧
      next.typeOf? entity = some type ∧ fields = (m.schema.fields? type).getD [] := by
  rcases Materialization.runOn_bind_eq_ok h with ⟨⟨found, id⟩, mid, hresolve, h⟩
  rcases Materialization.runOn_bind_eq_ok h with ⟨read, last, hfields, h⟩
  cases h
  rcases (prepares_resolve hstored m expected members).of_ok hresolve with ⟨-, type, htype⟩
  -- Asking for the fields leaves the store as it is.
  rcases (m.ensures_fieldsOf entity id members mid).of_ok hfields with ⟨rfl, hdeclared⟩
  exact ⟨id, type, hresolve, htype, (hdeclared type htype).1⟩

/-- What is read of a value that materializes. -/
def HasReading (m : Materializer) (json : Json) : Prop :=
  ∀ {type : GraphType} {depth : Nat} {store next : Store} {v : Value}, store.Stored →
    runOn (m.value type depth json) store = (.ok v, next) →
      ∃ reading, m.Reads (.value type depth json) store reading next ∧ reading.value = v

theorem exists_reading_leaf {type : GraphType} {depth : Nat} {json : Json} {v : Value}
    (hne : json ≠ .null)
    (h : runOn (do m.checkDepth depth; m.leaf type.nullable json) store = (.ok v, next)) :
    ∃ reading, m.Reads (.value type depth json) store reading next ∧ reading.value = v := by
  rcases Materialization.runOn_bind_eq_ok h with ⟨_, mid, hdepth, h⟩
  cases Materialization.same_of_runOn_lift hdepth
  rcases Materialization.runOn_lift_eq_ok h with ⟨hleaf, rfl⟩
  obtain rfl := leaf_eq_ok hleaf
  exact ⟨.leaf json, .leaf hne hleaf, rfl⟩

theorem exists_reading_items {type : GraphType} {depth : Nat} {elements : List Json}
    {values : List Value} (hall : ∀ json ∈ elements, m.HasReading json) (hstored : store.Stored)
    (h : runOn (m.items type depth elements) store = (.ok values, next)) :
    ∃ read, m.Reads (.items type depth elements) store (.list read) next ∧
      Reading.values read = values := by
  -- Each item starts with the store that the one before has left.
  induction elements generalizing store values with
  | nil =>
      rw [items] at h
      cases h
      exact ⟨[], .noItem, rfl⟩
  | cons json rest ih =>
      rcases List.forall_mem_cons.1 hall with ⟨hjson, hrest⟩
      rw [items] at h
      rcases Materialization.runOn_bind_eq_ok h with ⟨first, mid, hfirst, h⟩
      rcases Materialization.runOn_bind_eq_ok h with ⟨others, last, hothers, h⟩
      cases h
      rcases hjson hstored hfirst with ⟨reading, hreads, rfl⟩
      have hmid := m.keepsPopulates.after_value hfirst hstored
      rcases ih hrest hmid.inv hothers with ⟨read, hread, rfl⟩
      exact ⟨reading :: read, .item hreads hread, rfl⟩

theorem exists_reading_populate {fields : List Field} {depth : Nat}
    {members : List (String × Json)} (hall : ∀ member ∈ members, m.HasReading member.2)
    (hstored : store.Stored) (occurrence : Occurrence)
    (h : runOn (m.populate occurrence.entity fields depth members) store = (.ok (), next)) :
    ∃ read, m.Reads (.populate occurrence.entity fields depth members) store
      (.object occurrence read) next := by
  induction members generalizing store with
  | nil =>
      rw [populate] at h
      cases h
      exact ⟨[], .noMember⟩
  | cons member rest ih =>
      rcases member with ⟨key, json⟩
      rcases List.forall_mem_cons.1 hall with ⟨hjson, hrest⟩
      -- A member that is no field leaves no trace in what is read.
      cases hfield : fieldOf? fields key with
      | none =>
          rw [populate_of_skip hfield] at h
          rcases ih hrest hstored h with ⟨read, hread⟩
          exact ⟨read, .skip hfield hread⟩
      | some field =>
          rw [populate_of_field hfield] at h
          rcases Materialization.runOn_bind_eq_ok h with ⟨v, mid, hv, h⟩
          rw [Materialization.runOn_bind_of_ok (Materialization.runOn_assign _ _ _)] at h
          rcases hjson hstored hv with ⟨reading, hreads, rfl⟩
          have hmid := m.keepsPopulates.after_value hv hstored
          rcases ih hrest (hmid.inv.set _ _ _) h with ⟨read, hread⟩
          exact ⟨(field.name, reading) :: read, .member hfield hreads hread⟩

/-- Whatever materializes is read, as the value that it materializes to. -/
theorem hasReading (m : Materializer) (json : Json) : m.HasReading json := by
  induction json with
  | null =>
      intro type depth store next v _ h
      rw [value] at h
      rcases Materialization.runOn_bind_eq_ok h with ⟨_, mid, hdepth, h⟩
      cases Materialization.same_of_runOn_lift hdepth
      split at h
      · next hnull =>
          cases h
          exact ⟨.null, .null hnull, rfl⟩
      · cases h
  | bool _ | number _ | string _ =>
      intro type depth store next v _ h
      rw [value] at h
      · exact exists_reading_leaf (by simp) h
      all_goals simp
  | array elements ih =>
      intro type depth store next v hstored h
      rw [value] at h
      split at h
      · next item hitem =>
          rcases Materialization.runOn_bind_eq_ok h with ⟨_, mid, hdepth, h⟩
          cases Materialization.same_of_runOn_lift hdepth
          rcases Materialization.runOn_bind_eq_ok h with ⟨values, last, hvalues, h⟩
          cases h
          rcases exists_reading_items ih hstored hvalues with ⟨read, hread, rfl⟩
          exact ⟨.list read, .list hitem hread, rfl⟩
      · exact exists_reading_leaf (by simp) h
  | object members ih =>
      intro type depth store next v hstored h
      by_cases hobject : ∃ kind expected, type.nullable = .named kind expected ∧
          kind.isComposite = true
      · rcases hobject with ⟨kind, expected, hnullable, hkind⟩
        rw [m.value_object hnullable hkind] at h
        rcases Materialization.runOn_bind_eq_ok h with ⟨_, start, hdepth, h⟩
        cases Materialization.same_of_runOn_lift hdepth
        rcases Materialization.runOn_bind_eq_ok h with ⟨⟨entity, fields⟩, mid, henter, h⟩
        rcases Materialization.runOn_bind_eq_ok h with ⟨_, last, hpopulate, h⟩
        cases h
        rcases resolve_of_enter hstored henter with ⟨id, concrete, hresolve, htype, rfl⟩
        have hmid := m.keepsPopulates.after_enter hnullable hkind henter hstored
        rcases exists_reading_populate ih hmid.inv ⟨m, expected, members, entity⟩ hpopulate with
          ⟨read, hread⟩
        exact ⟨_, .object hnullable hkind hresolve htype hread, rfl⟩
      · rw [m.value_of_not_composite hobject] at h
        exact exists_reading_leaf (by simp) h

/-! ## One reading -/

/-- Readings of a task that are one. The members of an object do not say which object they are
of. -/
def SameReading (task : Task) (r s : Reading) : Prop :=
  match task with
  | .value _ _ _ => r = s
  | .items _ _ _ => r = s
  | .populate _ _ _ _ => ∃ o other fields, r = .object o fields ∧ s = .object other fields

theorem leaf_list_ne_ok {item : GraphType} {json : Json} {v : Value} :
    m.leaf (.list item) json ≠ .ok v := nofun

theorem leaf_composite_ne_ok {kind : TypeKind} {type : TypeRef} {json : Json} {v : Value}
    (hkind : kind.isComposite = true) : m.leaf (.named kind type) json ≠ .ok v := by
  cases kind with
  | scalar | enum | inputObject => cases hkind
  | object | interface | union => nofun

section Members

variable {entity : EntityId} {fields : List Field} {field : Field} {depth : Nat} {key : String}
  {json : Json} {rest : List (String × Json)} {reading : Reading}

theorem reads_noMember (h : m.Reads (.populate entity fields depth []) store reading next) :
    (∃ o, reading = .object o []) ∧ store = next := by
  cases h with
  | noMember => exact ⟨⟨_, rfl⟩, rfl⟩

theorem reads_member (hfield : fieldOf? fields key = some field)
    (h : m.Reads (.populate entity fields depth ((key, json) :: rest)) store reading next) :
    ∃ o first others mid, reading = .object o ((field.name, first) :: others) ∧
      m.Reads (.value field.type depth json) store first mid ∧
      m.Reads (.populate entity fields depth rest)
        { mid with heap := mid.heap.set entity field.name first.value } (.object o others)
        next := by
  cases h with
  | member hfield' hfirst hrest =>
      cases hfield.symm.trans hfield'
      exact ⟨_, _, _, _, rfl, hfirst, hrest⟩
  | skip hnone => exact absurd (hfield.symm.trans hnone) nofun

theorem reads_skip (hfield : fieldOf? fields key = none)
    (h : m.Reads (.populate entity fields depth ((key, json) :: rest)) store reading next) :
    ∃ o read, reading = .object o read ∧
      m.Reads (.populate entity fields depth rest) store (.object o read) next := by
  cases h with
  | member hfield' => exact absurd (hfield.symm.trans hfield') nofun
  | skip _ hrest => exact ⟨_, _, rfl, hrest⟩

end Members

/-- A task that starts with a store is read in one way only. -/
theorem Reads.unique {task : Task} {store next last : Store} {reading other : Reading}
    (h : m.Reads task store reading next) (hother : m.Reads task store other last) :
    SameReading task reading other ∧ next = last := by
  -- By the first reading. For a value, its JSON and its type leave one rule, since nothing that has
  -- a leaf as its value has a list type or a composite one.
  induction h generalizing other last with
  | null =>
      cases hother with
      | null => exact ⟨rfl, rfl⟩
      | leaf hne => exact absurd rfl hne
  | leaf hne hleaf =>
      cases hother with
      | null => exact absurd rfl hne
      | leaf => exact ⟨rfl, rfl⟩
      | list hlist => exact absurd (hlist ▸ hleaf) leaf_list_ne_ok
      | object hnamed hkind => exact absurd (hnamed ▸ hleaf) (leaf_composite_ne_ok hkind)
  | list hlist _ ih =>
      cases hother with
      | leaf _ hleaf => exact absurd (hlist ▸ hleaf) leaf_list_ne_ok
      | list hlist' hread =>
          cases hlist.symm.trans hlist'
          exact ih hread
  | object hnamed hkind hresolve htype _ ih =>
      cases hother with
      | leaf _ hleaf => exact absurd (hnamed ▸ hleaf) (leaf_composite_ne_ok hkind)
      | object hnamed' _ hresolve' htype' hread =>
          cases hnamed.symm.trans hnamed'
          cases hresolve.symm.trans hresolve'
          cases htype.symm.trans htype'
          rcases ih hread with ⟨⟨_, _, _, heq, heq'⟩, rfl⟩
          cases heq
          cases heq'
          exact ⟨rfl, rfl⟩
  | noItem =>
      cases hother
      exact ⟨rfl, rfl⟩
  | item _ _ ihFirst ihRest =>
      cases hother with
      | item hfirst hrest =>
          rcases ihFirst hfirst with ⟨rfl, rfl⟩
          rcases ihRest hrest with ⟨hsame, rfl⟩
          cases hsame
          exact ⟨rfl, rfl⟩
  | noMember =>
      rcases reads_noMember hother with ⟨⟨o, rfl⟩, rfl⟩
      exact ⟨⟨_, o, _, rfl, rfl⟩, rfl⟩
  | member hfield _ _ ihFirst ihRest =>
      rcases reads_member hfield hother with ⟨o, first, others, mid, rfl, hfirst, hrest⟩
      rcases ihFirst hfirst with ⟨rfl, rfl⟩
      rcases ihRest hrest with ⟨⟨_, _, _, heq, heq'⟩, rfl⟩
      cases heq
      cases heq'
      exact ⟨⟨_, o, _, rfl, rfl⟩, rfl⟩
  | skip hfield _ ih =>
      rcases reads_skip hfield hother with ⟨o, read, rfl, hrest⟩
      rcases ih hrest with ⟨⟨_, _, _, heq, heq'⟩, rfl⟩
      cases heq
      cases heq'
      exact ⟨⟨_, o, _, rfl, rfl⟩, rfl⟩

end Materializer

end GraphQuery
