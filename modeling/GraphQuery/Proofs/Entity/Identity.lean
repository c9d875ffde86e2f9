import GraphQuery.Proofs.Entity.Trace

/-!
# Entity.Identity — one entity per identity

The cache binds a type name and an identity to one entity for good. What is bound was bound under
the same identity before or is new, so no entity has two identities, and an entity that was made
without one never gets one.

- `Store.Extends` : what every change of a store keeps to
- `Store.Coherent` : entities in the cache exist and have one identity
- `Registering` : an entity while it is registered under one type after the other
- `Materializer.Identifies`, `Store.Yields` : what an object says it is, and the entity it becomes
- `Materializer.keepsExtends` : every run keeps to these
- `Store.keepsIdentity_afterAll` : identity over sequences of calls
-/

set_option autoImplicit false

namespace GraphQuery

open Materialization (Ensures runOn)
open Materializer (After)

namespace Store

variable {a b c store : Store} {id : String} {entity : EntityId}

def Has (store : Store) (entity : EntityId) : Prop :=
  (store.heap.entity? entity).isSome = true

/-- An identity can be given to an entity that has it already, or that is not there yet. -/
def Admissible (store : Store) (id : String) (entity : EntityId) : Prop :=
  (∃ key, key.id = id ∧ store.cache.lookup key = some entity) ∨ ¬ store.Has entity

/-- Bindings and entities stay, and what is bound in addition may be. -/
structure Extends (a b : Store) : Prop where
  kept : ∀ {key entity}, a.cache.lookup key = some entity → b.cache.lookup key = some entity
  has : ∀ {entity}, a.Has entity → b.Has entity
  bound : ∀ {key entity}, b.cache.lookup key = some entity → a.Admissible key.id entity

theorem Extends.refl (a : Store) : Extends a a where
  kept h := h
  has h := h
  bound h := .inl ⟨_, rfl, h⟩

theorem Extends.admissible (h : Extends a b) (hb : b.Admissible id entity) :
    a.Admissible id entity := by
  rcases hb with ⟨key, rfl, hkey⟩ | hnew
  · exact h.bound hkey
  · exact .inr fun hold => hnew (h.has hold)

theorem Extends.trans (hab : Extends a b) (hbc : Extends b c) : Extends a c where
  kept h := hbc.kept (hab.kept h)
  has h := hbc.has (hab.has h)
  bound h := hab.admissible (hbc.bound h)

structure Coherent (store : Store) : Prop where
  stored : ∀ {key entity}, store.cache.lookup key = some entity → store.Has entity
  oneId : ∀ {key other entity}, store.cache.lookup key = some entity →
    store.cache.lookup other = some entity → key.id = other.id

/-- What every run keeps to. -/
abbrev Grows (a b : Store) : Prop := After Coherent Extends a b

theorem Grows.refl (h : a.Coherent) : Grows a a :=
  ⟨h, .refl a⟩

theorem Grows.trans (hab : Grows a b) (hbc : Grows b c) : Grows a c :=
  ⟨hbc.inv, hab.rel.trans hbc.rel⟩

/-- An entity that has no identity never gets one. -/
theorem Extends.unbound (h : Extends a b) (hhas : a.Has entity)
    (hunbound : ∀ key, a.cache.lookup key ≠ some entity) (key : CacheKey) :
    b.cache.lookup key ≠ some entity := by
  intro hkey
  rcases h.bound hkey with ⟨old, -, hold⟩ | hnew
  · exact hunbound old hold
  · exact hnew hhas

/-! ## Changes of the heap -/

theorem has_allocate (type : TypeRef) (h : store.Has entity) :
    Has { store with heap := store.heap.allocate type } entity := by
  by_cases hnext : entity = store.heap.next
  · simp [Has, Heap.entity?_allocate, hnext]
  · simpa [Has, Heap.entity?_allocate, hnext] using h

theorem has_next (store : Store) (type : TypeRef) :
    Has { store with heap := store.heap.allocate type } store.heap.next := by
  simp [Has, Heap.entity?_allocate]

theorem not_has_next (store : Store) : ¬ store.Has store.heap.next := by
  simp [Has, Heap.entity?_next]

theorem has_set (changed : EntityId) (field : String) (value : Value) (h : store.Has entity) :
    Has { store with heap := store.heap.set changed field value } entity := by
  by_cases hset : changed = entity
  · simpa [Has, Heap.entity?_set, hset] using h
  · simpa [Has, Heap.entity?_set, hset] using h

theorem grows_of_heap (hc : store.Coherent) {heap : Heap}
    (h : ∀ {entity}, store.Has entity → Has { store with heap } entity) :
    Grows store { store with heap } where
  inv := ⟨fun hkey => h (hc.stored hkey), hc.oneId⟩
  rel := ⟨fun hkey => hkey, h, fun hkey => .inl ⟨_, rfl, hkey⟩⟩

end Store

/-! ## Registering -/

/-- An entity on its way into the cache under an identity, since a store that may be from before
the entity was made. -/
structure Registering (origin : Store) (id : String) (entity : EntityId) (store : Store) :
    Prop where
  grows : origin.Grows store
  admissible : origin.Admissible id entity
  has : store.Has entity
  only : ∀ {key}, store.cache.lookup key = some entity → key.id = id

namespace Registering

variable {origin store : Store} {id : String} {entity : EntityId}

theorem register (h : Registering origin id entity store) (type : TypeRef) :
    Registering origin id entity
      { store with cache := (store.cache.getOrInsert type id entity).2 } where
  grows := by
    -- In each case, what is bound was bound before, or is the entity under its one identity.
    refine ⟨⟨?_, ?_⟩, ⟨?_, h.grows.rel.has, ?_⟩⟩
    · intro key found hfound
      rcases Cache.lookup_eq_some_of_getOrInsert hfound with hold | ⟨-, rfl⟩
      · exact h.grows.inv.stored hold
      · exact h.has
    · intro key other found hkey hother
      rcases Cache.lookup_eq_some_of_getOrInsert hkey with hkeyOld | ⟨rfl, rfl⟩
      · rcases Cache.lookup_eq_some_of_getOrInsert hother with hotherOld | ⟨rfl, rfl⟩
        · exact h.grows.inv.oneId hkeyOld hotherOld
        · exact h.only hkeyOld
      · rcases Cache.lookup_eq_some_of_getOrInsert hother with hotherOld | ⟨rfl, -⟩
        · exact (h.only hotherOld).symm
        · rfl
    · intro key found hkey
      exact Cache.lookup_getOrInsert_kept (h.grows.rel.kept hkey)
    · intro key found hfound
      rcases Cache.lookup_eq_some_of_getOrInsert hfound with hold | ⟨rfl, rfl⟩
      · exact h.grows.rel.bound hold
      · exact h.admissible
  admissible := h.admissible
  has := h.has
  only := by
    intro key hkey
    rcases Cache.lookup_eq_some_of_getOrInsert hkey with hold | ⟨rfl, -⟩
    · exact h.only hold
    · rfl

/-- On success, the entity is bound under all of the types and wherever it was before. -/
theorem ensures_registerAliases (h : Registering origin id entity store) (types : List TypeRef) :
    Ensures (Materializer.registerAliases id entity types) store origin.Grows fun _ next =>
      (∀ key, store.cache.lookup key = some entity → next.cache.lookup key = some entity) ∧
        ∀ type ∈ types, next.cache.lookup ⟨type.name, id⟩ = some entity := by
  -- Each registration leaves the entity on its way into the cache, also when it fails.
  induction types generalizing store with
  | nil => exact .pure h.grows ⟨fun _ hkey => hkey, nofun⟩
  | cons type rest ih =>
      rw [Materializer.registerAliases]
      refine .bind_of_eq (Materialization.runOn_register type id entity) ?_
      have hnext := h.register type
      split
      · next hregistered =>
          refine (ih hnext).mono (fun _ hgrows => hgrows) fun _ next _ hsuccess => ?_
          refine ⟨fun key hkey => hsuccess.1 key (Cache.lookup_getOrInsert_kept hkey), ?_⟩
          have hbound : (store.cache.getOrInsert type id entity).2.lookup ⟨type.name, id⟩ =
              some entity := by
            rw [Cache.lookup_getOrInsert_self, hregistered]
          exact List.forall_mem_cons.2 ⟨hsuccess.1 _ hbound, hsuccess.2⟩
      · exact .throw hnext.grows

/-- A new entity for an identity becomes the one that its object type has, if there is one. -/
theorem of_create (hc : store.Coherent) (concrete : TypeRef) (id : String) :
    Registering store id
      (store.cache.getOrInsert concrete id store.heap.next).1
      ⟨store.heap.allocate concrete,
        (store.cache.getOrInsert concrete id store.heap.next).2⟩ := by
  have hgrows := Store.grows_of_heap hc (Store.has_allocate concrete)
  cases hpresent : store.cache.get? concrete id with
  | some present =>
      rw [Cache.getOrInsert_of_some hpresent]
      exact {
        grows := hgrows
        admissible := .inl ⟨_, rfl, hpresent⟩
        has := hgrows.inv.stored hpresent
        only := fun hkey => hc.oneId hkey hpresent }
  | none =>
      have hcreated : Registering store id store.heap.next
          { store with heap := store.heap.allocate concrete } := {
        grows := hgrows
        admissible := .inr store.not_has_next
        has := store.has_next concrete
        only := fun hkey => absurd (hc.stored hkey) store.not_has_next }
      have hfirst : (store.cache.getOrInsert concrete id store.heap.next).1 = store.heap.next := by
        have hself := Cache.lookup_getOrInsert_self store.cache concrete id store.heap.next
        have hnext : some store.heap.next =
            some (store.cache.getOrInsert concrete id store.heap.next).1 := by
          simpa [Cache.lookup_getOrInsert, hpresent] using hself
        exact (Option.some.inj hnext).symm
      rw [hfirst]
      exact hcreated.register concrete

end Registering

/-! ## What an object becomes -/

/-- What an object says it is: the type that it is resolved to, and its identity. -/
def Materializer.Identifies (m : Materializer) (expected : TypeRef)
    (members : List (String × Json)) (type : TypeRef) (id : Option String) : Prop :=
  ∃ found, m.discriminate expected members = .ok found ∧ type = found.getD expected ∧
    m.identity type members = .ok id

/-- The entity that an object becomes: with an identity it is the one that is bound to it, and
without one it is new and bound to nothing. -/
def Store.Yields (before : Store) (type : TypeRef) (id : Option String) (entity : EntityId)
    (store : Store) : Prop :=
  match id with
  | some id => store.cache.lookup ⟨type.name, id⟩ = some entity
  | none => ¬ before.Has entity ∧ store.Has entity ∧
      ∀ key, store.cache.lookup key ≠ some entity

theorem Store.Yields.extend {before a b : Store} {type : TypeRef} {id : Option String}
    {entity : EntityId} (h : before.Yields type id entity a) (hab : a.Extends b) :
    before.Yields type id entity b := by
  cases id with
  | some id => exact hab.kept h
  | none =>
      rcases h with ⟨hnew, hhas, hunbound⟩
      exact ⟨hnew, hab.has hhas, hab.unbound hhas hunbound⟩

namespace Materializer

variable {m : Materializer} {store : Store} {expected : TypeRef} {members : List (String × Json)}

theorem ensures_construct (hc : store.Coherent) (m : Materializer) (type : TypeRef)
    (id : String) :
    Ensures (m.construct type id) store store.Grows fun entity next =>
      next.cache.lookup ⟨type.name, id⟩ = some entity := by
  unfold construct
  refine .lift_bind (.refl hc) fun concrete _ => ?_
  refine .bind_of_eq (Materialization.runOn_create concrete) ?_
  refine .bind_of_eq (Materialization.runOn_register concrete id store.heap.next) ?_
  have hregistering := Registering.of_create hc concrete id
  refine (hregistering.ensures_registerAliases (m.aliases type concrete)).bind
    fun _ next hgrows hsuccess => ?_
  refine .pure hgrows ?_
  by_cases heq : type = concrete
  · -- The resolved type is the object type, which was registered first.
    rw [heq]
    exact hsuccess.1 _ (Cache.lookup_getOrInsert_self _ _ _ _)
  · have halias : type ∈ m.aliases type concrete := by simp [aliases, heq]
    exact hsuccess.2 type halias

theorem ensures_resolve (hc : store.Coherent) (m : Materializer) (expected : TypeRef)
    (members : List (String × Json)) :
    Ensures (m.resolve expected members) store store.Grows fun found next =>
      ∃ type, m.Identifies expected members type found.2 ∧
        store.Yields type found.2 found.1 next := by
  unfold resolve
  refine .lift_bind (.refl hc) fun found hfound => ?_
  dsimp only
  refine .lift_bind (.refl hc) fun id hid => ?_
  have hidentifies : m.Identifies expected members (found.getD expected) id :=
    ⟨found, hfound, rfl, hid⟩
  cases id with
  | none =>
      refine .lift_bind (.refl hc) fun concrete _ => ?_
      refine .bind_of_eq (Materialization.runOn_create concrete) ?_
      refine .pure (Store.grows_of_heap hc (Store.has_allocate concrete)) ?_
      refine ⟨_, hidentifies, store.not_has_next, store.has_next concrete, ?_⟩
      intro key hkey
      exact store.not_has_next (hc.stored hkey)
  | some id =>
      refine .same_bind (ensures_checkRegistered _ _ _ _) (.refl hc) fun _ _ => ?_
      refine .get_bind ?_
      split
      · next present hpresent => exact .pure (.refl hc) ⟨_, hidentifies, hpresent⟩
      · refine (ensures_construct hc m _ id).bind fun entity next hgrows hbound => ?_
        exact .pure hgrows ⟨_, hidentifies, hbound⟩

theorem ensures_enter (hc : store.Coherent) (m : Materializer) (expected : TypeRef)
    (members : List (String × Json)) :
    Ensures (m.enter expected members) store store.Grows fun found next =>
      ∃ type id, m.Identifies expected members type id ∧
        store.Yields type id found.1 next := by
  unfold enter
  refine (ensures_resolve hc m expected members).bind fun found next hgrows hyields => ?_
  rcases found with ⟨entity, id⟩
  rcases hyields with ⟨type, hidentifies, hyields⟩
  refine .same_bind (m.ensures_fieldsOf entity id members next) hgrows fun fields _ => ?_
  exact .pure hgrows ⟨type, id, hidentifies, hyields⟩

/-- Every run lets the store grow. -/
theorem keepsExtends (m : Materializer) : m.Keeps Store.Coherent Store.Extends where
  refl := .refl
  trans := .trans
  fits_mono _ _ := trivial
  owns_mono _ _ := trivial
  null _ := trivial
  item _ _ := trivial
  list _ _ := trivial
  leaf _ _ := trivial
  enter _ _ _ hc := (ensures_enter hc m _ _).mono (fun _ h => h) fun _ _ _ _ => ⟨trivial, trivial⟩
  field _ _ := trivial
  assign hc _ _ _ := Store.grows_of_heap hc (Store.has_set _ _ _)

/-- The entity of an object is the one it says it is. -/
theorem ensures_value_object (hc : store.Coherent) (m : Materializer) {type : GraphType}
    {kind : TypeKind} (htype : type.nullable = .named kind expected)
    (hkind : kind.isComposite = true) (depth : Nat) (members : List (String × Json)) :
    Ensures (m.value type depth (.object members)) store store.Grows fun v next =>
      ∃ type id entity, v = .object entity ∧ m.Identifies expected members type id ∧
        store.Yields type id entity next := by
  rw [m.value_object htype hkind]
  have d := m.keepsExtends
  refine .lift_bind (.refl hc) fun _ _ => ?_
  refine d.bind (ensures_enter hc m expected members) fun found next hnext hyields => ?_
  refine d.bind (d.populate_of_forall (fun member _ => d.value member.2) trivial hnext.inv)
    fun _ last hlast _ => ?_
  rcases hyields with ⟨type, id, hidentifies, hyields⟩
  -- Setting the fields lets the store grow, which takes nothing from the entity.
  have hyieldsLast := hyields.extend hlast.rel
  exact .pure (d.after_refl hlast.inv) ⟨type, id, found.1, rfl, hidentifies, hyieldsLast⟩

/-- What an object says it is can be read in one way only. -/
theorem Identifies.unique {type other : TypeRef} {id otherId : Option String}
    (h : m.Identifies expected members type id)
    (hother : m.Identifies expected members other otherId) : type = other ∧ id = otherId := by
  rcases h with ⟨found, hfound, rfl, hid⟩
  rcases hother with ⟨again, hagain, rfl, hotherId⟩
  have hsame : Except.ok found = Except.ok again := hfound.symm.trans hagain
  cases hsame
  have hsameId : Except.ok id = Except.ok otherId := hid.symm.trans hotherId
  cases hsameId
  exact ⟨rfl, rfl⟩

end Materializer

/-! ## Sequences of calls -/

namespace Store

variable {start : Store} {calls : List Call} {m : Materializer} {expected : TypeRef}
  {members : List (String × Json)} {before : Store} {entity : EntityId}

/-- In a sequence of calls, an object that is met where a composite type is expected materializes
to an entity. -/
def Materializes (start : Store) (calls : List Call) (m : Materializer) (expected : TypeRef)
    (members : List (String × Json)) (before : Store) (entity : EntityId) : Prop :=
  ∃ type kind depth, type.nullable = .named kind expected ∧ kind.isComposite = true ∧
    start.Meets calls m (.value type depth (.object members)) before ∧
    (runOn (m.value type depth (.object members)) before).1 = .ok (.object entity)

/-- What an object materializes to is still what it yields when all calls are over. -/
theorem Materializes.yields (hc : start.Coherent)
    (h : start.Materializes calls m expected members before entity) {type : TypeRef}
    {id : Option String} (hid : m.Identifies expected members type id) :
    before.Yields type id entity (start.afterAll calls) := by
  rcases h with ⟨expectedType, kind, depth, htype, hkind, hmeets, hok⟩
  -- The object is met in a coherent store, and what follows its run only lets the store grow.
  rcases hmeets.between Materializer.keepsExtends hc with ⟨hbefore, hend⟩
  have hobject :=
    (Materializer.ensures_value_object hbefore.inv m htype hkind depth members).success _ hok
  rcases hobject with ⟨found, foundId, foundEntity, heq, hfound, hyields⟩
  cases heq
  rcases hid.unique hfound with ⟨rfl, rfl⟩
  exact hyields.extend hend

/-- Identity in a sequence of calls that start with a store and share its cache. -/
structure KeepsIdentity (start : Store) (calls : List Call) : Prop where
  /-- What a key is bound to at any moment, it is bound to at the end. -/
  kept : ∀ {m task found key entity}, start.Meets calls m task found →
    found.cache.lookup key = some entity ∨ (task.after m found).cache.lookup key = some entity →
      (start.afterAll calls).cache.lookup key = some entity
  /-- An object with an identity is the entity that its type and identity are bound to. -/
  identified : ∀ {m expected members before entity type id},
    start.Materializes calls m expected members before entity →
    m.Identifies expected members type (some id) →
      (start.afterAll calls).cache.lookup ⟨type.name, id⟩ = some entity
  /-- Objects of one type and identity are one entity. -/
  shared : ∀ {m expected members before entity type n other membersOf otherBefore otherEntity
      otherType id},
    start.Materializes calls m expected members before entity →
    m.Identifies expected members type (some id) →
    start.Materializes calls n other membersOf otherBefore otherEntity →
    n.Identifies other membersOf otherType (some id) →
    type.name = otherType.name → entity = otherEntity
  /-- No entity has two identities. -/
  oneId : ∀ {key other entity}, (start.afterAll calls).cache.lookup key = some entity →
    (start.afterAll calls).cache.lookup other = some entity → key.id = other.id
  /-- An object without an identity is an entity that was not there before, and has none. -/
  unshared : ∀ {m expected members before entity type},
    start.Materializes calls m expected members before entity →
    m.Identifies expected members type none →
      before.heap.entity? entity = none ∧
        ∀ key, (start.afterAll calls).cache.lookup key ≠ some entity

theorem coherent_empty (heap : Heap) : Coherent ⟨heap, Cache.empty⟩ where
  stored := nofun
  oneId := nofun

/-- Whatever is materialized with whichever materializers, identity is kept from an empty cache
on. -/
theorem keepsIdentity_afterAll (heap : Heap) (calls : List Call) :
    KeepsIdentity ⟨heap, Cache.empty⟩ calls := by
  have hc := coherent_empty heap
  have hend := after_afterAll Materializer.keepsExtends hc calls
  exact {
    kept := by
      intro m task found key entity hmeets hkey
      rcases hmeets.between Materializer.keepsExtends hc with ⟨hfound, hlast⟩
      rcases hkey with hkey | hkey
      · -- Bound when the task starts, the key is bound when it is over.
        have hafter := (m.keepsExtends.after task hfound.inv).rel
        exact hlast.kept (hafter.kept hkey)
      · exact hlast.kept hkey
    identified := fun h hid => h.yields hc hid
    shared := by
      intro m expected members before entity type n other membersOf otherBefore otherEntity
        otherType id h hid hother hotherId hname
      -- Both are what one key is bound to when all calls are over.
      have hbound : (afterAll ⟨heap, Cache.empty⟩ calls).cache.lookup ⟨type.name, id⟩ =
          some entity := h.yields hc hid
      have hotherBound : (afterAll ⟨heap, Cache.empty⟩ calls).cache.lookup ⟨type.name, id⟩ =
          some otherEntity := by
        rw [hname]
        exact hother.yields hc hotherId
      exact Option.some.inj (hbound.symm.trans hotherBound)
    oneId := hend.inv.oneId
    unshared := by
      intro m expected members before entity type h hid
      rcases h.yields hc hid with ⟨hnew, -, hunbound⟩
      exact ⟨by simpa [Has] using hnew, hunbound⟩ }

end Store

/-- A shelf is read twice. The second time, the item behind the item behind the book is the book
of the first time. -/
theorem keepsIdentity_shelf :
    ∃ first again entity other,
      Store.empty.Materializes [shelfCall, shelfCall] shelfCall.materializer ⟨1, "Item"⟩
        shelfBook first entity ∧
      Store.empty.Materializes [shelfCall, shelfCall] shelfCall.materializer ⟨1, "Item"⟩
        [("id", .string "1")] again other ∧
      first.cache.lookup ⟨"Item", "1"⟩ = none ∧
      (Store.empty.afterAll [shelfCall, shelfCall]).cache.lookup ⟨"Book", "1"⟩ = some entity ∧
      (Store.empty.afterAll [shelfCall, shelfCall]).cache.lookup ⟨"Item", "1"⟩ = some other ∧
      entity = other := by
  have k := Store.keepsIdentity_afterAll Heap.empty [shelfCall, shelfCall]
  obtain ⟨first, hfirst, hfree⟩ : ∃ first,
      Store.empty.Materializes [shelfCall, shelfCall] shelfCall.materializer ⟨1, "Item"⟩
        shelfBook first ⟨0⟩ ∧ first.cache.lookup ⟨"Item", "1"⟩ = none :=
    ⟨_, ⟨.named .interface ⟨1, "Item"⟩, .interface, 1, rfl, rfl,
      ⟨[], shelfCall, [shelfCall], rfl, rfl, .items rfl rfl (.first .here)⟩, rfl⟩, rfl⟩
  obtain ⟨again, hreaches, hok⟩ : ∃ again,
      shelfCall.materializer.Reaches shelfCall.task (Store.empty.afterAll [shelfCall])
        (.value (.named .interface ⟨1, "Item"⟩) 3 (.object [("id", .string "1")])) again ∧
      (runOn (shelfCall.materializer.value (.named .interface ⟨1, "Item"⟩) 3
        (.object [("id", .string "1")])) again).1 = .ok (.object ⟨0⟩) :=
    -- Past the discriminator and the identity of the book, and past that of the other one.
    ⟨_, .items rfl rfl (.first (.members rfl rfl rfl rfl (.skip rfl (.others rfl rfl (.member rfl
      (.members rfl rfl rfl rfl (.others rfl rfl (.member rfl .here)))))))), rfl⟩
  have hagain : Store.empty.Materializes [shelfCall, shelfCall] shelfCall.materializer
      ⟨1, "Item"⟩ [("id", .string "1")] again ⟨0⟩ :=
    ⟨.named .interface ⟨1, "Item"⟩, .interface, 3, rfl, rfl,
      ⟨[shelfCall], shelfCall, [], rfl, rfl, hreaches⟩, hok⟩
  have hbook : shelfCall.materializer.Identifies ⟨1, "Item"⟩ shelfBook ⟨2, "Book"⟩ (some "1") :=
    ⟨_, rfl, rfl, rfl⟩
  have hitem : shelfCall.materializer.Identifies ⟨1, "Item"⟩ [("id", .string "1")]
      ⟨1, "Item"⟩ (some "1") := ⟨_, rfl, rfl, rfl⟩
  exact ⟨first, again, _, _, hfirst, hagain, hfree, k.identified hfirst hbook,
    k.identified hagain hitem, rfl⟩

end GraphQuery
