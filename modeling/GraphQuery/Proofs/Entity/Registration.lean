import GraphQuery.Proofs.Entity.Identity
import GraphQuery.Proofs.Entity.Steps
import GraphQuery.Proofs.Entity.Typing

/-!
# Entity.Registration — entities under all of their types

An entity is to be found under its own type and under every interface of that. It is registered
under its own type first. If an interface has another entity of the identity the call fails there,
but what was registered stays: only the entities of calls that are spared this are complete.

- `Store.BoundUnder`, `Store.Complete` : entities that are bound under the types they are owed
- `Store.Torn` : an entity of which an interface has another one
- `Store.Gains` : what registering one entity under one identity leaves
- `Leaves` : what the outcome of a computation says of the entities, with a rule for `>>=`
- `Store.complete_iff_no_duplicate` : a sequence of calls leaves all entities complete just when no
  call fails on a duplicate
-/

set_option autoImplicit false

namespace GraphQuery

open Materialization (Ensures runOn)
open Materializer (After)

namespace Store

variable {s : Schema} {a b c store : Store} {id : String} {entity other : EntityId}
  {type concrete : TypeRef} {owed : TypeRef → List TypeRef}

/-- What is bound with an identity is also bound with it under the types that an entity of its type
is owed. -/
def BoundUnder (owed : TypeRef → List TypeRef) (store : Store) : Prop :=
  ∀ key entity type, store.cache.lookup key = some entity → store.typeOf? entity = some type →
    ∀ other ∈ owed type, store.cache.lookup ⟨other.name, key.id⟩ = some entity

/-- Entities are bound under their own types. -/
def BoundUnderOwn (store : Store) : Prop :=
  store.BoundUnder fun type => [type]

/-- Entities are bound under their own types and the interfaces of these. -/
def Complete (s : Schema) (store : Store) : Prop :=
  store.BoundUnder fun type => type :: s.interfaces type

/-- An entity is bound under its own type, but an interface of that has another entity of the
identity. -/
def Torn (s : Schema) (store : Store) : Prop :=
  ∃ id entity type interface other, store.cache.lookup ⟨type.name, id⟩ = some entity ∧
    store.typeOf? entity = some type ∧ interface ∈ s.interfaces type ∧
      store.cache.lookup ⟨interface.name, id⟩ = some other ∧ other ≠ entity

/-- The other entity is where the entity ought to be. -/
theorem Torn.not_complete (h : store.Torn s) : ¬ store.Complete s := by
  rcases h with ⟨id, entity, type, interface, other, hkey, htype, hinterface, hother, hne⟩
  intro hcomplete
  have hbound : store.cache.lookup ⟨interface.name, id⟩ = some entity :=
    hcomplete _ entity type hkey htype interface (List.mem_cons_of_mem _ hinterface)
  exact hne (Option.some.inj (hother.symm.trans hbound))

/-- Nothing that is bound later mends it. -/
theorem Torn.mono (h : a.Torn s)
    (hkept : ∀ {key entity}, a.cache.lookup key = some entity → b.cache.lookup key = some entity)
    (htypes : a.KeepsTypes b) : b.Torn s := by
  rcases h with ⟨id, entity, type, interface, other, hkey, htype, hinterface, hother, hne⟩
  exact ⟨id, entity, type, interface, other, hkept hkey, htypes.typeOf htype, hinterface,
    hkept hother, hne⟩

/-- What was bound before is still bound where it is owed. -/
theorem BoundUnder.kept (hall : a.BoundUnder owed) (ha : a.WellTyped s) (htypes : a.KeepsTypes b)
    (hkept : ∀ {key found}, a.cache.lookup key = some found → b.cache.lookup key = some found)
    {key : CacheKey} (hkey : a.cache.lookup key = some entity)
    (htype : b.typeOf? entity = some type) {wanted : TypeRef} (hwanted : wanted ∈ owed type) :
    b.cache.lookup ⟨wanted.name, key.id⟩ = some entity := by
  rcases ha.key hkey with ⟨-, before, -, hbefore, -⟩
  obtain rfl : before = type := Option.some.inj ((htypes.typeOf hbefore).symm.trans htype)
  exact hkept (hall key entity before hkey hbefore wanted hwanted)

/-! ## One entity more -/

/-- Nothing is lost, and what is bound in addition is one entity under one identity. -/
structure Gains (id : String) (entity : EntityId) (a b : Store) : Prop where
  types : a.KeepsTypes b
  kept : ∀ {key found}, a.cache.lookup key = some found → b.cache.lookup key = some found
  gained : ∀ {key found}, b.cache.lookup key = some found →
    a.cache.lookup key = some found ∨ (key.id = id ∧ found = entity)

theorem Gains.refl (id : String) (entity : EntityId) (a : Store) : a.Gains id entity a where
  types := .refl a
  kept h := h
  gained h := .inl h

theorem Gains.trans (hab : Gains id entity a b) (hbc : Gains id entity b c) :
    Gains id entity a c where
  types := hab.types.trans hbc.types
  kept h := hbc.kept (hab.kept h)
  gained h := (hbc.gained h).elim hab.gained .inr

theorem gains_register (store : Store) (type : TypeRef) (id : String) (entity : EntityId) :
    Gains id entity store
      { store with cache := (store.cache.getOrInsert type id entity).2 } where
  types := ⟨fun htype => htype⟩
  kept h := Cache.lookup_getOrInsert_kept h
  gained h := by
    rcases Cache.lookup_eq_some_of_getOrInsert h with hold | ⟨rfl, rfl⟩
    · exact .inl hold
    · exact .inr ⟨rfl, rfl⟩

/-- A new entity is registered under its object type, and the entity that the key has then is the
only one that is bound in addition. -/
theorem gains_create (store : Store) (concrete : TypeRef) (id : String) :
    Gains id (store.cache.getOrInsert concrete id store.heap.next).1 store
      ⟨store.heap.allocate concrete,
        (store.cache.getOrInsert concrete id store.heap.next).2⟩ where
  types := ⟨(store.keepsTypes_allocate concrete).typeOf⟩
  kept h := Cache.lookup_getOrInsert_kept h
  gained := by
    intro key found h
    rcases Cache.lookup_eq_some_of_getOrInsert h with hold | ⟨rfl, -⟩
    · exact .inl hold
    · have hself := Cache.lookup_getOrInsert_self store.cache concrete id store.heap.next
      exact .inr ⟨rfl, Option.some.inj (h.symm.trans hself)⟩

/-- It is enough that the entity is bound under the types that it is owed: of those that were bound
before, nothing more is owed. -/
theorem Gains.boundUnder (h : Gains id entity a b) (ha : a.WellTyped s)
    (hentity : b.typeOf? entity = some concrete)
    (hbound : ∀ other ∈ owed concrete, b.cache.lookup ⟨other.name, id⟩ = some entity)
    (hall : a.BoundUnder owed) : b.BoundUnder owed := by
  intro key found type hkey htype other hother
  rcases h.gained hkey with hold | ⟨rfl, rfl⟩
  · exact hall.kept ha h.types h.kept hold htype hother
  · obtain rfl : concrete = type := Option.some.inj (hentity.symm.trans htype)
    exact hbound other hother

/-- Registering an entity under one type after the other ends with all of them done, or with one
that had another entity all along. -/
theorem registerAliases_cases (store : Store) (id : String) (entity : EntityId)
    (types : List TypeRef) :
    ∃ outcome next, runOn (Materializer.registerAliases id entity types) store = (outcome, next) ∧
      Gains id entity store next ∧
        ((outcome = .ok () ∧ ∀ type ∈ types, next.cache.lookup ⟨type.name, id⟩ = some entity) ∨
          ∃ type ∈ types, ∃ other, outcome = .error (.duplicateEntity type.name id) ∧
            store.cache.lookup ⟨type.name, id⟩ = some other ∧ other ≠ entity) := by
  induction types generalizing store with
  | nil => exact ⟨.ok (), store, rfl, .refl id entity store, .inl ⟨rfl, nofun⟩⟩
  | cons type rest ih =>
      have hnext := store.gains_register type id entity
      have hself := Cache.lookup_getOrInsert_self store.cache type id entity
      simp only [Materializer.registerAliases]
      rw [Materialization.runOn_bind_of_ok (Materialization.runOn_register type id entity)]
      by_cases hregistered : (store.cache.getOrInsert type id entity).1 = entity
      · simp only [hregistered, if_true]
        rcases ih { store with cache := (store.cache.getOrInsert type id entity).2 } with
          ⟨outcome, last, hrun, hgains, hcases⟩
        refine ⟨outcome, last, hrun, hnext.trans hgains, ?_⟩
        rcases hcases with ⟨hok, hall⟩ | ⟨found, hfound, other, herror, hother, hne⟩
        · have hbound : last.cache.lookup ⟨type.name, id⟩ = some entity := by
            refine hgains.kept ?_
            simpa [hregistered] using hself
          exact .inl ⟨hok, List.forall_mem_cons.2 ⟨hbound, hall⟩⟩
        · -- The other entity was there before this registration, which binds only the one.
          rcases hnext.gained hother with hold | ⟨-, rfl⟩
          · exact .inr ⟨found, List.mem_cons_of_mem type hfound, other, herror, hold, hne⟩
          · exact absurd rfl hne
      · simp only [hregistered, if_false]
        refine ⟨_, _, rfl, hnext, .inr ⟨type, List.mem_cons_self, _, rfl, ?_, hregistered⟩⟩
        rcases hnext.gained hself with hold | ⟨-, hsame⟩
        · exact hold
        · exact absurd hsame hregistered

end Store

/-! ## What a computation leaves -/

/-- What is said of the bound entities by whether a computation fails on a duplicate. -/
structure Leaves (s : Schema) (before : Store) (duplicate : Bool) (next : Store) : Prop where
  own : before.BoundUnderOwn → next.BoundUnderOwn
  complete : duplicate = false → before.Complete s → next.Complete s
  torn : duplicate = true → next.Torn s

/-- Whether the result of a computation is that it failed on a duplicate. -/
def failsOnDuplicate {α : Type} : Except MaterializeError α → Bool
  | .ok _ => false
  | .error e => e.isDuplicate

theorem eq_duplicateEntity {α : Type} {r : Except MaterializeError α}
    (h : failsOnDuplicate r = true) : ∃ typeName id, r = .error (.duplicateEntity typeName id) := by
  unfold failsOnDuplicate MaterializeError.isDuplicate at h
  split at h
  · cases h
  · split at h
    · exact ⟨_, _, rfl⟩
    · cases h

/-- What a computation that starts with a store leaves of it. -/
abbrev LeavesOn (s : Schema) {α : Type} (x : Materialization α) (store : Store) : Prop :=
  Leaves s store (failsOnDuplicate (runOn x store).1) (runOn x store).2

section Leaves

variable {s : Schema} {α β : Type} {x : Materialization α} {f : α → Materialization β}
  {a b c store next : Store} {r : Except MaterializeError α} {duplicate : Bool}

theorem Leaves.refl (s : Schema) (store : Store) : Leaves s store false store where
  own h := h
  complete _ h := h
  torn := nofun

theorem Leaves.trans (hab : Leaves s a false b) (hbc : Leaves s b duplicate c) :
    Leaves s a duplicate c where
  own h := hbc.own (hab.own h)
  complete hd h := hbc.complete hd (hab.complete rfl h)
  torn := hbc.torn

/-- A computation that binds nothing, whatever it does to the entities. -/
theorem Leaves.of_same_cache (h : store.WellTyped s) (htypes : store.KeepsTypes next)
    (hcache : next.cache = store.cache) : Leaves s store false next := by
  have hkept : ∀ {key found}, store.cache.lookup key = some found →
      next.cache.lookup key = some found := fun hkey => hcache ▸ hkey
  have hbound : ∀ owed, store.BoundUnder owed → next.BoundUnder owed := by
    intro owed hall key entity type hkey htype other hother
    exact hall.kept h htypes hkept (hcache ▸ hkey) htype hother
  exact ⟨hbound _, fun _ => hbound _, nofun⟩

/-- A computation that leaves the store as it is, and does not fail on a duplicate. -/
theorem LeavesOn.same {r : Except MaterializeError α} (h : runOn x store = (r, store))
    (hr : ∀ e, r = .error e → e.isDuplicate = false) : LeavesOn s x store := by
  have hfalse : failsOnDuplicate r = false := by
    cases r with
    | ok a => rfl
    | error e => exact hr e rfl
  simpa [LeavesOn, h, hfalse] using Leaves.refl s store

theorem LeavesOn.lift (hr : ∀ e, r = .error e → e.isDuplicate = false) :
    LeavesOn s (liftM r : Materialization α) store :=
  .same rfl hr

theorem LeavesOn.bind (hx : LeavesOn s x store)
    (hf : ∀ a next, runOn x store = (.ok a, next) → LeavesOn s (f a) next) :
    LeavesOn s (x >>= f) store := by
  rcases h : runOn x store with ⟨e | a, next⟩
  · simpa [LeavesOn, failsOnDuplicate, h, Materialization.runOn_bind_of_error h] using hx
  · have hfirst : Leaves s store false next := by simpa [LeavesOn, failsOnDuplicate, h] using hx
    have hboth : Leaves s store (failsOnDuplicate (runOn (f a) next).1) (runOn (f a) next).2 :=
      hfirst.trans (hf a next h)
    simpa [LeavesOn, Materialization.runOn_bind_of_ok h] using hboth

theorem LeavesOn.lift_bind (hr : ∀ e, r = .error e → e.isDuplicate = false)
    (hf : ∀ a, r = .ok a → LeavesOn s (f a) store) : LeavesOn s (liftM r >>= f) store := by
  refine (LeavesOn.lift hr).bind fun a next hrun => ?_
  cases r with
  | error e => cases hrun
  | ok a => cases hrun; exact hf a rfl

end Leaves

/-! ## Entering an object -/

namespace Materializer

variable {s : Schema} {m : Materializer} {store : Store} {expected type : TypeRef} {id : String}
  {members : List (String × Json)} {e : MaterializeError}

theorem isDuplicate_of_concreteType (h : m.concreteType type = .error e) :
    e.isDuplicate = false := by
  unfold concreteType at h
  split at h
  · cases h
  · split at h <;> cases h
    rfl

theorem isDuplicate_of_discriminate (h : m.discriminate expected members = .error e) :
    e.isDuplicate = false := by
  unfold discriminate at h
  split at h
  · cases h
  · split at h
    · cases h
      rfl
    · split at h <;> cases h
      rfl
  · cases h
    rfl

theorem isDuplicate_of_identity (h : m.identity type members = .error e) :
    e.isDuplicate = false := by
  unfold identity at h
  split at h <;> cases h <;> rfl

theorem isDuplicate_of_checkRegistered
    (h : (runOn (checkRegistered expected type id) store).1 = .error e) :
    e.isDuplicate = false := by
  unfold checkRegistered at h
  split at h
  · cases h
  · rw [Materialization.runOn_bind_of_ok (Materialization.runOn_get store)] at h
    split at h
    · cases h
    · split at h
      · cases h
      · split at h <;> cases h
        rfl

theorem isDuplicate_of_fieldsOf {entity : EntityId} {found : Option String}
    (h : (runOn (m.fieldsOf entity found members) store).1 = .error e) :
    e.isDuplicate = false := by
  unfold fieldsOf at h
  rw [Materialization.runOn_bind_of_ok (Materialization.runOn_get store)] at h
  split at h
  · cases h
  · split at h
    · split at h <;> cases h
      rfl
    · cases h

/-- The one place where entities are bound. The entity is owed its own type and the interfaces of
that. If one of those has another entity, the store is torn; the type that the object was resolved
to has none, or nothing would be constructed. -/
theorem leaves_construct (hm : m.Accepted s) (h : store.WellTyped s)
    (hname : s.typeRef? type.name = some type) (hfree : store.cache.get? type id = none) :
    LeavesOn s (m.construct type id) store := by
  unfold construct
  refine .lift_bind (fun _ => isDuplicate_of_concreteType) fun concrete hconcrete => ?_
  have hobject : s.IsObject concrete := (concreteType_eq_ok hm hname hconcrete).1
  rcases Store.advances_create h hobject id with ⟨-, htype⟩
  have hcreated := store.gains_create concrete id
  have hself := Cache.lookup_getOrInsert_self store.cache concrete id store.heap.next
  unfold LeavesOn
  rw [Materialization.runOn_bind_of_ok (Materialization.runOn_create concrete),
    Materialization.runOn_bind_of_ok (Materialization.runOn_register concrete id _)]
  generalize (store.cache.getOrInsert concrete id store.heap.next).1 = entity at *
  generalize (store.cache.getOrInsert concrete id store.heap.next).2 = cache at *
  rcases Store.registerAliases_cases ⟨store.heap.allocate concrete, cache⟩ id entity
    (m.aliases type concrete) with ⟨outcome, next, hrun, hgains, hcases⟩
  have hall := hcreated.trans hgains
  have htypeNext : next.typeOf? entity = some concrete := hgains.types.typeOf htype
  have hselfNext : next.cache.lookup ⟨concrete.name, id⟩ = some entity := hgains.kept hself
  have hown : store.BoundUnderOwn → next.BoundUnderOwn :=
    hall.boundUnder h htypeNext fun _ hother => List.mem_singleton.1 hother ▸ hselfNext
  rcases hcases with ⟨rfl, hbound⟩ | ⟨found, hfound, other, rfl, hother, hne⟩
  · rw [Materialization.runOn_bind_of_ok hrun]
    have hinterfaces : ∀ interface ∈ s.interfaces concrete,
        next.cache.lookup ⟨interface.name, id⟩ = some entity := by
      intro interface hinterface
      have halias : interface ∈ m.aliases type concrete :=
        List.mem_append_right _ (hm.schema ▸ hinterface)
      exact hbound interface halias
    have hcomplete : store.Complete s → next.Complete s :=
      hall.boundUnder h htypeNext (List.forall_mem_cons.2 ⟨hselfNext, hinterfaces⟩)
    exact ⟨hown, fun _ => hcomplete, nofun⟩
  · rw [Materialization.runOn_bind_of_error hrun]
    refine ⟨hown, nofun, fun _ => ?_⟩
    rcases List.mem_append.1 hfound with halias | hinterface
    · -- The resolved type was free, and what was registered since then is the entity itself.
      have heq : found = type := by
        split at halias
        · cases halias
        · exact List.mem_singleton.1 halias
      subst heq
      rcases hcreated.gained hother with hold | ⟨-, hsame⟩
      · have hnone : store.cache.lookup ⟨found.name, id⟩ = none := hfree
        simp [hnone] at hold
      · exact absurd hsame hne
    · exact ⟨id, entity, concrete, found, other, hselfNext, htypeNext,
        hm.schema ▸ hinterface, hgains.kept hother, hne⟩

/-- Resolving an object binds nothing unless the object is new and has an identity. -/
theorem leaves_resolve (hm : m.Accepted s) (h : store.WellTyped s)
    (hexpected : s.typeRef? expected.name = some expected) (members : List (String × Json)) :
    LeavesOn s (m.resolve expected members) store := by
  unfold resolve
  refine .lift_bind (fun _ => isDuplicate_of_discriminate) fun found hfound => ?_
  have hname := typeRef?_of_discriminate hm hexpected hfound
  refine .lift_bind (fun _ => isDuplicate_of_identity) fun id _ => ?_
  cases id with
  | none =>
      refine .lift_bind (fun _ => isDuplicate_of_concreteType) fun concrete _ => ?_
      exact .of_same_cache h (store.keepsTypes_allocate concrete) rfl
  | some id =>
      have hchecked := (ensures_checkRegistered expected (found.getD expected) id store).same
      refine .bind (.same hchecked fun _ => isDuplicate_of_checkRegistered) fun _ next hrun => ?_
      obtain rfl : store = next := congrArg Prod.snd (hchecked.symm.trans hrun)
      unfold LeavesOn
      rw [Materialization.runOn_bind_of_ok (Materialization.runOn_get store)]
      split
      · exact .refl s store
      · next hfree =>
          exact (leaves_construct hm h hname hfree).bind fun _ next _ => .refl s next

theorem leaves_enter (hm : m.Accepted s) (h : store.WellTyped s)
    (hexpected : s.typeRef? expected.name = some expected) (members : List (String × Json)) :
    LeavesOn s (m.enter expected members) store := by
  unfold enter
  refine (leaves_resolve hm h hexpected members).bind fun found next _ => ?_
  have hfields := (m.ensures_fieldsOf found.1 found.2 members next).same
  refine .bind (.same hfields fun _ => isDuplicate_of_fieldsOf) fun _ last _ => ?_
  exact .refl s last

/-! ## Runs -/

/-- An object is entered where a type of the schema is expected. -/
theorem leaves_enter_of_declares (hm : m.Accepted s) (h : store.WellTyped s) {type : GraphType}
    {kind : TypeKind} (htype : s.Declares type) (hexpected : type.nullable = .named kind expected)
    (members : List (String × Json)) : LeavesOn s (m.enter expected members) store := by
  have hdeclared : s.Declares (.named kind expected) :=
    hexpected ▸ Schema.declares_nullable.2 htype
  exact leaves_enter hm h (Schema.declares_named_iff.1 hdeclared).1 members

theorem Step.leaves (hm : m.Accepted s) {a b : Store}
    (h : m.Step (Store.WellTyped s) s.Declares a b) : Leaves s a false b := by
  cases h with
  | @enter _ _ _ members _ _ _ htype hexpected _ hinv hrun =>
      have hleaves := leaves_enter_of_declares hm hinv htype hexpected members
      simpa [LeavesOn, failsOnDuplicate, hrun] using hleaves
  | assign hinv => exact .of_same_cache hinv (Store.keepsTypes_set _ _ _ _) rfl

theorem Fails.leaves (hm : m.Accepted s) {a b : Store}
    (h : m.Fails (Store.WellTyped s) s.Declares e a b) : Leaves s a e.isDuplicate b := by
  cases h with
  | @enter _ _ _ members _ _ htype hexpected _ hinv hrun =>
      have hleaves := leaves_enter_of_declares hm hinv htype hexpected members
      simpa [LeavesOn, failsOnDuplicate, hrun] using hleaves
  | value he => exact he ▸ .refl s a

theorem leaves_of_steps (hm : m.Accepted s) {a b : Store}
    (h : m.Steps (Store.WellTyped s) s.Declares a b) : Leaves s a false b := by
  induction h with
  | refl => exact .refl s a
  | tail _ hstep ih => exact ih.trans (hstep.leaves hm)

/-- A run leaves what its steps leave, and fails on a duplicate just when its last step does. -/
theorem Traced.leaves (hm : m.Accepted s) {α : Type} {x : Materialization α}
    (h : m.Traced (Store.WellTyped s) s.Declares x store) : LeavesOn s x store := by
  rcases hrun : runOn x store with ⟨e | a, next⟩
  · rcases h.error hrun with ⟨mid, hsteps, hfails⟩
    have hleaves := (leaves_of_steps hm hsteps).trans (hfails.leaves hm)
    simpa [LeavesOn, failsOnDuplicate, hrun] using hleaves
  · simpa [LeavesOn, failsOnDuplicate, hrun] using leaves_of_steps hm (h.ok hrun)

end Materializer

/-! ## Sequences of calls -/

namespace Store

variable {s : Schema} {store : Store} {calls : List Call}

/-- The results of calls in a row. -/
def outcomes (store : Store) : List Call → List (Except MaterializeError Value)
  | [] => []
  | call :: rest => (call.run store).1 :: outcomes (call.run store).2 rest

/-- What all calls keep, whatever they bind. -/
structure Sound (s : Schema) (store : Store) : Prop where
  typed : store.WellTyped s
  coherent : store.Coherent

theorem sound_empty : Store.empty.Sound s :=
  ⟨wellTyped_empty, coherent_empty Heap.empty⟩

section Call

variable {call : Call} (hs : s.Consistent) (h : store.Sound s)
  (hcall : Action.Allowed s (.materialize call))
include hs h hcall

theorem Sound.run : (call.run store).2.Sound s where
  typed := (ensures_call hs h.typed hcall).always.inv
  coherent := (call.materializer.keepsExtends.after call.task h.coherent).inv

theorem Torn.run (ht : store.Torn s) : (call.run store).2.Torn s :=
  ht.mono (call.materializer.keepsExtends.after call.task h.coherent).rel.kept
    (ensures_call hs h.typed hcall).always.rel

/-- What a call leaves is what its steps leave. -/
theorem leaves_call : Leaves s store (failsOnDuplicate (call.run store).1) (call.run store).2 := by
  have hm := Materializer.accepted_of_built hcall.1
  have hdiscipline := Materializer.keepsTypes hs hm
  exact Materializer.Traced.leaves hm (hdiscipline.traced call.json hcall.2 h.typed)

end Call

section Calls

variable (hs : s.Consistent) (h : store.Sound s)
  (hcalls : ∀ call ∈ calls, Action.Allowed s (.materialize call))
include hs h hcalls

theorem sound_afterAll : (store.afterAll calls).Sound s := by
  induction calls generalizing store with
  | nil => exact h
  | cons call rest ih =>
      rcases List.forall_mem_cons.1 hcalls with ⟨hcall, hrest⟩
      exact ih (h.run hs hcall) hrest

theorem boundUnderOwn_afterAll (hown : store.BoundUnderOwn) :
    (store.afterAll calls).BoundUnderOwn := by
  induction calls generalizing store with
  | nil => exact hown
  | cons call rest ih =>
      rcases List.forall_mem_cons.1 hcalls with ⟨hcall, hrest⟩
      exact ih (h.run hs hcall) hrest ((leaves_call hs h hcall).own hown)

theorem complete_afterAll (hcomplete : store.Complete s)
    (houtcomes : ∀ outcome ∈ store.outcomes calls, failsOnDuplicate outcome = false) :
    (store.afterAll calls).Complete s := by
  induction calls generalizing store with
  | nil => exact hcomplete
  | cons call rest ih =>
      rcases List.forall_mem_cons.1 hcalls with ⟨hcall, hrest⟩
      rcases List.forall_mem_cons.1 houtcomes with ⟨hfirst, hothers⟩
      have hnext := (leaves_call hs h hcall).complete hfirst hcomplete
      exact ih (h.run hs hcall) hrest hnext hothers

theorem torn_afterAll (ht : store.Torn s) : (store.afterAll calls).Torn s := by
  induction calls generalizing store with
  | nil => exact ht
  | cons call rest ih =>
      rcases List.forall_mem_cons.1 hcalls with ⟨hcall, hrest⟩
      exact ih (h.run hs hcall) hrest (ht.run hs h hcall)

/-- A call that fails on a duplicate tears the store, and later calls do not mend it. -/
theorem torn_of_duplicate {outcome : Except MaterializeError Value}
    (houtcome : outcome ∈ store.outcomes calls) (hduplicate : failsOnDuplicate outcome = true) :
    (store.afterAll calls).Torn s := by
  induction calls generalizing store with
  | nil => cases houtcome
  | cons call rest ih =>
      rcases List.forall_mem_cons.1 hcalls with ⟨hcall, hrest⟩
      have hnext := h.run hs hcall
      rcases List.mem_cons.1 houtcome with rfl | hlater
      · have htorn := (leaves_call hs h hcall).torn hduplicate
        have hlast := torn_afterAll hs hnext hrest htorn
        exact hlast
      · exact ih hnext hrest hlater

end Calls

/-- Over a built schema, whatever is materialized in a cache that starts empty, every entity that
is bound is bound under its own type; and all of them are bound under their interfaces too just
when no call has failed on a duplicate. -/
theorem complete_iff_no_duplicate {d : Declarations} (hs : d.build = .ok s)
    (hcalls : ∀ call ∈ calls, Action.Allowed s (.materialize call)) :
    (Store.empty.afterAll calls).BoundUnderOwn ∧
      ((Store.empty.afterAll calls).Complete s ↔
        ∀ outcome ∈ Store.empty.outcomes calls, ∀ typeName id,
          outcome ≠ .error (.duplicateEntity typeName id)) := by
  have hconsistent := Declarations.consistent_of_build hs
  have hempty : ∀ owed, Store.empty.BoundUnder owed := by
    intro owed key entity type hkey
    cases hkey
  refine ⟨boundUnderOwn_afterAll hconsistent sound_empty hcalls (hempty _), ?_⟩
  constructor
  · rintro hcomplete _ houtcome typeName id rfl
    exact (torn_of_duplicate hconsistent sound_empty hcalls houtcome rfl).not_complete hcomplete
  · intro hnone
    refine complete_afterAll hconsistent sound_empty hcalls (hempty _) fun outcome houtcome => ?_
    cases hduplicate : failsOnDuplicate outcome with
    | false => rfl
    | true =>
        rcases eq_duplicateEntity hduplicate with ⟨typeName, id, rfl⟩
        exact absurd rfl (hnone _ houtcome typeName id)

end Store

/-- The shelf can be read twice, and then both books are also under the interface of books. -/
theorem complete_shelf :
    (Store.empty.afterAll [shelfCall, shelfCall]).BoundUnderOwn ∧
      (Store.empty.afterAll [shelfCall, shelfCall]).Complete shelfSchema ∧
      (Store.empty.afterAll [shelfCall, shelfCall]).cache.lookup ⟨"Item", "2"⟩ = some ⟨1⟩ := by
  have hbuild : shelfDeclarations.build = .ok shelfSchema := rfl
  have hcalls : ∀ call ∈ [shelfCall, shelfCall],
      Action.Allowed shelfSchema (.materialize call) := by
    intro call hcall
    obtain rfl : call = shelfCall := by simpa using hcall
    exact shelfActions_allowed (.materialize shelfCall) List.mem_cons_self
  have houtcomes : Store.empty.outcomes [shelfCall, shelfCall] =
      [.ok (.list [.object ⟨0⟩]), .ok (.list [.object ⟨0⟩])] := rfl
  rcases Store.complete_iff_no_duplicate hbuild hcalls with ⟨hown, hiff⟩
  refine ⟨hown, hiff.2 fun outcome houtcome typeName id => ?_, rfl⟩
  have hok : outcome = .ok (.list [.object ⟨0⟩]) := by simpa [houtcomes] using houtcome
  rw [hok]
  nofun

/-! ## A book and a film -/

def mediaDeclarations : Declarations where
  types := [
    .scalar "ID",
    .interface "Media" [⟨"id", .named "ID", []⟩] [],
    .object "Book" [⟨"id", .named "ID", []⟩] ["Media"],
    .object "Film" [⟨"id", .named "ID", []⟩] ["Media"],
    .object "Query" [⟨"book", .named "Book", []⟩, ⟨"film", .named "Film", []⟩] []]
  queryType := none
  distinct := by decide

def mediaSchema : Schema :=
  (mediaDeclarations.build.toOption).getD ⟨[], ⟨0, "Query"⟩⟩

def mediaCall (type : TypeRef) : Call where
  materializer := .ofSchema mediaSchema .standard
  json := .object [("id", .string "1")]
  type := .named .object type

def bookCall : Call := mediaCall ⟨2, "Book"⟩

def filmCall : Call := mediaCall ⟨3, "Film"⟩

/-- A film with the identity of a book is refused, as it would be another medium of that identity.
But it is bound under its own type by then, so it is no medium although it is a film, and nothing
is wrong with it when it comes again. -/
theorem film_bound_after_refusal :
    mediaDeclarations.build = .ok mediaSchema ∧
      (∀ call ∈ [bookCall, filmCall], Action.Allowed mediaSchema (.materialize call)) ∧
      (filmCall.run (Store.empty.afterAll [bookCall])).1 =
        .error (.duplicateEntity "Media" "1") ∧
      ¬ (Store.empty.afterAll [bookCall, filmCall]).Complete mediaSchema ∧
      (Store.empty.afterAll [bookCall, filmCall]).cache.lookup ⟨"Film", "1"⟩ = some ⟨1⟩ ∧
      (filmCall.run (Store.empty.afterAll [bookCall, filmCall])).1 = .ok (.object ⟨1⟩) := by
  have htorn : (Store.empty.afterAll [bookCall, filmCall]).Torn mediaSchema :=
    ⟨"1", ⟨1⟩, ⟨3, "Film"⟩, ⟨1, "Media"⟩, ⟨0⟩, rfl, rfl, List.mem_cons_self, rfl, nofun⟩
  refine ⟨rfl, ?_, rfl, htorn.not_complete, rfl, rfl⟩
  intro call hcall
  rcases List.mem_cons.1 hcall with rfl | hcall
  · exact ⟨.ofSchema, rfl⟩
  · rw [List.mem_singleton.1 hcall]
    exact ⟨.ofSchema, rfl⟩

end GraphQuery
