import GraphQuery.Proofs.Entity.Sharing
import GraphQuery.Proofs.Schema.References

/-!
# Entity.Keys — the types that entities are bound under

An identity is read off a field, so what has a key is a type with fields: an object or an interface,
but no union. Of those, the ones that an entity can stand for are its own type and the interfaces of
that, which are the types that it is bound under where the bindings are complete.

- `Schema.HasFields` : the types that may have keys
- `Declarations.Links.eq_or_mem_interfaces` : such a type that lists an object is an interface of it
- `Store.Fielded` : every key is of such a type
- `Materializer.Traced.fielded` : every run keeps to that
- `Store.regular_applyAll` : so do all sequences of calls, with clears of the cache in between
-/

set_option autoImplicit false

namespace GraphQuery

open Materialization (Ensures runOn)

/-! ## Types with fields -/

namespace Schema

variable {s : Schema} {type object : TypeRef}

/-- A type of the schema that has fields. -/
def HasFields (s : Schema) (type : TypeRef) : Prop :=
  s.typeRef? type.name = some type ∧ (s.fields? type).isSome = true

theorem IsObject.hasFields (h : s.IsObject object) : s.HasFields object := by
  rcases h.definition with ⟨definition, hdefinition⟩
  exact ⟨(declares_named_iff.1 h).1, by simp [fields?, hdefinition, TypeDefinition.fields?]⟩

theorem hasFields_of_interface (h : s.Declares (.named .interface type)) : s.HasFields type := by
  rcases declares_named_iff.1 h with ⟨hname, definition, hdefinition, hkind⟩
  cases definition with
  | interface definition =>
      exact ⟨hname, by simp [fields?, hdefinition, TypeDefinition.fields?]⟩
  | _ => cases hkind

/-- Of the types that list others, unions have no fields. -/
theorem HasFields.interface (h : s.HasFields type) (hobject : object ∈ s.possibleTypes type) :
    s.Declares (.named .interface type) := by
  rcases h with ⟨hname, hfields⟩
  cases hdefinition : s.definition? type with
  | none => simp [possibleTypes, hdefinition] at hobject
  | some definition =>
      cases definition with
      | interface definition => exact declares_named_iff.2 ⟨hname, _, hdefinition, rfl⟩
      | object _ | scalar _ | enum _ | inputObject _ =>
          simp [possibleTypes, hdefinition, TypeDefinition.possibleTypes?] at hobject
      | union _ => simp [fields?, hdefinition, TypeDefinition.fields?] at hfields

end Schema

namespace Declarations

variable {d : Declarations} {s : Schema} {object : TypeRef}

/-- A type with fields, where an object type can stand, is the object type or an interface of
it. -/
theorem Links.eq_or_mem_interfaces (l : d.Links s) (hobject : s.IsObject object)
    {expected : TypeRef} (hexpected : s.HasFields expected) (h : s.Admits expected object) :
    expected ∈ object :: s.interfaces object := by
  rcases h with rfl | hlisted
  · exact List.mem_cons_self
  · exact List.mem_cons_of_mem _ (l.mem_interfaces hobject (hexpected.interface hlisted) hlisted)

end Declarations

/-! ## Bound keys -/

namespace Store

variable {s : Schema} {store : Store} {type : TypeRef}

/-- Whatever is bound is bound under a type with fields. -/
def Fielded (s : Schema) (store : Store) : Prop :=
  ∀ key entity, store.cache.lookup key = some entity →
    ∃ type, type.name = key.typeName ∧ s.HasFields type

theorem Fielded.hasFields (h : store.Fielded s) {id : String} {entity : EntityId}
    (hname : s.typeRef? type.name = some type)
    (hkey : store.cache.lookup ⟨type.name, id⟩ = some entity) : s.HasFields type := by
  rcases h _ _ hkey with ⟨found, hfound, hfields⟩
  have hsame : some found = some type := by
    rw [← hfields.1, hfound, hname]
  cases hsame
  exact hfields

theorem Fielded.register (h : store.Fielded s) (htype : s.HasFields type) (id : String)
    (entity : EntityId) :
    Fielded s { store with cache := (store.cache.getOrInsert type id entity).2 } := by
  intro key found hkey
  rcases Cache.lookup_eq_some_of_getOrInsert hkey with hold | ⟨rfl, -⟩
  · exact h key found hold
  · exact ⟨type, rfl, htype⟩

end Store

namespace Materializer

variable {s : Schema} {m : Materializer} {store : Store} {expected type : TypeRef}
  {members : List (String × Json)} {id : String} {e : MaterializeError}

/-- A type that identifies an object has the field that holds the identity. -/
theorem hasFields_of_identity (hm : m.Accepted s) (hname : s.typeRef? type.name = some type)
    (h : m.identity type members = .ok (some id)) : s.HasFields type := by
  rcases identity_eq_some h with ⟨key, json, hmember, -⟩
  have hidentifies : m.identifiesBy type key = true :=
    identifiesBy_of_mem (hmember ▸ List.mem_singleton_self _)
  refine ⟨hname, ?_⟩
  cases hfields : s.fields? type with
  | none => simp [identifiesBy, hm.schema, Schema.field?, hfields] at hidentifies
  | some fields => rfl

theorem fielded_registerAliases (h : store.Fielded s) (id : String) (entity : EntityId)
    {types : List TypeRef} (htypes : ∀ type ∈ types, s.HasFields type) :
    Ensures (registerAliases id entity types) store (Store.Fielded s) fun _ _ => True := by
  induction types generalizing store with
  | nil => exact .pure h trivial
  | cons type rest ih =>
      rcases List.forall_mem_cons.1 htypes with ⟨htype, hrest⟩
      rw [registerAliases]
      refine .bind_of_eq (Materialization.runOn_register type id entity) ?_
      have hnext := h.register htype id entity
      split
      · exact ih hnext hrest
      · exact .throw hnext

theorem fielded_construct (hs : s.Consistent) (hm : m.Accepted s) (h : store.Fielded s)
    (htype : s.HasFields type) (id : String) :
    Ensures (m.construct type id) store (Store.Fielded s) fun _ _ => True := by
  unfold construct
  refine .lift_bind h fun concrete hconcrete => ?_
  have hobject : s.IsObject concrete := (concreteType_eq_ok hm htype.1 hconcrete).1
  refine .bind_of_eq (Materialization.runOn_create concrete) ?_
  refine .bind_of_eq (Materialization.runOn_register concrete id store.heap.next) ?_
  have hcreated : Store.Fielded s { store with heap := store.heap.allocate concrete } := h
  have hregistered := hcreated.register hobject.hasFields id store.heap.next
  have haliases : ∀ other ∈ m.aliases type concrete, s.HasFields other := by
    intro other hother
    rcases List.mem_append.1 hother with hself | hinterface
    · split at hself
      · cases hself
      · rw [List.mem_singleton.1 hself]
        exact htype
    · exact Schema.hasFields_of_interface (hs.interfaces (hm.schema ▸ hinterface))
  refine (fielded_registerAliases hregistered id _ haliases).bind fun _ next hnext _ => ?_
  exact .pure hnext trivial

theorem fielded_resolve (hs : s.Consistent) (hm : m.Accepted s) (h : store.Fielded s)
    (hexpected : s.typeRef? expected.name = some expected) (members : List (String × Json)) :
    Ensures (m.resolve expected members) store (Store.Fielded s) fun _ _ => True := by
  unfold resolve
  refine .lift_bind h fun found hfound => ?_
  dsimp only
  have hname := typeRef?_of_discriminate hm hexpected hfound
  refine .lift_bind h fun id hid => ?_
  cases id with
  | none =>
      -- What has no identity is not bound.
      refine .lift_bind h fun concrete _ => ?_
      exact .bind_of_eq (Materialization.runOn_create concrete) (.pure h trivial)
  | some id =>
      refine .same_bind (ensures_checkRegistered _ _ _ _) h fun _ _ => ?_
      refine .get_bind ?_
      split
      · exact .pure h trivial
      · have htype := hasFields_of_identity hm hname hid
        exact (fielded_construct hs hm h htype id).bind fun _ _ hlast _ => .pure hlast trivial

theorem fielded_enter (hs : s.Consistent) (hm : m.Accepted s) (h : store.Fielded s)
    {type : GraphType} {kind : TypeKind} (htype : s.Declares type)
    (hexpected : type.nullable = .named kind expected) (members : List (String × Json)) :
    Ensures (m.enter expected members) store (Store.Fielded s) fun _ _ => True := by
  have hdeclared : s.Declares (.named kind expected) :=
    hexpected ▸ Schema.declares_nullable.2 htype
  have hname := (Schema.declares_named_iff.1 hdeclared).1
  unfold enter
  refine (fielded_resolve hs hm h hname members).bind fun found next hnext _ => ?_
  exact .same_bind (m.ensures_fieldsOf found.1 found.2 members next) hnext fun _ _ =>
    .pure hnext trivial

/-! ## Runs -/

variable {a b : Store}

theorem Step.fielded (hs : s.Consistent) (hm : m.Accepted s)
    (h : m.Step (Store.WellTyped s) s.Declares a b) (ha : a.Fielded s) : b.Fielded s := by
  cases h with
  | @enter _ _ _ members _ _ _ htype hexpected _ _ hrun =>
      exact ((fielded_enter hs hm ha htype hexpected members).of_ok hrun).1
  | assign => exact ha

theorem Fails.fielded (hs : s.Consistent) (hm : m.Accepted s)
    (h : m.Fails (Store.WellTyped s) s.Declares e a b) (ha : a.Fielded s) : b.Fielded s := by
  cases h with
  | @enter _ _ _ members _ _ htype hexpected _ _ hrun =>
      have henter := (fielded_enter hs hm ha htype hexpected members).always
      simpa [hrun] using henter
  | value => exact ha

theorem fielded_of_steps (hs : s.Consistent) (hm : m.Accepted s)
    (h : m.Steps (Store.WellTyped s) s.Declares a b) (ha : a.Fielded s) : b.Fielded s := by
  induction h with
  | refl => exact ha
  | tail _ hstep ih => exact hstep.fielded hs hm ih

/-- Whether or not a run succeeds, it leaves keys of types with fields only. -/
theorem Traced.fielded (hs : s.Consistent) (hm : m.Accepted s) {α : Type}
    {x : Materialization α} (h : m.Traced (Store.WellTyped s) s.Declares x store)
    (hstore : store.Fielded s) : (runOn x store).2.Fielded s := by
  rcases hrun : runOn x store with ⟨e | found, next⟩
  · rcases h.error hrun with ⟨mid, hsteps, hfails⟩
    exact hfails.fielded hs hm (fielded_of_steps hs hm hsteps hstore)
  · exact fielded_of_steps hs hm (h.ok hrun) hstore

end Materializer

/-! ## Sequences of calls and clears -/

namespace Store

variable {s : Schema} {store : Store} {call : Call} {actions : List Action}

/-- What all calls and clears keep. -/
structure Regular (s : Schema) (store : Store) : Prop extends store.Sound s where
  fielded : store.Fielded s

theorem regular_empty : Store.empty.Regular s :=
  ⟨sound_empty, nofun⟩

theorem Regular.run (hs : s.Consistent) (h : store.Regular s)
    (hcall : Action.Allowed s (.materialize call)) : (call.run store).2.Regular s := by
  have hm := Materializer.accepted_of_built hcall.1
  have hdiscipline := Materializer.keepsTypes hs hm
  exact ⟨h.toSound.run hs hcall, Materializer.Traced.fielded hs hm
    (hdiscipline.traced call.json hcall.2 h.typed) h.fielded⟩

theorem Regular.apply (hs : s.Consistent) (h : store.Regular s) {action : Action}
    (hallowed : action.Allowed s) : (action.apply store).Regular s := by
  cases action with
  | materialize call => exact h.run hs hallowed
  | clear => exact ⟨⟨h.typed.apply hs trivial, coherent_empty store.heap⟩, nofun⟩

/-- Over a consistent schema, whatever is materialized or cleared in whatever order. -/
theorem regular_applyAll (hs : s.Consistent) (h : store.Regular s)
    (hallowed : ∀ action ∈ actions, action.Allowed s) : (store.applyAll actions).Regular s := by
  induction actions generalizing store with
  | nil => exact h
  | cons action rest ih =>
      rcases List.forall_mem_cons.1 hallowed with ⟨haction, hrest⟩
      exact ih (h.apply hs haction) hrest

end Store

end GraphQuery
