import GraphQuery.Proofs.Entity.Reading
import Mathlib.Logic.Relation

/-!
# Entity.Population — which fields a response sets

A response may lead to one entity many times, also from inside itself, and its fields are set while
those of the objects around it are waiting for their values. All that is left of this in the end is
the order in which the response asks for the assignments: the last one of a field counts, and the
first one gives it its place.

- `Assignment.onto`, `Assignment.onto_again` : the fields of an entity after assignments in a row,
  and after the same ones again
- `Store.Assigns`, `Materializer.Reads.assigns` : what reading a task does to the fields of entities
- `Store.Reachable` : what there can be, whatever was done with the cache and with others
- `Store.Reflects` : what a response asks for, as the values and the order of fields
- `Store.reflects_of_run` : a call that succeeds does what its response asks for, and no field
  changes its place
-/

set_option autoImplicit false

namespace GraphQuery

open Materialization (Ensures runOn)
open Materializer (After)

/-! ## Assignments in a row -/

namespace Assignment

variable {entity : EntityId} {field : String} {first later : List Assignment}
  {fields : List (String × Value)}

/-- The assignments to one entity. -/
def of (entity : EntityId) (assignments : List Assignment) : List Assignment :=
  assignments.filter fun a => a.entity = entity

/-- The fields of an entity after assignments in a row, of which only its own concern it. -/
def onto (entity : EntityId) (assignments : List Assignment) (fields : List (String × Value)) :
    List (String × Value) :=
  ((of entity assignments).map fun a => (a.field, a.value)).foldl
    (fun found pair => Keyed.put Prod.fst pair found) fields

theorem onto_append (entity : EntityId) (first later : List Assignment)
    (fields : List (String × Value)) :
    onto entity (first ++ later) fields = onto entity later (onto entity first fields) := by
  rw [onto, of, List.filter_append, List.map_append, List.foldl_append]
  rfl

/-- The same assignments made again change nothing. -/
theorem onto_again (entity : EntityId) (assignments : List Assignment)
    (fields : List (String × Value)) :
    onto entity assignments (onto entity assignments fields) = onto entity assignments fields :=
  Keyed.foldl_put_again _ _

theorem onto_singleton (a : Assignment) (entity : EntityId) (fields : List (String × Value)) :
    onto entity [a] fields =
      if a.entity = entity then Keyed.put Prod.fst (a.field, a.value) fields else fields := by
  by_cases h : a.entity = entity <;> simp [onto, of, h]

theorem onto_of_unassigned {assignments : List Assignment}
    (h : ∀ a ∈ assignments, a.entity ≠ entity) : onto entity assignments fields = fields := by
  have hnone : of entity assignments = [] := by
    rw [of, List.filter_eq_nil_iff]
    intro a ha
    simpa using h a ha
  rw [onto, hnone]
  rfl

/-- The value of the last assignment to a field of an entity. -/
def last? (entity : EntityId) (field : String) (assignments : List Assignment) : Option Value :=
  (((of entity assignments).filter fun a => a.field = field).getLast?).map Assignment.value

theorem find?_onto (entity : EntityId) (field : String) (assignments : List Assignment)
    (fields : List (String × Value)) :
    (Keyed.find? Prod.fst field (onto entity assignments fields)).map Prod.snd =
      (last? entity field assignments).or
        ((Keyed.find? Prod.fst field fields).map Prod.snd) := by
  rw [onto, Keyed.find?_foldl_put, List.filter_map, List.getLast?_map, last?]
  cases h : (((of entity assignments).filter fun a => a.field = field).getLast?) <;>
    simp [Function.comp_def, h]

theorem names_onto (entity : EntityId) (assignments : List Assignment)
    (fields : List (String × Value)) :
    (onto entity assignments fields).map Prod.fst =
      fields.map Prod.fst ++
        (Keyed.distinct ((of entity assignments).map Assignment.field)).filter
          fun name => name ∉ fields.map Prod.fst := by
  rw [onto, Keyed.map_key_foldl_put, Keyed.foldl_addNew, List.map_map]
  rfl

end Assignment

/-! ## What reading does -/

namespace Store

variable {a b c store : Store} {entity : EntityId} {type : TypeRef}
  {first later : List Assignment}

/-- Of the fields of entities, exactly the assigned ones change, in the order of assignments. -/
structure Assigns (assignments : List Assignment) (a b : Store) : Prop where
  stored : b.Stored
  types : a.KeepsTypes b
  fields : ∀ entity, b.fields entity = Assignment.onto entity assignments (a.fields entity)

theorem Prepares.assigns (h : a.Prepares b) : Assigns [] a b :=
  ⟨h.inv, h.rel.types, h.rel.fields⟩

theorem Assigns.trans (hab : Assigns first a b) (hbc : Assigns later b c) :
    Assigns (first ++ later) a c := by
  refine ⟨hbc.stored, hab.types.trans hbc.types, fun entity => ?_⟩
  rw [hbc.fields, hab.fields, Assignment.onto_append]

theorem assigns_set (h : store.Stored) (htype : store.typeOf? entity = some type) (field : String)
    (v : Value) :
    Assigns [⟨entity, field, v⟩] store
      { store with heap := store.heap.set entity field v } := by
  refine ⟨h.set entity field v, store.keepsTypes_set entity field v, fun other => ?_⟩
  rw [store.fields_set htype, Assignment.onto_singleton]

end Store

/-- The entity whose fields a task sets is there. -/
def Task.Has (task : Task) (store : Store) : Prop :=
  match task with
  | .value _ _ _ => True
  | .items _ _ _ => True
  | .populate entity _ _ _ => ∃ type, store.typeOf? entity = some type

/-- Reading a task sets the fields that the reading asks for, and no other. -/
theorem Materializer.Reads.assigns {m : Materializer} {task : Task} {store next : Store}
    {reading : Reading} (h : m.Reads task store reading next) (hstored : store.Stored)
    (hhas : task.Has store) : Store.Assigns reading.assignments store next := by
  induction h with
  | null | leaf | noItem | noMember => exact (Store.Prepares.refl hstored).assigns
  | list _ _ ih => exact ih hstored trivial
  | object _ _ hresolve htype _ ih =>
      have hmid := ((prepares_resolve hstored m _ _).of_ok hresolve).1
      exact hmid.assigns.trans (ih hmid.inv ⟨_, htype⟩)
  | item _ _ ihFirst ihRest =>
      have hmid := ihFirst hstored trivial
      exact hmid.trans (ihRest hmid.stored trivial)
  | @member _ _ field _ _ _ _ first _ _ _ _ _ _ _ ihFirst ihRest =>
      -- The value is read first, and the entity is still there when its field is set.
      rcases hhas with ⟨type, htype⟩
      have hmid := ihFirst hstored trivial
      have htypeMid := hmid.types.typeOf htype
      have hset := Store.assigns_set hmid.stored htypeMid field.name first.value
      exact hmid.trans (hset.trans (ihRest hset.stored ⟨type, hset.types.typeOf htypeMid⟩))
  | skip _ _ ih => exact ih hstored hhas

/-! ## Reachable stores -/

namespace Store

/-- What can happen to a cache and the entities that there are: a call, successful or not; an
existing entity is bound to a free key; the cache is cleared; or something is materialized with
another cache of existing entities. -/
inductive Turn : Store → Store → Prop where
  | call {store : Store} (call : Call) : Turn store (call.run store).2
  | insert {store : Store} {entity : EntityId} {type : TypeRef} {key : CacheKey}
      (hfree : store.cache.lookup key = none) :
      store.typeOf? entity = some type →
      Turn store { store with cache := store.cache.bind key entity hfree }
  | clear {store : Store} : Turn store { store with cache := Cache.empty }
  | elsewhere {heap : Heap} {cache other : Cache} (call : Call) :
      Stored ⟨heap, other⟩ → Turn ⟨heap, cache⟩ ⟨(call.run ⟨heap, other⟩).2.heap, cache⟩

abbrev Leads : Store → Store → Prop := Relation.ReflTransGen Turn

def Reachable (store : Store) : Prop :=
  Store.empty.Leads store

variable {a b store next : Store} {entity : EntityId}

theorem populates_of_run (h : store.Stored) (call : Call) :
    After Stored Populates store (call.run store).2 :=
  call.materializer.keepsPopulates.after call.task h

theorem Turn.populates (h : Turn a b) (ha : a.Stored) : After Stored Populates a b := by
  cases h with
  | call call => exact populates_of_run ha call
  | @insert _ entity type key hfree htype =>
      refine ⟨fun other found hother => ?_, ⟨fun hfound => hfound⟩, fun _ => List.prefix_rfl⟩
      rw [Cache.lookup_bind] at hother
      split at hother
      · cases hother
        exact ⟨type, htype⟩
      · exact ha hother
  | clear => exact ⟨nofun, ⟨fun hfound => hfound⟩, fun _ => List.prefix_rfl⟩
  | @elsewhere heap cache other call hother =>
      -- What the other call does to the entities, it does to those of this cache.
      have hcall := (populates_of_run hother call).rel
      refine ⟨fun key found hkey => ?_, ⟨hcall.types.typeOf⟩, hcall.names⟩
      rcases ha hkey with ⟨type, htype⟩
      exact ⟨type, hcall.types.typeOf htype⟩

theorem Leads.populates (h : a.Leads b) (ha : a.Stored) : After Stored Populates a b := by
  induction h with
  | refl => exact ⟨ha, .refl a⟩
  | tail _ hturn ih =>
      have hlast := hturn.populates ih.inv
      exact ⟨hlast.inv, ih.rel.trans hlast.rel⟩

theorem Reachable.stored (h : store.Reachable) : store.Stored := by
  have hempty : Store.empty.Stored := nofun
  exact (h.populates hempty).inv

/-! ## Calls -/

/-- The value of a field of an entity. -/
def get? (store : Store) (entity : EntityId) (field : String) : Option Value :=
  (store.heap.entity? entity).bind fun found => found.get? field

theorem get?_eq (store : Store) (entity : EntityId) (field : String) :
    store.get? entity field = (Keyed.find? Prod.fst field (store.fields entity)).map Prod.snd := by
  rw [get?, fields]
  cases store.heap.entity? entity <;> rfl

/-- The fields of all entities after a response has asked for assignments: each field has the value
of its last one, and if there is none the value that it had. An entity that none of them concerns is
as it was, and new fields follow those that an entity had, in the order of their first
assignment. -/
structure Reflects (assignments : List Assignment) (a b : Store) : Prop where
  value : ∀ entity field, b.get? entity field =
    (Assignment.last? entity field assignments).or (a.get? entity field)
  others : ∀ entity, (∀ x ∈ assignments, x.entity ≠ entity) → ∀ found,
    a.heap.entity? entity = some found → b.heap.entity? entity = some found
  names : ∀ entity, b.fieldNames entity = a.fieldNames entity ++
    (Keyed.distinct ((Assignment.of entity assignments).map Assignment.field)).filter
      fun name => name ∉ a.fieldNames entity

/-- An entity that keeps its fields is as it was, since it keeps its type. -/
theorem KeepsTypes.entity?_of_fields (h : a.KeepsTypes b) {found : Entity}
    (hfound : a.heap.entity? entity = some found) (hfields : b.fields entity = a.fields entity) :
    b.heap.entity? entity = some found := by
  have htype : a.typeOf? entity = some found.type := by rw [typeOf?, hfound]; rfl
  rcases Option.map_eq_some_iff.1 (h.typeOf htype) with ⟨last, hlast, hsame⟩
  rw [Store.fields, Store.fields, hlast, hfound] at hfields
  rcases last with ⟨type, fields⟩
  rcases found with ⟨_, _⟩
  cases hsame
  cases hfields
  exact hlast

theorem Assigns.reflects {assignments : List Assignment} (h : Assigns assignments a b) :
    Reflects assignments a b where
  value entity field := by
    rw [get?_eq, get?_eq, h.fields, Assignment.find?_onto]
  others := by
    intro entity hnone found hfound
    refine h.types.entity?_of_fields hfound ?_
    rw [h.fields, Assignment.onto_of_unassigned hnone]
  names entity := by
    rw [fieldNames, h.fields, Assignment.names_onto]
    rfl

/-- A call that succeeds, on whatever cache and entities there can be, does what its response asks
for, of which there is one reading. And whatever has happened, at every moment of every call an
entity had the first of the fields that it has in the end, so these are in the order of their first
assignment. -/
theorem reflects_of_run {call : Call} {v : Value} (h : store.Reachable)
    (hrun : call.run store = (.ok v, next)) :
    (∃ reading, call.materializer.Reads call.task store reading next ∧
      (∀ other last, call.materializer.Reads call.task store other last → reading = other) ∧
      reading.value = v ∧ Reflects reading.assignments store next) ∧
    ∀ (start : Store) (other : Call) (task : Task) (found : Store), start.Reachable →
      other.materializer.Reaches other.task start task found → (other.run start).2.Leads next →
        ∀ entity, found.fieldNames entity <+: next.fieldNames entity := by
  refine ⟨?_, ?_⟩
  · -- The reading is found along the run, and no other one fits the response.
    rcases call.materializer.hasReading call.json h.stored hrun with ⟨reading, hreads, hvalue⟩
    have hunique : ∀ other last, call.materializer.Reads call.task store other last →
        reading = other := fun _ _ hother => (hreads.unique hother).1
    exact ⟨reading, hreads, hunique, hvalue, (hreads.assigns h.stored trivial).reflects⟩
  · intro start other task found hstart hreaches hleads entity
    -- From the moment to the end of its task, from there to the end of the call, and on from there.
    have hkeeps := other.materializer.keepsPopulates
    rcases hreaches.between hkeeps hstart.stored with ⟨hfound, hend⟩
    have htask := hkeeps.after task hfound.inv
    have hcall := populates_of_run hstart.stored other
    have hlast := hleads.populates hcall.inv
    exact ((htask.rel.trans hend).trans hlast.rel).names entity

end Store

/-- A book that stands behind itself, and there has another book behind it. -/
def bookBehindItself : Call where
  materializer := shelfCall.materializer
  json := .object [("id", .string "1"), ("behind", .object [("__typename", .string "Book"),
    ("behind", .object [("__typename", .string "Book"), ("id", .string "2")]),
    ("id", .string "1")])]
  type := .named .object ⟨2, "Book"⟩

/-- The book is entered again while its field waits for what is behind it. That comes first, so it
is not the other book that is behind it in the end. -/
theorem reflects_bookBehindItself :
    ∃ store next reading, store = Store.empty.afterAll [shelfCall] ∧ store.Reachable ∧
      bookBehindItself.run store = (.ok (.object ⟨0⟩), next) ∧
      bookBehindItself.materializer.Reads bookBehindItself.task store reading next ∧
      Store.Reflects reading.assignments store next ∧
      store.get? ⟨0⟩ "behind" = some (.object ⟨1⟩) ∧
      next.get? ⟨0⟩ "behind" = some (.object ⟨0⟩) ∧
      store.fieldNames ⟨0⟩ <+: next.fieldNames ⟨0⟩ := by
  have hreachable : (Store.empty.afterAll [shelfCall]).Reachable := .single (.call shelfCall)
  obtain ⟨next, hrun⟩ : ∃ next, bookBehindItself.run (Store.empty.afterAll [shelfCall]) =
      (.ok (.object ⟨0⟩), next) := ⟨_, rfl⟩
  rcases Store.reflects_of_run hreachable hrun with ⟨⟨reading, hreads, -, -, hreflects⟩, hnames⟩
  have hend : (bookBehindItself.run (Store.empty.afterAll [shelfCall])).2.Leads next := by
    rw [hrun]
  refine ⟨_, next, reading, rfl, hreachable, hrun, hreads, hreflects, rfl, ?_,
    hnames _ bookBehindItself _ _ hreachable .here hend ⟨0⟩⟩
  cases hrun
  rfl

end GraphQuery
