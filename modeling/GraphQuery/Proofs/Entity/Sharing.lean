import GraphQuery.Proofs.Entity.Reading
import GraphQuery.Proofs.Entity.Registration

/-!
# Entity.Sharing — objects that are one entity

Two objects become one entity for what identifies them only: each has one field of the identity
scalar, the texts of these are equal, and the entity is registered with this text under the types
that both are resolved to. Which field that is does not count. The cache holds entities by type and
text, so that objects of one type become one entity if the text is the same, whichever of the
identity fields of the type it comes from.

- `Reading.occurrences` : the objects of a response, in the order in which they are met
- `Store.ReadsAll` : what is read of responses in a row
- `Store.Settles` : what resolving objects one after the other leaves
- `Occurrence.Identified` : the field and the text that identify an object
- `Occurrence.Allowed` : objects that are met where a type of the schema is expected
- `Store.Registers` : an entity under its own type and under the type of an object
- `Store.sharing_of_success` : which objects of a successful run are one entity
-/

set_option autoImplicit false

namespace GraphQuery

open Materialization (Ensures runOn)
open Materializer (After)

/-! ## The objects of a response -/

namespace Reading

mutual

/-- The objects of a response, each before what is inside it. -/
def occurrences : Reading → List Occurrence
  | .null => []
  | .leaf _ => []
  | .list items => itemOccurrences items
  | .object occurrence fields => occurrence :: fieldOccurrences fields

def itemOccurrences : List Reading → List Occurrence
  | [] => []
  | item :: rest => occurrences item ++ itemOccurrences rest

def fieldOccurrences : List (String × Reading) → List Occurrence
  | [] => []
  | (_, read) :: rest => occurrences read ++ fieldOccurrences rest

end

end Reading

/-- The objects that a task comes to: those of its reading, but for the object that the members
belong to. -/
def Task.occurrences (task : Task) (reading : Reading) : List Occurrence :=
  match task with
  | .value _ _ _ => reading.occurrences
  | .items _ _ _ => reading.occurrences
  | .populate _ _ _ _ => reading.occurrences.tail

namespace Store

/-- What is read of the responses of calls in a row. -/
inductive ReadsAll : Store → List Call → List Reading → Store → Prop where
  | nil {store : Store} : ReadsAll store [] [] store
  | cons {call : Call} {calls : List Call} {reading : Reading} {readings : List Reading}
      {store mid next : Store} :
      call.materializer.Reads call.task store reading mid → ReadsAll mid calls readings next →
      ReadsAll store (call :: calls) (reading :: readings) next

end Store

/-! ## Resolving objects -/

/-- An object that has no identity. -/
def Occurrence.Anonymous (o : Occurrence) : Prop :=
  ∃ type, o.materializer.Identifies o.expected o.members type none

/-- Between two stores, an object was resolved to what it yields. -/
def Occurrence.Settled (a b : Store) (o : Occurrence) : Prop :=
  ∃ type id, o.materializer.Identifies o.expected o.members type id ∧
    a.Yields type id o.entity b

namespace Store

variable {a b c store next : Store} {first later : List Occurrence}

theorem Coherent.isStored (h : store.Coherent) : store.Stored := by
  intro key entity hkey
  have hhas : (store.heap.entity? entity).isSome = true := h.stored hkey
  rcases Option.isSome_iff_exists.1 hhas with ⟨found, hfound⟩
  exact ⟨found.type, by rw [typeOf?, hfound]; rfl⟩

/-- The start may be earlier: what is not there is not there before either. -/
theorem Yields.of_extends {type : TypeRef} {id : Option String} {entity : EntityId}
    (h : b.Yields type id entity c) (hab : a.Extends b) : a.Yields type id entity c := by
  cases id with
  | some id => exact h
  | none => exact ⟨fun hhas => h.1 (hab.has hhas), h.2⟩

theorem Yields.has {type : TypeRef} {id : Option String} {entity : EntityId}
    (h : a.Yields type id entity b) (hb : b.Coherent) : b.Has entity := by
  cases id with
  | some id => exact hb.stored h
  | none => exact h.2.1

/-- Objects were resolved one after the other, and one without an identity to an entity that none
before it was resolved to. -/
structure Settles (occurrences : List Occurrence) (a b : Store) : Prop where
  grows : a.Grows b
  settled : ∀ o ∈ occurrences, o.Settled a b
  parted : occurrences.Pairwise fun o other => other.Anonymous → o.entity ≠ other.entity

theorem Settles.nil (h : a.Grows b) : Settles [] a b :=
  ⟨h, nofun, .nil⟩

theorem Settles.trans (hab : Settles first a b) (hbc : Settles later b c) :
    Settles (first ++ later) a c := by
  refine ⟨hab.grows.trans hbc.grows, List.forall_mem_append.2 ⟨?_, ?_⟩,
    List.pairwise_append.2 ⟨hab.parted, hbc.parted, ?_⟩⟩
  · intro o ho
    rcases hab.settled o ho with ⟨type, id, hidentifies, hyields⟩
    exact ⟨type, id, hidentifies, hyields.extend hbc.grows.rel⟩
  · intro o ho
    rcases hbc.settled o ho with ⟨type, id, hidentifies, hyields⟩
    exact ⟨type, id, hidentifies, hyields.of_extends hab.grows.rel⟩
  · -- The entity of the first object was there when the one of the second was made.
    rintro o ho other hother ⟨type, hanonymous⟩ heq
    rcases hab.settled o ho with ⟨_, _, _, hyields⟩
    rcases hbc.settled other hother with ⟨otherType, id, hidentifies, hnew⟩
    obtain ⟨rfl, rfl⟩ := hanonymous.unique hidentifies
    exact hnew.1 (heq ▸ hyields.has hab.grows.inv)

end Store

namespace Materializer

variable {m : Materializer} {task : Task} {store next : Store} {reading : Reading}

/-- Reading a task resolves the objects that it comes to. -/
theorem Reads.settles (h : m.Reads task store reading next) (hc : store.Coherent) :
    Store.Settles (task.occurrences reading) store next := by
  induction h with
  | null | leaf | noItem | noMember => exact .nil (.refl hc)
  | list _ _ ih => exact ih hc
  | @object _ _ expected _ _ members entity id _ store mid _ _ _ hresolve _ _ ih =>
      rcases (ensures_resolve hc m expected members).of_ok hresolve with ⟨hgrows, type, hyields⟩
      have hself : Store.Settles [⟨m, expected, members, entity⟩] store mid :=
        ⟨hgrows, List.forall_mem_singleton.2 ⟨type, id, hyields⟩, List.pairwise_singleton _ _⟩
      exact hself.trans (ih hgrows.inv)
  | item _ _ ihFirst ihRest =>
      have hmid := ihFirst hc
      exact hmid.trans (ihRest hmid.grows.inv)
  | @member o _ field _ _ _ _ first _ _ _ _ _ _ _ ihFirst ihRest =>
      have hmid := ihFirst hc
      have hset := Store.grows_of_heap hmid.grows.inv
        (Store.has_set o.entity field.name first.value)
      exact hmid.trans (Store.Settles.trans (.nil hset) (ihRest hset.inv))
  | skip _ _ ih => exact ih hc

end Materializer

namespace Store

variable {calls : List Call} {readings : List Reading} {store next : Store}

theorem ReadsAll.settles (h : ReadsAll store calls readings next) (hc : store.Coherent) :
    Settles (readings.flatMap Reading.occurrences) store next := by
  induction h with
  | nil => exact .nil (.refl hc)
  | cons hreads _ ih =>
      rw [List.flatMap_cons]
      have hfirst := hreads.settles hc
      exact hfirst.trans (ih hfirst.grows.inv)

/-- Calls that all succeed are read. -/
theorem exists_readsAll (hc : store.Coherent)
    (h : ∀ outcome ∈ store.outcomes calls, outcome.isOk = true) :
    ∃ readings, ReadsAll store calls readings (store.afterAll calls) ∧
      store.outcomes calls = readings.map fun reading => .ok reading.value := by
  -- By the calls, from the store that is left by the first one on.
  induction calls generalizing store with
  | nil => exact ⟨[], .nil, rfl⟩
  | cons call calls ih =>
      rcases List.forall_mem_cons.1 h with ⟨hfirst, hrest⟩
      rcases Outcome.exists_of_isOk hfirst with ⟨v, hv⟩
      have hrun : call.run store = (.ok v, (call.run store).2) := Prod.ext hv rfl
      rcases call.materializer.hasReading call.json hc.isStored hrun with ⟨reading, hreads, rfl⟩
      rcases ih (hreads.settles hc).grows.inv hrest with ⟨readings, hreadings, hvalues⟩
      refine ⟨reading :: readings, .cons hreads hreadings, ?_⟩
      rw [outcomes, hv, hvalues, List.map_cons]

end Store

/-! ## What identifies an object -/

/-- The text of a value that identifies an object. -/
def Json.identityText? : Json → Option String
  | .string id => some id
  | .number id => some id.text
  | _ => none

namespace Materializer

variable {m : Materializer} {type : TypeRef} {members : List (String × Json)} {id : String}

/-- Whether a type has a field of the identity scalar of this name. -/
def identifiesBy (m : Materializer) (type : TypeRef) (key : String) : Bool :=
  (m.schema.field? type key).any m.isIdentityField

theorem identity_eq_some (h : m.identity type members = .ok (some id)) :
    ∃ key json, m.identityMembers type members = [(key, json)] ∧ json.identityText? = some id := by
  unfold identity at h
  split at h
  · cases h
  · cases h
  · next key found hmember =>
      cases h
      exact ⟨key, .string id, hmember, rfl⟩
  · next key found hmember =>
      cases h
      exact ⟨key, .number found, hmember, rfl⟩
  · cases h
  · cases h

theorem identifiesBy_of_mem {key : String} {json : Json}
    (h : (key, json) ∈ m.identityMembers type members) : m.identifiesBy type key = true := by
  unfold identityMembers at h
  exact (List.mem_filter.1 h).2

end Materializer

namespace Occurrence

variable {o : Occurrence} {type : TypeRef} {key id : String}

/-- An object is resolved to a type of which one member is an identity field, and this member holds
the identity. -/
structure Identified (o : Occurrence) (type : TypeRef) (key id : String) : Prop where
  identifies : o.materializer.Identifies o.expected o.members type (some id)
  member : ∃ json, o.materializer.identityMembers type o.members = [(key, json)] ∧
    json.identityText? = some id

theorem exists_identified
    (h : o.materializer.Identifies o.expected o.members type (some id)) :
    ∃ key, o.Identified type key id := by
  rcases h with ⟨found, hfound, htype, hid⟩
  rcases Materializer.identity_eq_some hid with ⟨key, json, hmember, htext⟩
  exact ⟨key, ⟨found, hfound, htype, hid⟩, json, hmember, htext⟩

theorem Identified.identifiesBy (h : o.Identified type key id) :
    o.materializer.identifiesBy type key = true := by
  rcases h.member with ⟨json, hmember, -⟩
  exact Materializer.identifiesBy_of_mem (hmember ▸ List.mem_singleton_self _)

end Occurrence

/-! ## The types that an entity is registered under -/

/-- The types that a task is about are types of a schema. -/
def Task.Declared (s : Schema) : Task → Prop
  | .value type _ _ => s.Declares type
  | .items type _ _ => s.Declares type
  | .populate _ fields _ _ => ∀ field ∈ fields, s.Declares field.type

namespace Occurrence

variable {s : Schema} {o : Occurrence}

/-- A materializer of a schema meets an object where a type of the schema is expected. -/
structure Allowed (s : Schema) (o : Occurrence) : Prop where
  accepted : o.materializer.Accepted s
  named : s.typeRef? o.expected.name = some o.expected

theorem Allowed.typeRef? {type : TypeRef} {id : Option String} (h : o.Allowed s)
    (hid : o.materializer.Identifies o.expected o.members type id) :
    s.typeRef? type.name = some type := by
  rcases hid with ⟨found, hfound, rfl, -⟩
  exact Materializer.typeRef?_of_discriminate h.accepted h.named hfound

end Occurrence

/-- Whatever is inside a task of a schema is met where a type of the schema is expected. -/
theorem Materializer.Reads.allowed {s : Schema} {m : Materializer} {task : Task}
    {store next : Store} {reading : Reading} (hs : s.Consistent) (hm : m.Accepted s)
    (h : m.Reads task store reading next) (htask : task.Declared s) :
    ∀ o ∈ task.occurrences reading, o.Allowed s := by
  induction h with
  | null | leaf | noItem | noMember => nofun
  | @list _ item _ _ _ _ _ hlist _ ih =>
      have hdeclared : s.Declares (.list item) := hlist ▸ Schema.declares_nullable.2 htask
      exact ih hdeclared
  | @object _ kind expected concrete _ members entity _ _ _ _ _ hnamed _ _ _ _ ih =>
      have hdeclared : s.Declares (.named kind expected) :=
        hnamed ▸ Schema.declares_nullable.2 htask
      have hself : Occurrence.Allowed s ⟨m, expected, members, entity⟩ :=
        ⟨hm, (Schema.declares_named_iff.1 hdeclared).1⟩
      -- The members set fields of the type of the entity, which are declared with it.
      have hfields : ∀ field ∈ (m.schema.fields? concrete).getD [], s.Declares field.type :=
        fun field hfield => (field?_of_owns hs (hm.schema ▸ hfield)).2
      exact List.forall_mem_cons.2 ⟨hself, ih hfields⟩
  | item _ _ ihFirst ihRest => exact List.forall_mem_append.2 ⟨ihFirst htask, ihRest htask⟩
  | member hfield _ _ ihFirst ihRest =>
      have hmember := htask _ (mem_of_member hfield)
      exact List.forall_mem_append.2 ⟨ihFirst hmember, ihRest htask⟩
  | skip _ _ ih => exact ih htask

theorem Store.ReadsAll.allowed {s : Schema} {calls : List Call} {readings : List Reading}
    {store next : Store} (hs : s.Consistent) (h : ReadsAll store calls readings next)
    (hcalls : ∀ call ∈ calls, Action.Allowed s (.materialize call)) :
    ∀ o ∈ readings.flatMap Reading.occurrences, o.Allowed s := by
  induction h with
  | nil => nofun
  | cons hreads _ ih =>
      rcases List.forall_mem_cons.1 hcalls with ⟨hcall, hrest⟩
      rw [List.flatMap_cons]
      have hm := Materializer.accepted_of_built hcall.1
      exact List.forall_mem_append.2 ⟨hreads.allowed hs hm hcall.2, ih hrest⟩

/-- An entity is registered with a text under its own type and under another one, which is the same
or has it among its possible types. -/
structure Store.Registers (s : Schema) (store : Store) (entity : EntityId) (own type : TypeRef)
    (id : String) : Prop where
  typeOf : store.typeOf? entity = some own
  ownKey : store.cache.lookup ⟨own.name, id⟩ = some entity
  admits : s.Admits type own
  key : store.cache.lookup ⟨type.name, id⟩ = some entity

/-- What an object is resolved to is an entity that is registered under the type of the object. -/
theorem Occurrence.Settled.registers {s : Schema} {a b : Store} {o : Occurrence} {type : TypeRef}
    {id : String} (h : o.Settled a b) (ho : o.Allowed s) (hb : b.WellTyped s)
    (hcomplete : b.Complete s)
    (hid : o.materializer.Identifies o.expected o.members type (some id)) :
    ∃ own, b.Registers s o.entity own type id := by
  rcases h with ⟨_, _, hfound, hyields⟩
  obtain ⟨rfl, rfl⟩ := hid.unique hfound
  have hkey : b.cache.lookup ⟨type.name, id⟩ = some o.entity := hyields
  rcases hb.key hkey with ⟨expected, own, hexpected, hown, hadmits⟩
  obtain rfl : type = expected := Option.some.inj ((ho.typeRef? hid).symm.trans hexpected)
  exact ⟨own, hown, hcomplete _ _ own hkey hown own List.mem_cons_self, hadmits, hkey⟩

namespace Occurrence

/-- Which of the objects that are met in a run are one entity, given the store that is left. -/
structure SharedByText (s : Schema) (store : Store) (occurrences : List Occurrence) : Prop where
  /-- Two objects that are one entity have one identity field each, and the same text in it, with
  which the entity is registered under the types that they are resolved to. It is the same field if
  these types leave no choice. -/
  shared : ∀ {i j : Nat} {o other : Occurrence}, i ≠ j → occurrences[i]? = some o →
    occurrences[j]? = some other → o.entity = other.entity →
      ∃ own type key otherType otherKey id, o.Identified type key id ∧
        other.Identified otherType otherKey id ∧
          store.Registers s o.entity own type id ∧
          store.Registers s other.entity own otherType id ∧
          ((∀ k l, o.materializer.identifiesBy type k = true →
            other.materializer.identifiesBy otherType l = true → k = l) → key = otherKey)
  /-- Objects of one type with the same text are one entity, whichever fields it comes from. -/
  same : ∀ {o other : Occurrence} {type otherType : TypeRef} {key otherKey id : String},
    o ∈ occurrences → other ∈ occurrences → o.Identified type key id →
      other.Identified otherType otherKey id → type.name = otherType.name →
        o.entity = other.entity

end Occurrence

namespace Store

variable {occurrences : List Occurrence} {a b : Store} {o other : Occurrence}

/-- An object that is one entity with a later one has an identity, and so has the later one. -/
theorem Settles.identifies_of_lt (h : Settles occurrences a b) {i j : Nat} (hij : i < j)
    (ho : occurrences[i]? = some o) (hother : occurrences[j]? = some other)
    (heq : o.entity = other.entity) :
    ∃ type otherType id, o.materializer.Identifies o.expected o.members type (some id) ∧
      other.materializer.Identifies other.expected other.members otherType (some id) := by
  rcases h.settled o (List.mem_of_getElem? ho) with ⟨type, id, hidentifies, hyields⟩
  rcases h.settled other (List.mem_of_getElem? hother) with
    ⟨otherType, otherId, hotherIdentifies, hotherYields⟩
  cases otherId with
  | none =>
      -- The later one would have an entity of its own.
      rcases List.getElem?_eq_some_iff.1 ho with ⟨hi, rfl⟩
      rcases List.getElem?_eq_some_iff.1 hother with ⟨hj, rfl⟩
      have hparted := List.pairwise_iff_getElem.1 h.parted i j hi hj hij
      exact absurd heq (hparted ⟨otherType, hotherIdentifies⟩)
  | some otherId =>
      cases id with
      | none => exact absurd (heq ▸ hotherYields) (hyields.2.2 _)
      | some id =>
          have hsame : id = otherId :=
            h.grows.inv.oneId hyields (heq ▸ hotherYields)
          exact ⟨type, otherType, id, hidentifies, hsame ▸ hotherIdentifies⟩

theorem Settles.identifies (h : Settles occurrences a b) {i j : Nat} (hij : i ≠ j)
    (ho : occurrences[i]? = some o) (hother : occurrences[j]? = some other)
    (heq : o.entity = other.entity) :
    ∃ type otherType id, o.materializer.Identifies o.expected o.members type (some id) ∧
      other.materializer.Identifies other.expected other.members otherType (some id) := by
  rcases Nat.lt_or_gt_of_ne hij with hlt | hgt
  · exact h.identifies_of_lt hlt ho hother heq
  · rcases h.identifies_of_lt hgt hother ho heq.symm with ⟨type, otherType, id, hid, hotherId⟩
    exact ⟨otherType, type, id, hotherId, hid⟩

theorem Settles.sharedByText {s : Schema} (h : Settles occurrences a b)
    (hallowed : ∀ o ∈ occurrences, o.Allowed s) (hb : b.WellTyped s) (hcomplete : b.Complete s) :
    Occurrence.SharedByText s b occurrences where
  shared := by
    intro i j o other hij ho hother heq
    rcases h.identifies hij ho hother heq with ⟨type, otherType, id, hid, hotherId⟩
    rcases Occurrence.exists_identified hid with ⟨key, hkey⟩
    rcases Occurrence.exists_identified hotherId with ⟨otherKey, hotherKey⟩
    have hmem := List.mem_of_getElem? ho
    have hotherMem := List.mem_of_getElem? hother
    rcases (h.settled o hmem).registers (hallowed o hmem) hb hcomplete hid with ⟨own, hown⟩
    rcases (h.settled other hotherMem).registers (hallowed other hotherMem) hb hcomplete hotherId
      with ⟨otherOwn, hotherOwn⟩
    -- One entity has one type.
    obtain rfl : own = otherOwn :=
      Option.some.inj (hown.typeOf.symm.trans (heq ▸ hotherOwn.typeOf))
    exact ⟨own, type, key, otherType, otherKey, id, hkey, hotherKey, hown, hotherOwn, fun hone =>
      hone key otherKey hkey.identifiesBy hotherKey.identifiesBy⟩
  same := by
    intro o other type key otherType otherKey id ho hother hid hotherId hname
    rcases h.settled o ho with ⟨found, foundId, hfound, hyields⟩
    rcases h.settled other hother with ⟨otherFound, otherFoundId, hotherFound, hotherYields⟩
    obtain ⟨rfl, rfl⟩ := hid.identifies.unique hfound
    obtain ⟨rfl, rfl⟩ := hotherId.identifies.unique hotherFound
    -- Both are what one key is bound to.
    have hbound : b.cache.lookup ⟨type.name, id⟩ = some o.entity := hyields
    have hotherBound : b.cache.lookup ⟨type.name, id⟩ = some other.entity := hname ▸ hotherYields
    exact Option.some.inj (hbound.symm.trans hotherBound)

/-- Over a built schema and from an empty cache on, the objects of responses that all materialize
are one entity by the texts of their identities only, and under the types that they are resolved
to. -/
theorem sharing_of_success {d : Declarations} {s : Schema} (hs : d.build = .ok s) {heap : Heap}
    (hheap : WellTyped s ⟨heap, Cache.empty⟩) {calls : List Call}
    (hcalls : ∀ call ∈ calls, Action.Allowed s (.materialize call))
    (h : ∀ outcome ∈ outcomes ⟨heap, Cache.empty⟩ calls, outcome.isOk = true) :
    ∃ readings, ReadsAll ⟨heap, Cache.empty⟩ calls readings (afterAll ⟨heap, Cache.empty⟩ calls) ∧
      outcomes ⟨heap, Cache.empty⟩ calls = readings.map (fun reading => .ok reading.value) ∧
        Occurrence.SharedByText s (afterAll ⟨heap, Cache.empty⟩ calls)
          (readings.flatMap Reading.occurrences) := by
  have hconsistent := Declarations.consistent_of_build hs
  have hc := coherent_empty heap
  have hsound : Sound s ⟨heap, Cache.empty⟩ := ⟨hheap, hc⟩
  rcases exists_readsAll hc h with ⟨readings, hreads, hvalues⟩
  have htyped := (sound_afterAll hconsistent hsound hcalls).typed
  have hcomplete : Complete s (afterAll ⟨heap, Cache.empty⟩ calls) := by
    refine complete_afterAll hconsistent hsound hcalls nofun fun outcome houtcome => ?_
    rcases Outcome.exists_of_isOk (h outcome houtcome) with ⟨v, rfl⟩
    rfl
  have hallowed := hreads.allowed hconsistent hcalls
  exact ⟨readings, hreads, hvalues, (hreads.settles hc).sharedByText hallowed htyped hcomplete⟩

end Store

/-- On the shelf, the book that stands behind the other one is the first one again. -/
theorem sharing_shelf :
    ∃ readings, Store.ReadsAll Store.empty [shelfCall] readings (Store.empty.afterAll [shelfCall]) ∧
      Occurrence.SharedByText shelfSchema (Store.empty.afterAll [shelfCall])
        (readings.flatMap Reading.occurrences) := by
  have hbuild : shelfDeclarations.build = .ok shelfSchema := rfl
  have hcalls : ∀ call ∈ [shelfCall], Action.Allowed shelfSchema (.materialize call) := by
    intro call hcall
    rw [List.mem_singleton.1 hcall]
    exact shelfActions_allowed _ List.mem_cons_self
  have hok : ∀ outcome ∈ Store.empty.outcomes [shelfCall], outcome.isOk = true := by
    intro outcome houtcome
    rw [List.mem_singleton.1 houtcome]
    rfl
  rcases Store.sharing_of_success hbuild Store.wellTyped_empty hcalls hok with
    ⟨readings, hreads, -, hshared⟩
  exact ⟨readings, hreads, hshared⟩

/-! ## An author with two identities -/

def authorDeclarations : Declarations where
  types := [
    .scalar "ID",
    .object "Author" [⟨"id", .named "ID", []⟩, ⟨"authorId", .named "ID", []⟩] [],
    .object "Query" [⟨"authors", .list (.named "Author"), []⟩] []]
  queryType := none
  distinct := by decide

def authorSchema : Schema :=
  (authorDeclarations.build.toOption).getD ⟨[], ⟨0, "Query"⟩⟩

/-- One author, of whom a response gives the field of one name only. -/
def authorCall (key : String) : Call where
  materializer := .ofSchema authorSchema .standard
  json := .object [(key, .string "1")]
  type := .named .object ⟨1, "Author"⟩

def authorBy (key : String) : Occurrence :=
  ⟨.ofSchema authorSchema .standard, ⟨1, "Author"⟩, [(key, .string "1")], ⟨0⟩⟩

def authorReading (key : String) : Reading :=
  .object (authorBy key) [(key, .leaf (.string "1"))]

/-- The identity of an author is read and set. -/
theorem reads_author {key : String} {store mid : Store}
    (hresolve : runOn ((authorCall key).materializer.resolve ⟨1, "Author"⟩ [(key, .string "1")])
      store = (.ok (⟨0⟩, some "1"), mid))
    (htype : mid.typeOf? ⟨0⟩ = some ⟨1, "Author"⟩)
    (hfield : Materializer.fieldOf? ((authorSchema.fields? ⟨1, "Author"⟩).getD []) key =
      some ⟨key, .named .scalar ⟨0, "ID"⟩, []⟩) :
    (authorCall key).materializer.Reads (authorCall key).task store (authorReading key)
      { mid with heap := mid.heap.set ⟨0⟩ key (.leaf (.string "1")) } := by
  have hleaf : (authorCall key).materializer.Reads
      (.value (.named .scalar ⟨0, "ID"⟩) 1 (.string "1")) mid (.leaf (.string "1")) mid :=
    .leaf nofun rfl
  have hmembers : (authorCall key).materializer.Reads
      (.populate (authorBy key).entity ((authorSchema.fields? ⟨1, "Author"⟩).getD []) 1
        [(key, .string "1")]) mid (authorReading key)
      { mid with heap := mid.heap.set ⟨0⟩ key (.leaf (.string "1")) } :=
    .member hfield hleaf .noMember
  exact .object rfl rfl hresolve htype hmembers

/-- Two responses identify an author by different fields. The texts are the same, so it is the same
entity, although the objects have no identity field in common. -/
theorem authors_shared_across_fields :
    authorDeclarations.build = .ok authorSchema ∧
      Store.empty.outcomes [authorCall "id", authorCall "authorId"] =
        [.ok (.object ⟨0⟩), .ok (.object ⟨0⟩)] ∧
      Store.ReadsAll Store.empty [authorCall "id", authorCall "authorId"]
        [authorReading "id", authorReading "authorId"]
        (Store.empty.afterAll [authorCall "id", authorCall "authorId"]) ∧
      [authorReading "id", authorReading "authorId"].flatMap Reading.occurrences =
        [authorBy "id", authorBy "authorId"] ∧
      (authorBy "id").entity = (authorBy "authorId").entity ∧
      ¬ ∃ type otherType key id, (authorBy "id").Identified type key id ∧
        (authorBy "authorId").Identified otherType key id := by
  have hreads : Store.ReadsAll Store.empty [authorCall "id", authorCall "authorId"]
      [authorReading "id", authorReading "authorId"]
      (Store.empty.afterAll [authorCall "id", authorCall "authorId"]) :=
    .cons (reads_author rfl rfl rfl) (.cons (reads_author rfl rfl rfl) .nil)
  refine ⟨rfl, rfl, hreads, rfl, rfl, ?_⟩
  rintro ⟨type, otherType, name, id, hid, hotherId⟩
  have hidentifies : (authorBy "id").materializer.Identifies ⟨1, "Author"⟩
      (authorBy "id").members ⟨1, "Author"⟩ (some "1") := ⟨none, rfl, rfl, rfl⟩
  have hotherIdentifies : (authorBy "authorId").materializer.Identifies ⟨1, "Author"⟩
      (authorBy "authorId").members ⟨1, "Author"⟩ (some "1") := ⟨none, rfl, rfl, rfl⟩
  obtain ⟨rfl, -⟩ := hid.identifies.unique hidentifies
  obtain ⟨rfl, -⟩ := hotherId.identifies.unique hotherIdentifies
  -- Each object has one identity field, and these two are not of one name.
  rcases hid.member with ⟨json, hmember, -⟩
  rcases hotherId.member with ⟨other, hother, -⟩
  have hname : [("id", Json.string "1")] = [(name, json)] := hmember
  have hotherName : [("authorId", Json.string "1")] = [(name, other)] := hother
  cases hname
  simp at hotherName

end GraphQuery
