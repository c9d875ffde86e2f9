import GraphQuery.Proofs.Entity.Keys
import GraphQuery.Proofs.Entity.Population

/-!
# Entity.Replay — a response that is materialized again

The first time, objects are constructed and registered; the second time, they are found. What was
checked while they were constructed is not what is checked when they are found, so it takes the
bindings to be complete for a response to materialize again: an object that names its type is also
looked for under the type that is expected of it, where there may be no other entity than its own.

- `Store.Preserves`, `Store.SameBindings` : what stays during a run, and what a repeated run keeps
- `Materializer.enter_again`, `Materializer.value_again` : what has materialized materializes again
- `Materializer.Reads.again` : objects that all have an identity are read as before
- `Store.replay_of_run` : a call that succeeds can be repeated, which binds nothing and, where all
  objects have an identity, changes nothing
-/

set_option autoImplicit false

namespace GraphQuery

open Materialization (runOn)
open Materializer (After)

/-! ## What stays -/

namespace Store

variable {a b c : Store}

/-- Bindings stay, and entities with their types. -/
structure Preserves (a b : Store) : Prop where
  kept : ∀ {key entity}, a.cache.lookup key = some entity → b.cache.lookup key = some entity
  types : a.KeepsTypes b

theorem Preserves.refl (a : Store) : a.Preserves a :=
  ⟨fun hkey => hkey, .refl a⟩

theorem Preserves.trans (hab : a.Preserves b) (hbc : b.Preserves c) : a.Preserves c :=
  ⟨fun hkey => hbc.kept (hab.kept hkey), hab.types.trans hbc.types⟩

/-- Entities stay with their types, and nothing is bound. -/
structure SameBindings (a b : Store) : Prop where
  cache : b.cache = a.cache
  types : a.KeepsTypes b

theorem SameBindings.refl (a : Store) : a.SameBindings a :=
  ⟨rfl, .refl a⟩

theorem SameBindings.trans (hab : a.SameBindings b) (hbc : b.SameBindings c) :
    a.SameBindings c :=
  ⟨hbc.cache.trans hab.cache, hab.types.trans hbc.types⟩

theorem SameBindings.preserves (h : a.SameBindings b) : a.Preserves b :=
  ⟨fun hkey => h.cache ▸ hkey, h.types⟩

theorem sameBindings_allocate (store : Store) (type : TypeRef) :
    store.SameBindings { store with heap := store.heap.allocate type } :=
  ⟨rfl, store.keepsTypes_allocate type⟩

theorem sameBindings_set (store : Store) (entity : EntityId) (field : String) (v : Value) :
    store.SameBindings { store with heap := store.heap.set entity field v } :=
  ⟨rfl, store.keepsTypes_set entity field v⟩

/-- Nothing is bound and no entity is made. -/
structure SetsOnly (a b : Store) : Prop extends a.SameBindings b where
  has : ∀ {entity}, b.Has entity → a.Has entity

theorem SetsOnly.refl (a : Store) : a.SetsOnly a :=
  ⟨.refl a, fun hhas => hhas⟩

theorem SetsOnly.trans (hab : a.SetsOnly b) (hbc : b.SetsOnly c) : a.SetsOnly c :=
  ⟨hab.toSameBindings.trans hbc.toSameBindings, fun hhas => hab.has (hbc.has hhas)⟩

theorem setsOnly_set (store : Store) (entity : EntityId) (field : String) (v : Value) :
    store.SetsOnly { store with heap := store.heap.set entity field v } := by
  refine ⟨store.sameBindings_set entity field v, fun {other} hhas => ?_⟩
  by_cases hset : entity = other
  · simpa [Has, Heap.entity?_set, hset] using hhas
  · simpa [Has, Heap.entity?_set, hset] using hhas

/-- Where the fields that are set have their values, nothing changes. -/
theorem SetsOnly.eq_of_fields (h : a.SetsOnly b)
    (hfields : ∀ entity, b.fields entity = a.fields entity) : b = a := by
  have hentity : ∀ entity, b.heap.entity? entity = a.heap.entity? entity := by
    intro entity
    cases hfound : a.heap.entity? entity with
    | some found => exact h.types.entity?_of_fields hfound (hfields entity)
    | none =>
        have habsent : ¬ b.Has entity := fun hhas => by simpa [Has, hfound] using h.has hhas
        simpa [Has] using habsent
  have hheap : b.heap = a.heap := by
    have hentities : b.heap.entities = a.heap.entities :=
      List.ext_getElem? fun i => hentity ⟨i⟩
    exact congrArg Heap.mk hentities
  rcases a with ⟨heap, cache⟩
  rcases b with ⟨heap', cache'⟩
  cases hheap
  cases h.cache
  rfl

end Store

namespace Materializer

variable {m : Materializer} {store next : Store} {expected type : TypeRef} {id : String}
  {members : List (String × Json)} {entity : EntityId} {found : Option TypeRef}

theorem keepsBindings (m : Materializer) : m.Keeps Store.Coherent Store.Preserves where
  refl := .refl
  trans := .trans
  fits_mono _ _ := trivial
  owns_mono _ _ := trivial
  null _ := trivial
  item _ _ := trivial
  list _ _ := trivial
  leaf _ _ := trivial
  enter := by
    intro store _ _ expected members _ _ _ hc
    have hgrows := (ensures_enter hc m expected members).always
    have hprepares := (prepares_enter hc.isStored m expected members).always
    exact ⟨⟨hgrows.inv, hgrows.rel.kept, hprepares.rel.types⟩, fun _ _ => ⟨trivial, trivial⟩⟩
  field _ _ := trivial
  assign hc _ _ _ := ⟨(Store.grows_of_heap hc (Store.has_set _ _ _)).inv,
    (Store.sameBindings_set _ _ _ _).preserves⟩

/-! ## Objects that are resolved -/

theorem runOn_checkRegistered (h : type = expected ∨ ∀ present,
      store.cache.get? expected id = some present → store.typeOf? present = some type) :
    runOn (checkRegistered expected type id) store = (.ok (), store) := by
  unfold checkRegistered
  split
  · rfl
  · next hne =>
      rw [Materialization.runOn_bind_of_ok (Materialization.runOn_get store)]
      split
      · rfl
      · next present hpresent =>
          rw [(h.resolve_left hne) present hpresent]
          simp only [if_true]
          rfl

/-- An object without an identity becomes an entity of the type that is built for it. -/
theorem runOn_resolve_none {concrete : TypeRef}
    (hfound : m.discriminate expected members = .ok found)
    (hid : m.identity (found.getD expected) members = .ok none)
    (hconcrete : m.concreteType (found.getD expected) = .ok concrete) :
    runOn (m.resolve expected members) store =
      (.ok (store.heap.next, none), { store with heap := store.heap.allocate concrete }) := by
  unfold resolve
  rw [Materialization.runOn_lift_bind hfound]
  dsimp only
  rw [Materialization.runOn_lift_bind hid]
  dsimp only
  rw [Materialization.runOn_lift_bind hconcrete,
    Materialization.runOn_bind_of_ok (Materialization.runOn_create concrete)]
  rfl

theorem resolve_eq_ok_none {entity : EntityId × Option String}
    (hfound : m.discriminate expected members = .ok found)
    (hid : m.identity (found.getD expected) members = .ok none)
    (h : runOn (m.resolve expected members) store = (.ok entity, next)) :
    ∃ concrete, m.concreteType (found.getD expected) = .ok concrete ∧
      entity = (store.heap.next, none) ∧
        next = { store with heap := store.heap.allocate concrete } := by
  cases hconcrete : m.concreteType (found.getD expected) with
  | ok concrete =>
      rw [runOn_resolve_none hfound hid hconcrete] at h
      cases h
      exact ⟨concrete, rfl, rfl, rfl⟩
  | error e =>
      unfold resolve at h
      rw [Materialization.runOn_lift_bind hfound] at h
      dsimp only at h
      rw [Materialization.runOn_lift_bind hid] at h
      dsimp only at h
      rw [hconcrete] at h
      cases h

/-- An object whose identity is bound is resolved to what is bound, unless this is refused. -/
theorem runOn_resolve_some (hfound : m.discriminate expected members = .ok found)
    (hid : m.identity (found.getD expected) members = .ok (some id))
    (hbound : store.cache.get? (found.getD expected) id = some entity) :
    runOn (m.resolve expected members) store = runOn (do
      checkRegistered expected (found.getD expected) id
      return (entity, some id)) store := by
  unfold resolve
  rw [Materialization.runOn_lift_bind hfound]
  dsimp only
  rw [Materialization.runOn_lift_bind hid]
  dsimp only
  have hsame := (ensures_checkRegistered expected (found.getD expected) id store).same
  rcases hchecked : (runOn (checkRegistered expected (found.getD expected) id) store).1 with e | u
  · rw [hchecked] at hsame
    rw [Materialization.runOn_bind_of_error hsame, Materialization.runOn_bind_of_error hsame]
  · rw [hchecked] at hsame
    rw [Materialization.runOn_bind_of_ok hsame, Materialization.runOn_bind_of_ok hsame,
      Materialization.runOn_bind_of_ok (Materialization.runOn_get store), hbound]

/-- An object whose identity is bound changes nothing. -/
theorem resolve_of_bound {resolved : EntityId × Option String}
    (hid : m.Identifies expected members type (some id))
    (hbound : store.cache.lookup ⟨type.name, id⟩ = some entity)
    (h : runOn (m.resolve expected members) store = (.ok resolved, next)) :
    resolved = (entity, some id) ∧ next = store := by
  rcases hid with ⟨found, hfound, rfl, hid⟩
  rw [runOn_resolve_some hfound hid hbound] at h
  rcases Materialization.runOn_bind_eq_ok h with ⟨u, mid, hchecked, h⟩
  cases h
  have hsame := (ensures_checkRegistered expected (found.getD expected) id store).of_ok hchecked
  exact ⟨rfl, hsame.1⟩

theorem runOn_fieldsOf {found : Option String} (htype : store.typeOf? entity = some type)
    (hnamed : ∀ name, Json.lookup Name.discriminator members = some (.string name) →
      name = type.name) :
    runOn (m.fieldsOf entity found members) store =
      (.ok ((m.schema.fields? type).getD []), store) := by
  unfold fieldsOf
  rw [Materialization.runOn_bind_of_ok (Materialization.runOn_get store), htype]
  dsimp only
  split
  · next name hname =>
      rw [if_neg (not_not.2 (hnamed name hname))]
      rfl
  · rfl

end Materializer

/-! ## What materializes again -/

/-- The entities that a store binds are bound wherever they are owed. -/
structure Store.Whole (s : Schema) (store : Store) : Prop extends store.Regular s where
  complete : store.Complete s

namespace Materializer

section Again

variable {d : Declarations} {s : Schema} {m : Materializer} {z : Store}
  (hd : d.build = .ok s) (hm : m.Accepted s) (hz : z.Whole s)
include hd hm hz

/-- What is found under the type that is expected of an object is the entity of the object, which
has the type that the object names. -/
theorem type_of_registered {expected type : TypeRef} {members : List (String × Json)} {id : String}
    {entity : EntityId} {found : Option TypeRef}
    (hexpected : s.typeRef? expected.name = some expected)
    (hfound : m.discriminate expected members = .ok found)
    (htype : z.typeOf? entity = some type)
    (hnamed : ∀ name, Json.lookup Name.discriminator members = some (.string name) →
      name = type.name)
    (hbound : z.cache.lookup ⟨(found.getD expected).name, id⟩ = some entity) :
    found.getD expected = expected ∨ ∀ present, z.cache.get? expected id = some present →
      z.typeOf? present = some (found.getD expected) := by
  rcases discriminate_eq_ok hfound with rfl | ⟨name, named, rfl, href, hlookup, -⟩
  · exact .inl rfl
  · refine .inr fun present hpresent => ?_
    have hobject : s.IsObject type := hz.typed.isObject htype
    have hself : s.typeRef? type.name = some type := (Schema.declares_named_iff.1 hobject).1
    have heq : named = type := by
      rw [hm.schema, hnamed name hlookup, hself] at href
      exact (Option.some.inj href).symm
    subst heq
    -- A union has no key, so what is expected is an interface of the type, or the type itself.
    have hadmits : s.Admits expected named :=
      admits_of_discriminate hm hfound hobject (.inl rfl) hnamed
    have howed := (Declarations.links_of_build hd).eq_or_mem_interfaces hobject
      (hz.fielded.hasFields hexpected hpresent) hadmits
    have hentity : z.cache.lookup ⟨expected.name, id⟩ = some entity :=
      hz.complete _ entity named hbound htype expected howed
    cases hentity.symm.trans hpresent
    exact htype

/-- An object that was entered can be entered again where what was bound by then is still bound. Its
members set the same fields, be it of the same entity or of a new one. -/
theorem enter_again {a b c : Store} {expected : TypeRef} {members : List (String × Json)}
    {entity : EntityId} {fields : List Field} (ha : a.Coherent)
    (hexpected : s.typeRef? expected.name = some expected)
    (hrun : runOn (m.enter expected members) a = (.ok (entity, fields), b))
    (hb : b.Preserves z) (hc : z.SameBindings c) :
    ∃ again next, runOn (m.enter expected members) c = (.ok (again, fields), next) ∧
      z.SameBindings next := by
  rcases Materialization.runOn_bind_eq_ok hrun with ⟨⟨_, id⟩, mid, hresolve, hrest⟩
  rcases Materialization.runOn_bind_eq_ok hrest with ⟨_, last, hfields, hrest⟩
  cases hrest
  rcases (prepares_resolve ha.isStored m expected members).of_ok hresolve with ⟨-, type, htype⟩
  rcases (m.ensures_fieldsOf entity id members mid).of_ok hfields with ⟨rfl, hdeclared⟩
  rcases hdeclared type htype with ⟨rfl, hnamed⟩
  rcases (ensures_resolve ha m expected members).of_ok hresolve with
    ⟨-, _, ⟨found, hfound, rfl, hid⟩, hyields⟩
  -- The fields are asked of the type only, which is the same for the entity that is resolved now.
  suffices hagain : ∃ again next, runOn (m.resolve expected members) c = (.ok (again, id), next) ∧
      next.typeOf? again = some type ∧ z.SameBindings next by
    rcases hagain with ⟨again, next, hagain, htypeAgain, hnext⟩
    refine ⟨again, next, ?_, hnext⟩
    unfold enter
    rw [Materialization.runOn_bind_of_ok hagain,
      Materialization.runOn_bind_of_ok (runOn_fieldsOf htypeAgain hnamed)]
    rfl
  cases id with
  | none =>
      rcases resolve_eq_ok_none hfound hid hresolve with ⟨concrete, hconcrete, heq, rfl⟩
      cases heq
      cases (a.typeOf?_allocate_next concrete).symm.trans htype
      exact ⟨_, _, runOn_resolve_none hfound hid hconcrete, c.typeOf?_allocate_next _,
        hc.trans (c.sameBindings_allocate _)⟩
  | some id =>
      have hbound := hb.kept hyields
      have hboundAgain : c.cache.get? (found.getD expected) id = some entity :=
        hc.preserves.kept hbound
      have hchecked :
          runOn (checkRegistered expected (found.getD expected) id) c = (.ok (), c) := by
        refine runOn_checkRegistered ?_
        refine (type_of_registered hd hm hz hexpected hfound (hb.types.typeOf htype) hnamed
          hbound).imp_right fun hpresent present hfree => ?_
        exact hc.types.typeOf (hpresent present (hc.cache ▸ hfree))
      refine ⟨entity, c, ?_, hc.types.typeOf (hb.types.typeOf htype), hc⟩
      rw [runOn_resolve_some hfound hid hboundAgain, Materialization.runOn_bind_of_ok hchecked]
      rfl

end Again

/-! ## Values that are met again -/

section Values

variable {s : Schema} {m : Materializer} {z a b c : Store} {depth : Nat}

/-- JSON that has materialized materializes again, in every store with the bindings of one that has
kept what was bound by then. -/
def MaterializesAgain (m : Materializer) (s : Schema) (z : Store) (json : Json) : Prop :=
  ∀ {type : GraphType} {depth : Nat} {a b c : Store} {v : Value}, s.Declares type → a.Coherent →
    runOn (m.value type depth json) a = (.ok v, b) → b.Preserves z → z.SameBindings c →
      ∃ w next, runOn (m.value type depth json) c = (.ok w, next) ∧ z.SameBindings next

/-- Nothing that is stored decides on a leaf. -/
theorem leaf_again {type : GraphType} {json : Json} {v : Value}
    (h : runOn (do m.checkDepth depth; m.leaf type json) a = (.ok v, b))
    (c : Store) : runOn (do m.checkDepth depth; m.leaf type json) c = (.ok v, c) := by
  rcases Materialization.runOn_bind_eq_ok h with ⟨_, mid, hdepth, hleaf⟩
  rcases Materialization.runOn_lift_eq_ok hdepth with ⟨hcheck, rfl⟩
  rcases Materialization.runOn_lift_eq_ok hleaf with ⟨hvalue, rfl⟩
  rw [Materialization.runOn_lift_bind hcheck, hvalue]
  rfl

theorem items_again {type : GraphType} {elements : List Json} {values : List Value}
    (hall : ∀ json ∈ elements, m.MaterializesAgain s z json) (htype : s.Declares type)
    (ha : a.Coherent) (hrun : runOn (m.items type depth elements) a = (.ok values, b))
    (hb : b.Preserves z) (hc : z.SameBindings c) :
    ∃ again next, runOn (m.items type depth elements) c = (.ok again, next) ∧
      z.SameBindings next := by
  have d := m.keepsBindings
  induction elements generalizing a c values with
  | nil =>
      rw [items]
      exact ⟨[], c, rfl, hc⟩
  | cons json rest ih =>
      rcases List.forall_mem_cons.1 hall with ⟨hjson, hrest⟩
      rw [items] at hrun
      rcases Materialization.runOn_bind_eq_ok hrun with ⟨first, mid, hfirst, hrun⟩
      rcases Materialization.runOn_bind_eq_ok hrun with ⟨others, last, hothers, hrun⟩
      cases hrun
      have hmid : After Store.Coherent Store.Preserves a mid := d.after_value hfirst ha
      -- What the first item has bound is kept by the others.
      have hlast := d.after_items hothers hmid.inv
      rcases hjson htype ha hfirst (hlast.rel.trans hb) hc with ⟨v, next, hfirstAgain, hnext⟩
      rcases ih hrest hmid.inv hothers hnext with ⟨values, last, hothersAgain, hlast⟩
      refine ⟨v :: values, last, ?_, hlast⟩
      rw [items, Materialization.runOn_bind_of_ok hfirstAgain,
        Materialization.runOn_bind_of_ok hothersAgain]
      rfl

/-- The members are gone through as before, whichever entity they give values to. -/
theorem populate_again {entity again : EntityId} {fields : List Field}
    {members : List (String × Json)}
    (hall : ∀ member ∈ members, m.MaterializesAgain s z member.2)
    (hfields : ∀ field ∈ fields, s.Declares field.type) (ha : a.Coherent)
    (hrun : runOn (m.populate entity fields depth members) a = (.ok (), b))
    (hb : b.Preserves z) (hc : z.SameBindings c) :
    ∃ next, runOn (m.populate again fields depth members) c = (.ok (), next) ∧
      z.SameBindings next := by
  have d := m.keepsBindings
  induction members generalizing a c with
  | nil =>
      rw [populate]
      exact ⟨c, rfl, hc⟩
  | cons member rest ih =>
      rcases member with ⟨key, json⟩
      rcases List.forall_mem_cons.1 hall with ⟨hjson, hrest⟩
      cases hfield : fieldOf? fields key with
      | none =>
          rw [populate_of_skip hfield] at hrun ⊢
          exact ih hrest ha hrun hc
      | some field =>
          rw [populate_of_field hfield] at hrun ⊢
          rcases Materialization.runOn_bind_eq_ok hrun with ⟨v, mid, hv, hrun⟩
          rw [Materialization.runOn_bind_of_ok (Materialization.runOn_assign _ _ _)] at hrun
          have hmem : field ∈ fields := mem_of_member hfield
          have hmid : After Store.Coherent Store.Preserves a mid := d.after_value hv ha
          have hset := d.after_assign entity field v hmid.inv
          have hlast := d.after_populate hrun hset.inv
          rcases hjson (hfields field hmem) ha hv ((hset.rel.trans hlast.rel).trans hb) hc with
            ⟨w, next, hvAgain, hnext⟩
          have hsetAgain := hnext.trans (next.sameBindings_set again field.name w)
          rcases ih hrest hset.inv hrun hsetAgain with ⟨last, hrunAgain, hlast⟩
          refine ⟨last, ?_, hlast⟩
          rw [Materialization.runOn_bind_of_ok hvAgain,
            Materialization.runOn_bind_of_ok (Materialization.runOn_assign _ _ _), hrunAgain]

/-- Whatever materializes once materializes again. -/
theorem value_again {d : Declarations} (hd : d.build = .ok s) (hm : m.Accepted s)
    (hz : z.Whole s) (json : Json) : m.MaterializesAgain s z json := by
  have hs := Declarations.consistent_of_build hd
  have hkeeps := m.keepsBindings
  induction json with
  | null =>
      intro type depth a b c v _ _ hrun _ hc
      rw [value] at hrun ⊢
      rcases Materialization.runOn_bind_eq_ok hrun with ⟨_, mid, hdepth, hrun⟩
      rw [Materialization.runOn_lift_bind (Materialization.runOn_lift_eq_ok hdepth).1]
      split at hrun
      · next hnull =>
          rw [if_pos hnull]
          exact ⟨.null, c, rfl, hc⟩
      · cases hrun
  | bool _ | number _ | string _ =>
      intro type depth a b c v _ _ hrun _ hc
      rw [value] at hrun ⊢
      · exact ⟨v, c, leaf_again hrun c, hc⟩
      all_goals simp
  | array elements ih =>
      intro type depth a b c v htype ha hrun hb hc
      rw [value] at hrun ⊢
      split at hrun
      · next item hitem =>
          rcases Materialization.runOn_bind_eq_ok hrun with ⟨_, mid, hdepth, hrun⟩
          rcases Materialization.runOn_lift_eq_ok hdepth with ⟨hcheck, rfl⟩
          rcases Materialization.runOn_bind_eq_ok hrun with ⟨values, last, hvalues, hrun⟩
          cases hrun
          have hlist : s.Declares (.list item) := hitem ▸ Schema.declares_nullable.2 htype
          have hdeclared : s.Declares item := hlist
          rcases items_again ih hdeclared ha hvalues hb hc with ⟨again, next, hagain, hnext⟩
          refine ⟨.list again, next, ?_, hnext⟩
          rw [Materialization.runOn_lift_bind hcheck, Materialization.runOn_bind_of_ok hagain]
          rfl
      · exact ⟨v, c, leaf_again hrun c, hc⟩
  | object members ih =>
      intro type depth a b c v htype ha hrun hb hc
      by_cases hobject : ∃ kind expected, type.nullable = .named kind expected ∧
          kind.isComposite = true
      · rcases hobject with ⟨kind, expected, hnullable, hkind⟩
        rw [m.value_object hnullable hkind] at hrun ⊢
        rcases Materialization.runOn_bind_eq_ok hrun with ⟨_, start, hdepth, hrun⟩
        rcases Materialization.runOn_lift_eq_ok hdepth with ⟨hcheck, rfl⟩
        rcases Materialization.runOn_bind_eq_ok hrun with ⟨⟨entity, fields⟩, mid, henter, hrun⟩
        rcases Materialization.runOn_bind_eq_ok hrun with ⟨_, last, hpopulate, hrun⟩
        cases hrun
        have hdeclared : s.Declares (.named kind expected) :=
          hnullable ▸ Schema.declares_nullable.2 htype
        have hname := (Schema.declares_named_iff.1 hdeclared).1
        have hfields : ∀ field ∈ fields, s.Declares field.type := by
          rcases resolve_of_enter ha.isStored henter with ⟨_, concrete, -, -, rfl⟩
          intro field hfield
          exact (field?_of_owns hs (hm.schema ▸ hfield)).2
        have hmid := hkeeps.after_enter hnullable hkind henter ha
        have hlast := hkeeps.after_populate hpopulate hmid.inv
        -- What was bound when the object was entered is still bound when its members are done.
        rcases enter_again hd hm hz ha hname henter (hlast.rel.trans hb) hc with
          ⟨again, next, henterAgain, hnext⟩
        rcases populate_again ih hfields hmid.inv hpopulate hb hnext with
          ⟨lastAgain, hpopulateAgain, hlastAgain⟩
        refine ⟨.object again, lastAgain, ?_, hlastAgain⟩
        rw [Materialization.runOn_lift_bind hcheck, Materialization.runOn_bind_of_ok henterAgain]
        dsimp only
        rw [Materialization.runOn_bind_of_ok hpopulateAgain]
        rfl
      · rw [m.value_of_not_composite hobject] at hrun ⊢
        exact ⟨v, c, leaf_again hrun c, hc⟩

end Values

end Materializer

/-! ## One reading for both -/

/-- An object that has an identity. -/
def Occurrence.HasIdentity (o : Occurrence) : Prop :=
  ∃ type id, o.materializer.Identifies o.expected o.members type (some id)

namespace Materializer

variable {m : Materializer} {task : Task} {a b c d store next : Store} {reading other : Reading}

theorem Reads.after (h : m.Reads task store reading next) (hc : store.Coherent)
    (hhas : task.Has store) : After Store.Coherent Store.Preserves store next := by
  have hgrows := (h.settles hc).grows
  exact ⟨hgrows.inv, hgrows.rel.kept, (h.assigns hc.isStored hhas).types⟩

/-- A task whose objects all have an identity is read as before, where they are bound by now; and it
makes no entity. -/
theorem Reads.again (h : m.Reads task a reading b) (hother : m.Reads task c other d)
    (ha : a.Coherent) (hhas : task.Has a) (hb : b.Preserves c)
    (hidentity : ∀ o ∈ task.occurrences reading, o.HasIdentity) :
    SameReading task reading other ∧ c.SetsOnly d := by
  -- By the first reading, with the other one along it. What is bound at its end is bound for both.
  induction h generalizing other c d with
  | null =>
      cases hother with
      | null => exact ⟨rfl, .refl _⟩
      | leaf hne => exact absurd rfl hne
  | leaf hne hleaf =>
      cases hother with
      | null => exact absurd rfl hne
      | leaf => exact ⟨rfl, .refl _⟩
      | list hlist => exact absurd (hlist ▸ hleaf) leaf_list_ne_ok
      | object hnamed hkind => exact absurd (hnamed ▸ hleaf) (leaf_composite_ne_ok hkind)
  | list hlist _ ih =>
      cases hother with
      | leaf _ hleaf => exact absurd (hlist ▸ hleaf) leaf_list_ne_ok
      | list hlist' hread =>
          cases hlist.symm.trans hlist'
          exact ih hread ha trivial hb hidentity
  | @object _ _ expected concrete _ members entity id read store mid next hnamed hkind hresolve
      htype hread ih =>
      cases hother with
      | leaf _ hleaf => exact absurd (hnamed ▸ hleaf) (leaf_composite_ne_ok hkind)
      | object hnamed' _ hresolve' htype' hread' =>
          cases hnamed.symm.trans hnamed'
          rcases List.forall_mem_cons.1 hidentity with ⟨⟨type, text, hidentifies⟩, hrest⟩
          rcases (ensures_resolve ha m expected members).of_ok hresolve with
            ⟨hmid, _, hfound, hyields⟩
          obtain ⟨rfl, rfl⟩ := hidentifies.unique hfound
          have hlast := hread.after hmid.inv ⟨concrete, htype⟩
          have hkept := hlast.rel.trans hb
          -- The object is the entity that it has been bound to by the first reading.
          rcases resolve_of_bound hidentifies (hkept.kept hyields) hresolve' with ⟨heq, rfl⟩
          cases heq
          cases (hkept.types.typeOf htype).symm.trans htype'
          rcases ih hread' hmid.inv ⟨_, htype⟩ hb hrest with ⟨⟨_, _, _, heq, heq'⟩, hsets⟩
          cases heq
          cases heq'
          exact ⟨rfl, hsets⟩
  | noItem =>
      cases hother
      exact ⟨rfl, .refl _⟩
  | item hfirst hrest ihFirst ihRest =>
      cases hother with
      | item hfirst' hrest' =>
          rcases List.forall_mem_append.1 hidentity with ⟨hidFirst, hidRest⟩
          have hmid := hfirst.after ha trivial
          have hlast := hrest.after hmid.inv trivial
          rcases ihFirst hfirst' ha trivial (hlast.rel.trans hb) hidFirst with ⟨rfl, hsets⟩
          rcases ihRest hrest' hmid.inv trivial (hb.trans hsets.preserves) hidRest with
            ⟨heq, hsetsRest⟩
          cases heq
          exact ⟨rfl, hsets.trans hsetsRest⟩
  | noMember =>
      rcases reads_noMember hother with ⟨⟨o, rfl⟩, rfl⟩
      exact ⟨⟨_, o, _, rfl, rfl⟩, .refl _⟩
  | @member occurrence _ field _ _ _ _ first _ _ _ _ hfield hfirst hrest ihFirst ihRest =>
      rcases reads_member hfield hother with ⟨o, first', others', mid', rfl, hfirst', hrest'⟩
      rcases List.forall_mem_append.1 hidentity with ⟨hidFirst, hidRest⟩
      rcases hhas with ⟨type, htype⟩
      have hkeeps := m.keepsBindings
      have hmid := hfirst.after ha trivial
      have hset := hkeeps.after_assign occurrence.entity field first.value hmid.inv
      have htypeSet := hset.rel.types.typeOf (hmid.rel.types.typeOf htype)
      have hlast := hrest.after hset.inv ⟨type, htypeSet⟩
      rcases ihFirst hfirst' ha trivial ((hset.rel.trans hlast.rel).trans hb) hidFirst with
        ⟨rfl, hsets⟩
      have hmid' := hsets.trans (mid'.setsOnly_set occurrence.entity field.name first.value)
      rcases ihRest hrest' hset.inv ⟨type, htypeSet⟩ (hb.trans hmid'.preserves) hidRest with
        ⟨⟨_, _, _, heq, heq'⟩, hsetsRest⟩
      cases heq
      cases heq'
      exact ⟨⟨_, o, _, rfl, rfl⟩, hmid'.trans hsetsRest⟩
  | skip hfield _ ih =>
      rcases reads_skip hfield hother with ⟨o, read, rfl, hrest⟩
      rcases ih hrest ha hhas hb hidentity with ⟨⟨_, _, _, heq, heq'⟩, hsets⟩
      cases heq
      cases heq'
      exact ⟨⟨_, o, _, rfl, rfl⟩, hsets⟩

end Materializer

/-! ## Calls that are repeated -/

namespace Store

variable {s : Schema} {d : Declarations} {store next : Store} {call : Call}
  {actions : List Action} {v : Value}

theorem Whole.run (hd : d.build = .ok s) (h : store.Whole s)
    (hcall : Action.Allowed s (.materialize call)) (hrun : call.run store = (.ok v, next)) :
    next.Whole s := by
  have hs := Declarations.consistent_of_build hd
  have hregular := h.toRegular.run hs hcall
  have hcomplete := (leaves_call hs h.toSound hcall).complete (by rw [hrun]; rfl) h.complete
  rw [hrun] at hregular hcomplete
  exact ⟨hregular, hcomplete⟩

/-- Where a call has succeeded, it succeeds again and binds nothing. -/
theorem Whole.run_again (hd : d.build = .ok s) (h : store.Whole s)
    (hcall : Action.Allowed s (.materialize call)) (hrun : call.run store = (.ok v, next)) :
    ∃ w last, call.run next = (.ok w, last) ∧ next.SameBindings last :=
  Materializer.value_again hd (Materializer.accepted_of_built hcall.1) (h.run hd hcall hrun)
    call.json hcall.2 h.coherent hrun (.refl next) (.refl next)

/-- Where all objects of a response have an identity, what is read again is read as before, and all
fields have the values that they are given. -/
theorem run_eq_self {w : Value} {last : Store} {reading : Reading} (h : store.Coherent)
    (hnext : next.Coherent) (hreads : call.materializer.Reads call.task store reading next)
    (hidentity : ∀ o ∈ reading.occurrences, o.HasIdentity)
    (hrun : call.run next = (.ok w, last)) : w = reading.value ∧ last = next := by
  rcases call.materializer.hasReading call.json hnext.isStored hrun with ⟨other, hother, rfl⟩
  rcases hreads.again hother h trivial (.refl next) hidentity with ⟨heq, hsets⟩
  cases heq
  refine ⟨rfl, hsets.eq_of_fields fun entity => ?_⟩
  -- The assignments are those that the first call has made.
  rw [(hother.assigns hnext.isStored trivial).fields, (hreads.assigns h.isStored trivial).fields,
    Assignment.onto_again]

/-- Over a built schema, after whatever was materialized in a cache whose bindings are complete, a
call that succeeds can be repeated. The second call succeeds and leaves the cache as it is; where
all objects of the response have an identity, it gives the same value and changes nothing. -/
theorem replay_of_run (hd : d.build = .ok s) (hactions : ∀ action ∈ actions, action.Allowed s)
    (hcomplete : (Store.empty.applyAll actions).Complete s)
    (hcall : Action.Allowed s (.materialize call))
    (hrun : call.run (Store.empty.applyAll actions) = (.ok v, next)) :
    (∃ w last, call.run next = (.ok w, last) ∧ last.cache = next.cache) ∧
      ∃ reading, call.materializer.Reads call.task (Store.empty.applyAll actions) reading next ∧
        (∀ other last,
          call.materializer.Reads call.task (Store.empty.applyAll actions) other last →
            reading = other) ∧
        ((∀ o ∈ reading.occurrences, o.HasIdentity) → call.run next = (.ok v, next)) := by
  have hs := Declarations.consistent_of_build hd
  have hwhole : (Store.empty.applyAll actions).Whole s :=
    ⟨regular_applyAll hs regular_empty hactions, hcomplete⟩
  rcases hwhole.run_again hd hcall hrun with ⟨w, last, hagain, hsame⟩
  refine ⟨⟨w, last, hagain, hsame.cache⟩, ?_⟩
  rcases call.materializer.hasReading call.json hwhole.coherent.isStored hrun with
    ⟨reading, hreads, rfl⟩
  have hunique : ∀ other last,
      call.materializer.Reads call.task (Store.empty.applyAll actions) other last →
        reading = other := fun _ _ hother => (hreads.unique hother).1
  refine ⟨reading, hreads, hunique, fun hidentity => ?_⟩
  have hnext := hwhole.run hd hcall hrun
  rcases run_eq_self hwhole.coherent hnext.coherent hreads hidentity hagain with ⟨rfl, rfl⟩
  exact hagain

end Store

/-! ## An author who comes again -/

theorem author_allowed (key : String) :
    Action.Allowed authorSchema (.materialize (authorCall key)) :=
  ⟨.ofSchema, rfl⟩

/-- What is known of an author by one identity is found by the other one. The field of that is set
once, and when it is set again nothing changes. -/
theorem replay_author :
    ∃ store next, store = Store.empty.applyAll [.materialize (authorCall "authorId")] ∧
      (authorCall "id").run store = (.ok (.object ⟨0⟩), next) ∧
      store.fieldNames ⟨0⟩ = ["authorId"] ∧ next.fieldNames ⟨0⟩ = ["authorId", "id"] ∧
      (authorCall "id").run next = (.ok (.object ⟨0⟩), next) := by
  have hbuild : authorDeclarations.build = .ok authorSchema := rfl
  have hactions : ∀ action ∈ [Action.materialize (authorCall "authorId")],
      action.Allowed authorSchema := List.forall_mem_singleton.2 (author_allowed "authorId")
  have hempty : Store.empty.Whole authorSchema := ⟨Store.regular_empty, nofun⟩
  have hwhole : (Store.empty.applyAll [.materialize (authorCall "authorId")]).Whole authorSchema :=
    hempty.run hbuild (author_allowed "authorId") (v := .object ⟨0⟩) rfl
  obtain ⟨next, hrun⟩ : ∃ next, (authorCall "id").run
      (Store.empty.applyAll [.materialize (authorCall "authorId")]) =
        (.ok (.object ⟨0⟩), next) := ⟨_, rfl⟩
  rcases Store.replay_of_run hbuild hactions hwhole.complete (author_allowed "id") hrun with
    ⟨-, reading, -, hunique, hagain⟩
  have hreading : reading = authorReading "id" := hunique _ _ (reads_author rfl rfl rfl)
  have hidentity : ∀ o ∈ reading.occurrences, o.HasIdentity := by
    rw [hreading]
    exact List.forall_mem_singleton.2 ⟨⟨1, "Author"⟩, "1", none, rfl, rfl, rfl⟩
  refine ⟨_, next, rfl, hrun, rfl, ?_, hagain hidentity⟩
  cases hrun
  rfl

/-- An author without an identity is another entity each time. -/
example : (Store.empty.outcomes
    (List.replicate 2 { authorCall "id" with json := .object [] })) =
      [.ok (.object ⟨0⟩), .ok (.object ⟨1⟩)] := rfl

end GraphQuery
