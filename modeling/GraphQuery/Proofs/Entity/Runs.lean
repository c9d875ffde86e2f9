import GraphQuery.Entity.Materializer
import GraphQuery.Proofs.Keyed
import GraphQuery.Proofs.Outcome

/-!
# Entity.Runs — what materializing leaves behind

A computation that fails leaves the store as it was at the failure. What it ensures is therefore
stated twice: of the store at its end in any case, and of its result where it succeeds.

- `Json.induction` : induction on JSON values, with the hypothesis for all items and members
- `Materialization.runOn` : the outcome of a computation on a store
- `Materialization.Ensures` : what holds after it, with a rule for each way of composing
- `Materializer.Discipline` : what the steps of a materializer have to obey
- `Materializer.Discipline.value` : what materializing a value ensures then
-/

set_option autoImplicit false

namespace GraphQuery

/-- What holds of an array or object as soon as it holds of what is inside holds of all JSON. -/
@[elab_as_elim, induction_eliminator]
theorem Json.induction {motive : Json → Prop} (null : motive .null)
    (bool : ∀ value, motive (.bool value)) (number : ∀ value, motive (.number value))
    (string : ∀ value, motive (.string value))
    (array : ∀ items, (∀ item ∈ items, motive item) → motive (.array items))
    (object : ∀ members, (∀ member ∈ members, motive member.2) → motive (.object members)) :
    ∀ json : Json, motive json
  | .null => null
  | .bool value => bool value
  | .number value => number value
  | .string value => string value
  | .array items =>
      array items fun item _ => Json.induction null bool number string array object item
  | .object members =>
      object members fun member _ =>
        Json.induction null bool number string array object member.2
termination_by json => sizeOf json
decreasing_by
  -- What is inside an array or object is smaller, which the attached memberships say.
  · next hmem =>
      have hlt := List.sizeOf_lt_of_mem hmem
      simp only [Json.array.sizeOf_spec]
      omega
  · next hmem =>
      have hlt := List.sizeOf_lt_of_mem hmem
      rcases member with ⟨key, value⟩
      simp only [Prod.mk.sizeOf_spec] at hlt
      simp only [Json.object.sizeOf_spec]
      omega

/-! ## Registering a key -/

namespace Cache

variable {cache : Cache} {type : TypeRef} {id : String} {entity found : EntityId}
  {key : CacheKey}

theorem lookup_getOrInsert_self (cache : Cache) (type : TypeRef) (id : String)
    (entity : EntityId) :
    (cache.getOrInsert type id entity).2.lookup ⟨type.name, id⟩ =
      some (cache.getOrInsert type id entity).1 := by
  cases hpresent : cache.get? type id with
  | some present =>
      have hself : (cache.getOrInsert type id entity).1 = present := by
        simp [getOrInsert_of_some hpresent]
      simp [lookup_getOrInsert, hpresent, hself]
  | none =>
      have hself : (cache.getOrInsert type id entity).1 = entity := by
        unfold getOrInsert
        split
        · next present hfound => exact absurd (hpresent.symm.trans hfound) nofun
        · rfl
      simp [lookup_getOrInsert, hpresent, hself]

/-- What is found after a registration was there before, or is what was registered. -/
theorem lookup_eq_some_of_getOrInsert
    (h : (cache.getOrInsert type id entity).2.lookup key = some found) :
    cache.lookup key = some found ∨ (key = ⟨type.name, id⟩ ∧ found = entity) := by
  rw [lookup_getOrInsert] at h
  split at h
  · next hkey =>
      -- A key that is bound stays bound to what it was; only a free one gets the new entity.
      cases hpresent : cache.get? type id with
      | some present =>
          have heq : present = found := by simpa [hpresent] using h
          rw [hkey, ← heq]
          exact .inl hpresent
      | none =>
          have heq : entity = found := by simpa [hpresent] using h
          exact .inr ⟨hkey, heq.symm⟩
  · exact .inl h

theorem lookup_getOrInsert_kept (h : cache.lookup key = some found) :
    (cache.getOrInsert type id entity).2.lookup key = some found := by
  rw [lookup_getOrInsert]
  split
  · next hkey =>
      have hpresent : cache.get? type id = some found := by
        rw [hkey] at h
        exact h
      simp [hpresent]
  · exact h

end Cache

namespace Materialization

variable {α β : Type} {x : Materialization α} {f : α → Materialization β} {store : Store}

/-- The result of a computation that starts at a store, and the store at its end. -/
def runOn (x : Materialization α) (store : Store) : Except MaterializeError α × Store :=
  x.run.run store

theorem runOn_bind (x : Materialization α) (f : α → Materialization β) (store : Store) :
    runOn (x >>= f) store = match runOn x store with
      | (.ok a, next) => runOn (f a) next
      | (.error e, next) => (.error e, next) := by
  change (match x.run.run store with | (a, s) => (ExceptT.bindCont f a).run s) = _
  unfold runOn
  rcases x.run.run store with ⟨e | a, next⟩ <;> rfl

theorem runOn_bind_of_ok {a : α} {next : Store} (h : runOn x store = (.ok a, next)) :
    runOn (x >>= f) store = runOn (f a) next := by
  rw [runOn_bind, h]

theorem runOn_bind_of_error {e : MaterializeError} {next : Store}
    (h : runOn x store = (.error e, next)) : runOn (x >>= f) store = (.error e, next) := by
  rw [runOn_bind, h]

/-- Computations in a row succeed when the first one does, and the second one where that ends. -/
theorem runOn_bind_eq_ok {b : β} {last : Store} (h : runOn (x >>= f) store = (.ok b, last)) :
    ∃ a next, runOn x store = (.ok a, next) ∧ runOn (f a) next = (.ok b, last) := by
  rw [runOn_bind] at h
  rcases hx : runOn x store with ⟨e | a, next⟩
  · rw [hx] at h
    cases h
  · rw [hx] at h
    exact ⟨a, next, rfl, h⟩

theorem runOn_lift_bind {e : Except MaterializeError α} {a : α} (h : e = .ok a) :
    runOn (liftM e >>= f) store = runOn (f a) store := by
  have hlift : runOn (liftM e : Materialization α) store = (.ok a, store) := by
    rw [h]
    rfl
  exact runOn_bind_of_ok hlift

theorem runOn_lift_eq_ok {e : Except MaterializeError α} {a : α} {next : Store}
    (h : runOn (liftM e) store = (.ok a, next)) : e = .ok a ∧ store = next := by
  have hrun : runOn (liftM e : Materialization α) store = (e, store) := rfl
  cases hrun.symm.trans h
  exact ⟨rfl, rfl⟩

/-- What comes from outside the store leaves it as it is. -/
theorem same_of_runOn_lift {e : Except MaterializeError α} {a : α} {next : Store}
    (h : runOn (liftM e) store = (.ok a, next)) : store = next :=
  (runOn_lift_eq_ok h).2

theorem runOn_get (store : Store) : runOn get store = (.ok store, store) := rfl

/-- The changes of a store, as they are carried out. -/
theorem runOn_create (type : TypeRef) : runOn (create type) store =
    (.ok store.heap.next, { store with heap := store.heap.allocate type }) := rfl

theorem runOn_register (type : TypeRef) (id : String) (entity : EntityId) :
    runOn (register type id entity) store =
      (.ok (store.cache.getOrInsert type id entity).1,
        { store with cache := (store.cache.getOrInsert type id entity).2 }) := rfl

theorem runOn_assign (entity : EntityId) (field : String) (value : Value) :
    runOn (assign entity field value) store =
      (.ok (), { store with heap := store.heap.set entity field value }) := rfl

/-! ## Ensuring -/

/-- The computation leaves a store of which `always` holds, and `success` holds of its result and
that store if it has one. -/
structure Ensures (x : Materialization α) (store : Store) (always : Store → Prop)
    (success : α → Store → Prop) : Prop where
  always : always (runOn x store).2
  success : ∀ a, (runOn x store).1 = .ok a → success a (runOn x store).2

namespace Ensures

variable {always always' : Store → Prop} {success success' : α → Store → Prop}
  {success₂ : β → Store → Prop}

theorem mono (h : Ensures x store always success) (ha : ∀ next, always next → always' next)
    (hs : ∀ a next, always next → success a next → success' a next) :
    Ensures x store always' success' :=
  ⟨ha _ h.always, fun a hok => hs a _ h.always (h.success a hok)⟩

/-- What is ensured, of the result of a run. -/
theorem of_ok {a : α} {next : Store} (h : Ensures x store always success)
    (hrun : runOn x store = (.ok a, next)) : always next ∧ success a next := by
  have halways := h.always
  have hsuccess := h.success a (by rw [hrun])
  rw [hrun] at halways hsuccess
  exact ⟨halways, hsuccess⟩

theorem of_eq {a : α} {next : Store} (h : runOn x store = (.ok a, next)) (ha : always next)
    (hs : success a next) : Ensures x store always success := by
  refine ⟨by simpa [h] using ha, ?_⟩
  intro b hb
  have hab : a = b := by simpa [h] using hb
  subst hab
  simpa [h] using hs

theorem pure {a : α} (ha : always store) (hs : success a store) :
    Ensures (Pure.pure a) store always success :=
  of_eq rfl ha hs

theorem throw {e : MaterializeError} (ha : always store) :
    Ensures (MonadExcept.throw e) store always success :=
  ⟨ha, nofun⟩

theorem lift {e : Except MaterializeError α} (ha : always store)
    (hs : ∀ a, e = .ok a → success a store) : Ensures (liftM e) store always success :=
  ⟨ha, hs⟩

theorem bind {f : α → Materialization β} (hx : Ensures x store always success)
    (hf : ∀ a next, always next → success a next → Ensures (f a) next always success₂) :
    Ensures (x >>= f) store always success₂ := by
  -- Either `x` fails and its store is the last one, or `f` goes on from there.
  rcases h : runOn x store with ⟨e | a, next⟩
  · have hrun : runOn (x >>= f) store = (.error e, next) := runOn_bind_of_error h
    have halways : always next := by simpa [h] using hx.always
    refine ⟨by simpa [hrun] using halways, ?_⟩
    intro b hb
    simp [hrun] at hb
  · have hrun : runOn (x >>= f) store = runOn (f a) next := runOn_bind_of_ok h
    have halways : always next := by simpa [h] using hx.always
    have hsuccess : success a next := by simpa [h] using hx.success a (by simp [h])
    have hlast : Ensures (f a) next always success₂ := hf a next halways hsuccess
    exact ⟨by simpa [hrun] using hlast.always, by simpa [hrun] using hlast.success⟩

theorem bind_of_eq {f : α → Materialization β} {a : α} {next : Store}
    (h : runOn x store = (.ok a, next)) (hf : Ensures (f a) next always success₂) :
    Ensures (x >>= f) store always success₂ := by
  have hrun : runOn (x >>= f) store = runOn (f a) next := runOn_bind_of_ok h
  exact ⟨by simpa [hrun] using hf.always, by simpa [hrun] using hf.success⟩

theorem lift_bind {e : Except MaterializeError α} {f : α → Materialization β}
    (ha : always store) (hf : ∀ a, e = .ok a → Ensures (f a) store always success₂) :
    Ensures (liftM e >>= f) store always success₂ := by
  cases e with
  | error cause => exact ⟨ha, nofun⟩
  | ok a => exact bind_of_eq rfl (hf a rfl)

theorem get_bind {f : Store → Materialization β} (h : Ensures (f store) store always success₂) :
    Ensures (get >>= f) store always success₂ :=
  bind_of_eq rfl h

/-- A computation that changes nothing has its result and the store that it starts at. -/
theorem same (h : Ensures x store (fun next => next = store) success) :
    runOn x store = ((runOn x store).1, store) :=
  Prod.ext rfl h.always

/-- After a computation that changes nothing, the next one starts at the same store. -/
theorem same_bind {f : α → Materialization β}
    (hx : Ensures x store (fun next => next = store) success) (ha : always store)
    (hf : ∀ a, success a store → Ensures (f a) store always success₂) :
    Ensures (x >>= f) store always success₂ := by
  rcases h : runOn x store with ⟨e | a, next⟩
  · have hsame : next = store := by simpa [h] using hx.always
    have hrun : runOn (x >>= f) store = (.error e, next) := runOn_bind_of_error h
    refine ⟨by simpa [hrun, hsame] using ha, ?_⟩
    intro b hb
    simp [hrun] at hb
  · have hsame : next = store := by simpa [h] using hx.always
    have hsuccess : success a next := by simpa [h] using hx.success a (by simp [h])
    subst hsame
    exact bind_of_eq h (hf a hsuccess)

end Ensures

end Materialization

/-! ## Disciplines -/

namespace Materializer

open Materialization (Ensures)

/-- The entity of an object, and the fields that its members give values to. -/
def enter (m : Materializer) (expected : TypeRef) (members : List (String × Json)) :
    Materialization (EntityId × List Field) := do
  let (entity, id) ← m.resolve expected members
  let fields ← m.fieldsOf entity id members
  return (entity, fields)

/-- What a computation that starts at a store leaves behind in any case. -/
structure After (Inv : Store → Prop) (Rel : Store → Store → Prop) (store next : Store) :
    Prop where
  inv : Inv next
  rel : Rel store next

/-- A computation after another one goes on from the store that the first one leaves. -/
theorem After.bind {Inv : Store → Prop} {Rel : Store → Store → Prop} {α β : Type}
    {x : Materialization α} {f : α → Materialization β} {store : Store}
    {mid : α → Store → Prop} {success : β → Store → Prop}
    (hx : Ensures x store (After Inv Rel store) mid)
    (htrans : ∀ {a b c}, Rel a b → Rel b c → Rel a c)
    (hf : ∀ a next, After Inv Rel store next → mid a next →
      Ensures (f a) next (After Inv Rel next) success) :
    Ensures (x >>= f) store (After Inv Rel store) success := by
  refine Ensures.bind hx fun a next hnext hmid => ?_
  exact (hf a next hnext hmid).mono (fun _ hlast => ⟨hlast.inv, htrans hnext.rel hlast.rel⟩)
    fun _ _ _ hs => hs

/-- The laws that make what is known of the steps of a materializer known of all that it
materializes: an invariant of the store, a relation that every change keeps to, the types that
values are expected of, the values that fit a type, and the entities that own fields. -/
structure Discipline (m : Materializer) (Inv : Store → Prop) (Rel : Store → Store → Prop)
    (Expected : GraphType → Prop) (Fits : Store → GraphType → Value → Prop)
    (Owns : Store → EntityId → List Field → Prop) : Prop where
  refl : ∀ store, Rel store store
  trans : ∀ {a b c}, Rel a b → Rel b c → Rel a c
  fits_mono : ∀ {a b type v}, Rel a b → Fits a type v → Fits b type v
  owns_mono : ∀ {a b entity fields}, Rel a b → Owns a entity fields → Owns b entity fields
  null : ∀ {store type}, type = type.nullable → Fits store type .null
  item : ∀ {type item}, Expected type → type.nullable = .list item → Expected item
  list : ∀ {store type item values}, type.nullable = .list item →
    (∀ v ∈ values, Fits store item v) → Fits store type (.list values)
  leaf : ∀ {store type json v}, json ≠ .null → m.leaf type.nullable json = .ok v →
    Fits store type v
  enter : ∀ {store type kind expected members}, Expected type →
    type.nullable = .named kind expected → kind.isComposite = true → Inv store →
      Ensures (m.enter expected members) store (After Inv Rel store) fun found next =>
        Owns next found.1 found.2 ∧ Fits next type (.object found.1)
  field : ∀ {store entity fields field}, Owns store entity fields → field ∈ fields →
    Expected field.type
  assign : ∀ {store entity fields field v}, Inv store → Owns store entity fields →
    field ∈ fields → Fits store field.type v →
      After Inv Rel store { store with heap := store.heap.set entity field.name v }

theorem ensures_checkRegistered (expected type : TypeRef) (id : String) (store : Store) :
    Ensures (checkRegistered expected type id) store (fun next => next = store)
      fun _ _ => True := by
  unfold checkRegistered
  split
  · exact .pure rfl trivial
  · refine .get_bind ?_
    split
    · exact .pure rfl trivial
    · split
      · exact .pure rfl trivial
      · split
        · exact .pure rfl trivial
        · exact .throw rfl

/-- Asking for the fields changes nothing. There are none but those of the type of the entity,
and where the object names a type it is that one. -/
theorem ensures_fieldsOf (m : Materializer) (entity : EntityId) (id : Option String)
    (members : List (String × Json)) (store : Store) :
    Ensures (m.fieldsOf entity id members) store (fun next => next = store) fun fields _ =>
      ∀ type, store.typeOf? entity = some type →
        fields = (m.schema.fields? type).getD [] ∧
          ∀ name, Json.lookup Name.discriminator members = some (.string name) →
            name = type.name := by
  unfold fieldsOf
  refine .get_bind ?_
  split
  · next hnone =>
      refine .pure rfl ?_
      intro type htype
      simp [hnone] at htype
  · next found hfound =>
      split
      · next name hname =>
          split
          · exact .throw rfl
          · next heq =>
              -- The name was compared with that of the type.
              refine .pure rfl ?_
              intro type htype
              obtain rfl : found = type := Option.some.inj (hfound.symm.trans htype)
              refine ⟨rfl, ?_⟩
              intro other hother
              have hsame : name = other := by simpa [hname] using hother
              rw [← hsame]
              simpa using heq
      · next hother =>
          refine .pure rfl ?_
          intro type htype
          obtain rfl : found = type := Option.some.inj (hfound.symm.trans htype)
          exact ⟨rfl, fun name hname => absurd hname (hother name)⟩

theorem value_object (m : Materializer) {type : GraphType} {kind : TypeKind} {expected : TypeRef}
    (htype : type.nullable = .named kind expected) (hkind : kind.isComposite = true) (depth : Nat)
    (members : List (String × Json)) :
    m.value type depth (.object members) = (do
      m.checkDepth depth
      let (entity, fields) ← m.enter expected members
      populate m entity fields (depth + 1) members
      return .object entity) := by
  rw [value]
  simp only [htype, hkind, if_true, enter, bind_assoc, pure_bind]

/-- The field that a member gives a value to is one of the fields. -/
theorem mem_of_member {fields : List Field} {key : String} {field : Field}
    (h : (if key = Name.discriminator then none else Keyed.find? Field.name key fields) =
      some field) : field ∈ fields := by
  split at h
  · cases h
  · exact (Keyed.mem_of_find? h).1

/-- An object is a leaf where no composite type is expected. -/
theorem value_of_not_composite (m : Materializer) {type : GraphType} {depth : Nat}
    {members : List (String × Json)}
    (h : ¬∃ kind expected, type.nullable = .named kind expected ∧ kind.isComposite = true) :
    m.value type depth (.object members) =
      (do m.checkDepth depth; m.leaf type.nullable (.object members)) := by
  rw [value]
  split
  · next kind expected hnullable =>
      rw [if_neg fun hkind => h ⟨kind, expected, hnullable, hkind⟩, hnullable]
  · rfl

namespace Discipline

variable {m : Materializer} {Inv : Store → Prop} {Rel : Store → Store → Prop}
  {Expected : GraphType → Prop} {Fits : Store → GraphType → Value → Prop}
  {Owns : Store → EntityId → List Field → Prop} {depth : Nat} {store : Store}

theorem after_refl (d : Discipline m Inv Rel Expected Fits Owns) (hinv : Inv store) :
    After Inv Rel store store :=
  ⟨hinv, d.refl store⟩

theorem after_trans (d : Discipline m Inv Rel Expected Fits Owns) {a b c : Store}
    (hab : After Inv Rel a b) (hbc : After Inv Rel b c) : After Inv Rel a c :=
  ⟨hbc.inv, d.trans hab.rel hbc.rel⟩

theorem bind (d : Discipline m Inv Rel Expected Fits Owns) {α β : Type} {x : Materialization α}
    {f : α → Materialization β} {mid : α → Store → Prop} {success : β → Store → Prop}
    (hx : Ensures x store (After Inv Rel store) mid)
    (hf : ∀ a next, After Inv Rel store next → mid a next →
      Ensures (f a) next (After Inv Rel next) success) :
    Ensures (x >>= f) store (After Inv Rel store) success :=
  After.bind hx d.trans hf

/-- What materializing a value ensures, at every depth and for every type it is expected of. -/
def Sound (_ : Discipline m Inv Rel Expected Fits Owns) (json : Json) : Prop :=
  ∀ {type : GraphType} {depth : Nat} {store : Store}, Expected type → Inv store →
    Ensures (m.value type depth json) store (After Inv Rel store) fun v next => Fits next type v

theorem items_of_forall (d : Discipline m Inv Rel Expected Fits Owns) {type : GraphType}
    {elements : List Json} (hall : ∀ json ∈ elements, d.Sound json) (htype : Expected type)
    (hinv : Inv store) :
    Ensures (m.items type depth elements) store (After Inv Rel store) fun values next =>
      ∀ v ∈ values, Fits next type v := by
  -- Items that are done keep to their type while the later ones change the store.
  induction elements generalizing store with
  | nil =>
      rw [Materializer.items]
      exact .pure (d.after_refl hinv) nofun
  | cons json rest ih =>
      rcases List.forall_mem_cons.1 hall with ⟨hjson, hrest⟩
      rw [Materializer.items]
      refine d.bind (hjson htype hinv) fun first next hnext hfirst => ?_
      refine d.bind (ih hrest hnext.inv) fun others last hlast hothers => ?_
      refine .pure (d.after_refl hlast.inv) ?_
      exact List.forall_mem_cons.2 ⟨d.fits_mono hlast.rel hfirst, hothers⟩

theorem populate_of_forall (d : Discipline m Inv Rel Expected Fits Owns) {entity : EntityId}
    {fields : List Field} {members : List (String × Json)}
    (hall : ∀ member ∈ members, d.Sound member.2) (howns : Owns store entity fields)
    (hinv : Inv store) :
    Ensures (m.populate entity fields depth members) store (After Inv Rel store)
      fun _ _ => True := by
  -- The entity owns its fields in every store on the way.
  induction members generalizing store with
  | nil =>
      rw [Materializer.populate]
      exact .pure (d.after_refl hinv) trivial
  | cons member rest ih =>
      rcases member with ⟨key, json⟩
      rcases List.forall_mem_cons.1 hall with ⟨hjson, hrest⟩
      rw [Materializer.populate]
      split
      · exact ih hrest howns hinv
      · next field hfield =>
          have hmem : field ∈ fields := mem_of_member hfield
          -- First the value of the member, then the assignment, then the members behind it.
          refine d.bind (hjson (d.field howns hmem) hinv) fun v next hnext hv => ?_
          have hownsNext := d.owns_mono hnext.rel howns
          have hassign := d.assign hnext.inv hownsNext hmem hv
          refine .bind_of_eq (Materialization.runOn_assign _ _ _) ?_
          have hothers := ih hrest (d.owns_mono hassign.rel hownsNext) hassign.inv
          exact hothers.mono (fun _ => d.after_trans hassign) fun _ _ _ h => h

theorem leaf_of_ne_null (d : Discipline m Inv Rel Expected Fits Owns) {type : GraphType}
    {json : Json} (hjson : json ≠ .null) (hinv : Inv store) :
    Ensures (do m.checkDepth depth; m.leaf type.nullable json) store (After Inv Rel store)
      fun v next => Fits next type v := by
  refine .lift_bind (d.after_refl hinv) fun _ _ => ?_
  exact .lift (d.after_refl hinv) fun v hv => d.leaf hjson hv

/-- What the discipline says of the steps of a materializer holds of all values. -/
theorem value (d : Discipline m Inv Rel Expected Fits Owns) (json : Json) : d.Sound json := by
  induction json with
  | null =>
      intro type depth store htype hinv
      rw [Materializer.value]
      refine .lift_bind (d.after_refl hinv) fun _ _ => ?_
      split
      · next hnull => exact .pure (d.after_refl hinv) (d.null hnull)
      · exact .throw (d.after_refl hinv)
  | bool _ | number _ | string _ =>
      intro type depth store _ hinv
      rw [Materializer.value]
      · exact d.leaf_of_ne_null (by simp) hinv
      all_goals simp
  | array elements ih =>
      intro type depth store htype hinv
      rw [Materializer.value]
      refine .lift_bind (d.after_refl hinv) fun _ _ => ?_
      split
      · next item hitem =>
          refine d.bind (d.items_of_forall ih (d.item htype hitem) hinv)
            fun values next hnext hvalues => ?_
          exact .pure (d.after_refl hnext.inv) (d.list hitem hvalues)
      · have hne : Json.array elements ≠ .null := nofun
        exact .lift (d.after_refl hinv) fun v hv => d.leaf hne hv
  | object members ih =>
      intro type depth store htype hinv
      -- An object is an entity where a composite type is expected, and a leaf elsewhere.
      by_cases hobject : ∃ kind expected, type.nullable = .named kind expected ∧
          kind.isComposite = true
      · rcases hobject with ⟨kind, expected, hnullable, hkind⟩
        rw [m.value_object hnullable hkind]
        refine .lift_bind (d.after_refl hinv) fun _ _ => ?_
        refine d.bind (d.enter htype hnullable hkind hinv) fun found next hnext hfound => ?_
        refine d.bind (d.populate_of_forall ih hfound.1 hnext.inv) fun _ last hlast _ => ?_
        exact .pure (d.after_refl hlast.inv) (d.fits_mono hlast.rel hfound.2)
      · rw [m.value_of_not_composite hobject]
        exact d.leaf_of_ne_null nofun hinv

end Discipline

end Materializer

end GraphQuery
