import GraphQuery.Proofs.Entity.Replay

/-!
# Entity.Limits — one response under two recursion limits

The recursion limit ends a run at the first value that lies too deep, and does nothing else. Under a
higher limit a run takes the same steps until then and goes on, so it has bound all that the shorter
run has bound, and it never takes a binding back.

- `Materializer.limited` : a materializer with another recursion limit
- `Materialization.Preserving` : computations that take no binding back and change no type, whatever
  store they start at
- `Materialization.StopsShort` : a computation that does what another one does, or gives up on the
  way
- `Materializer.stopsShort_value` : materializing under a lower limit stops short of materializing
- `Materializer.materialize_of_limit_le` : a higher limit changes nothing but where the lower one is
  exceeded
-/

set_option autoImplicit false

namespace GraphQuery

open Materialization (runOn)

namespace Materialization

variable {α β : Type} {e : MaterializeError} {x y : Materialization α}
  {f g : α → Materialization β}

/-! ## Computations that preserve -/

/-- Bindings stay, and entities with their types, whatever is in the store and whether or not the
computation succeeds. -/
def Preserving (x : Materialization α) : Prop :=
  ∀ store : Store, store.Preserves (runOn x store).2

namespace Preserving

theorem pure (a : α) : Preserving (Pure.pure a) :=
  fun store => .refl store

theorem lift (r : Except MaterializeError α) : Preserving (liftM r) :=
  fun store => .refl store

theorem throw (e : MaterializeError) : Preserving (MonadExcept.throw e : Materialization α) :=
  fun store => .refl store

theorem bind (hx : Preserving x) (hf : ∀ a, Preserving (f a)) : Preserving (x >>= f) := by
  intro store
  have hfirst := hx store
  rw [runOn_bind]
  rcases hrun : runOn x store with ⟨cause | a, next⟩
  · simpa [hrun] using hfirst
  · have hnext : store.Preserves next := by simpa [hrun] using hfirst
    exact hnext.trans (hf a next)

theorem get_bind {f : Store → Materialization β} (hf : ∀ store, Preserving (f store)) :
    Preserving (get >>= f) :=
  bind (fun store => .refl store) hf

theorem create (type : TypeRef) : Preserving (create type) :=
  fun store => (store.sameBindings_allocate type).preserves

theorem register (type : TypeRef) (id : String) (entity : EntityId) :
    Preserving (register type id entity) :=
  fun _ => ⟨fun hkey => Cache.lookup_getOrInsert_kept hkey, ⟨fun htype => htype⟩⟩

theorem assign (entity : EntityId) (field : String) (v : Value) :
    Preserving (assign entity field v) :=
  fun store => (store.sameBindings_set entity field v).preserves

end Preserving

/-! ## Computations that stop short of others -/

/-- The first computation does what the second one does, or it fails for a cause on the way: the
second one goes on from there, and preserves what it finds. -/
structure StopsShort (e : MaterializeError) (x y : Materialization α) : Prop where
  preserving : Preserving y
  same_or_stops : ∀ store, runOn x store = runOn y store ∨
    ∃ found, runOn x store = (.error e, found) ∧ found.Preserves (runOn y store).2

namespace StopsShort

theorem refl (h : Preserving x) : StopsShort e x x :=
  ⟨h, fun _ => .inl rfl⟩

theorem bind (hx : StopsShort e x y) (hf : ∀ a, StopsShort e (f a) (g a)) :
    StopsShort e (x >>= f) (y >>= g) where
  preserving := hx.preserving.bind fun a => (hf a).preserving
  same_or_stops := by
    intro store
    rcases hx.same_or_stops store with hsame | ⟨found, hstops, hfound⟩
    · -- Both go on from the same store, if they succeed so far.
      rw [runOn_bind, runOn_bind, hsame]
      rcases runOn y store with ⟨cause | a, next⟩
      · exact .inl rfl
      · exact (hf a).same_or_stops next
    · -- The first one is over; the second one goes on with what is preserved.
      refine .inr ⟨found, runOn_bind_of_error hstops, ?_⟩
      rw [runOn_bind]
      rcases hrun : runOn y store with ⟨cause | a, next⟩
      · simpa [hrun] using hfound
      · have hnext : found.Preserves next := by simpa [hrun] using hfound
        exact hnext.trans ((hf a).preserving next)

end StopsShort

end Materialization

namespace Materializer

open Materialization (Preserving StopsShort)

/-! ## Objects -/

section Preserving

variable (m : Materializer)

theorem preserving_registerAliases (id : String) (entity : EntityId) (types : List TypeRef) :
    Preserving (registerAliases id entity types) := by
  induction types with
  | nil => exact .pure ()
  | cons type rest ih =>
      refine (Preserving.register type id entity).bind fun registered => ?_
      split
      · exact ih
      · exact .throw _

theorem preserving_checkRegistered (expected type : TypeRef) (id : String) :
    Preserving (checkRegistered expected type id) := fun store => by
  have hsame := (ensures_checkRegistered expected type id store).always
  rw [hsame]
  exact .refl store

theorem preserving_fieldsOf (entity : EntityId) (id : Option String)
    (members : List (String × Json)) : Preserving (m.fieldsOf entity id members) := fun store => by
  have hsame := (m.ensures_fieldsOf entity id members store).always
  rw [hsame]
  exact .refl store

theorem preserving_construct (type : TypeRef) (id : String) :
    Preserving (m.construct type id) := by
  unfold construct
  refine (Preserving.lift _).bind fun concrete => ?_
  refine (Preserving.create concrete).bind fun created => ?_
  refine (Preserving.register concrete id created).bind fun entity => ?_
  exact (preserving_registerAliases id entity _).bind fun _ => .pure entity

theorem preserving_resolve (expected : TypeRef) (members : List (String × Json)) :
    Preserving (m.resolve expected members) := by
  unfold resolve
  refine (Preserving.lift _).bind fun found => ?_
  refine (Preserving.lift _).bind fun id => ?_
  cases id with
  | none =>
      refine (Preserving.lift _).bind fun concrete => ?_
      exact (Preserving.create concrete).bind fun _ => .pure _
  | some id =>
      refine (preserving_checkRegistered _ _ id).bind fun _ => .get_bind fun store => ?_
      split
      · exact .pure _
      · exact (m.preserving_construct _ id).bind fun _ => .pure _

theorem preserving_enter (expected : TypeRef) (members : List (String × Json)) :
    Preserving (m.enter expected members) := by
  unfold enter
  refine (m.preserving_resolve expected members).bind fun found => ?_
  exact (m.preserving_fieldsOf found.1 found.2 members).bind fun _ => .pure _

end Preserving

/-! ## Values -/

/-- The same materializer under another recursion limit. -/
def limited (m : Materializer) (limit : Nat) : Materializer :=
  { m with configuration := { m.configuration with recursionLimit := limit } }

/-- Materializing a value under one limit stops short of materializing it under another one, at
every depth and for every type. -/
def ValueStopsShort (m : Materializer) (limit limit' : Nat) (json : Json) : Prop :=
  ∀ (type : GraphType) (depth : Nat), StopsShort (.recursionLimitExceeded limit)
    ((m.limited limit).value type depth json) ((m.limited limit').value type depth json)

section Limits

variable {limit limit' : Nat} (h : limit ≤ limit') (m : Materializer)
include h

/-- A depth that the lower limit allows is allowed by the higher one. -/
theorem stopsShort_checkDepth (depth : Nat) :
    StopsShort (.recursionLimitExceeded limit) (liftM ((m.limited limit).checkDepth depth))
      (liftM ((m.limited limit').checkDepth depth)) where
  preserving := .lift _
  same_or_stops := by
    intro store
    by_cases hdepth : limit < depth
    · have hstops : (m.limited limit).checkDepth depth =
          .error (.recursionLimitExceeded limit) := if_pos hdepth
      rw [hstops]
      exact .inr ⟨store, rfl, .refl store⟩
    · have hlower : (m.limited limit).checkDepth depth = .ok () := if_neg hdepth
      have hhigher : (m.limited limit').checkDepth depth = .ok () :=
        if_neg fun hless => hdepth (Nat.lt_of_le_of_lt h hless)
      rw [hlower, hhigher]
      exact .inl rfl

theorem stopsShort_leaf (type : GraphType) (depth : Nat) (json : Json) :
    StopsShort (.recursionLimitExceeded limit)
      (do (m.limited limit).checkDepth depth; (m.limited limit).leaf type json)
      (do (m.limited limit').checkDepth depth; (m.limited limit').leaf type json) :=
  (stopsShort_checkDepth h m depth).bind fun _ => .refl (.lift (m.leaf type json))

omit h in
theorem stopsShort_items {elements : List Json}
    (hall : ∀ json ∈ elements, m.ValueStopsShort limit limit' json) (type : GraphType)
    (depth : Nat) : StopsShort (.recursionLimitExceeded limit)
      ((m.limited limit).items type depth elements)
      ((m.limited limit').items type depth elements) := by
  induction elements with
  | nil =>
      rw [items, items]
      exact .refl (.pure [])
  | cons json rest ih =>
      rcases List.forall_mem_cons.1 hall with ⟨hjson, hrest⟩
      rw [items, items]
      refine (hjson type depth).bind fun first => ?_
      exact (ih hrest).bind fun others => .refl (.pure _)

omit h in
theorem stopsShort_populate {members : List (String × Json)}
    (hall : ∀ member ∈ members, m.ValueStopsShort limit limit' member.2) (entity : EntityId)
    (fields : List Field) (depth : Nat) : StopsShort (.recursionLimitExceeded limit)
      ((m.limited limit).populate entity fields depth members)
      ((m.limited limit').populate entity fields depth members) := by
  induction members with
  | nil =>
      rw [populate, populate]
      exact .refl (.pure ())
  | cons member rest ih =>
      rcases member with ⟨key, json⟩
      rcases List.forall_mem_cons.1 hall with ⟨hjson, hrest⟩
      rw [populate, populate]
      split
      · exact ih hrest
      · next field hfield =>
          refine (hjson field.type depth).bind fun v => ?_
          refine (StopsShort.refl (.assign entity field.name v)).bind fun _ => ?_
          exact ih hrest

/-- Two runs that differ in their limits go through a value step by step. -/
theorem stopsShort_value (json : Json) : m.ValueStopsShort limit limit' json := by
  induction json with
  | null =>
      intro type depth
      rw [value, value]
      refine (stopsShort_checkDepth h m depth).bind fun _ => .refl ?_
      split
      · exact .pure _
      · exact .throw _
  | bool _ | number _ | string _ =>
      intro type depth
      rw [value, value]
      · exact stopsShort_leaf h m _ _ _
      all_goals simp
  | array elements ih =>
      intro type depth
      rw [value, value]
      refine (stopsShort_checkDepth h m depth).bind fun _ => ?_
      split
      · next item hitem =>
          exact (stopsShort_items m ih item (depth + 1)).bind fun _ => .refl (.pure _)
      · exact .refl (.lift _)
  | object members ih =>
      intro type depth
      by_cases hobject : ∃ kind expected, type.nullable = .named kind expected ∧
          kind.isComposite = true
      · rcases hobject with ⟨kind, expected, hnullable, hkind⟩
        rw [value_object _ hnullable hkind, value_object _ hnullable hkind]
        refine (stopsShort_checkDepth h m depth).bind fun _ => ?_
        -- Entering an object does not look at the limit.
        refine (StopsShort.refl (m.preserving_enter expected members)).bind fun found => ?_
        exact (stopsShort_populate m ih found.1 found.2 (depth + 1)).bind fun _ => .refl (.pure _)
      · rw [value_of_not_composite _ hobject, value_of_not_composite _ hobject]
        exact stopsShort_leaf h m _ _ _

end Limits

/-- Whatever the response and the store, a materializer with a higher recursion limit has the same
outcome and leaves the same store as one with a lower limit, unless that one exceeds its limit.
Where it does, all that it has bound is bound to the same entities, of the same types, under the
higher limit. -/
theorem materialize_of_limit_le {limit limit' : Nat} (h : limit ≤ limit') (m : Materializer)
    (json : Json) (type : GraphType) (store : Store)
    {outcome : Except MaterializeError Value} {next : Store}
    (hrun : runOn ((m.limited limit).materialize json type) store = (outcome, next)) :
    (outcome ≠ .error (.recursionLimitExceeded limit) →
        runOn ((m.limited limit').materialize json type) store = (outcome, next)) ∧
      (outcome = .error (.recursionLimitExceeded limit) →
        next.Preserves (runOn ((m.limited limit').materialize json type) store).2) := by
  have hstops := stopsShort_value h m json type 0
  rcases hstops.same_or_stops store with hsame | ⟨found, hfailed, hfound⟩
  · have hrun' : runOn ((m.limited limit').materialize json type) store = (outcome, next) :=
      hsame.symm.trans hrun
    refine ⟨fun _ => hrun', fun _ => ?_⟩
    rw [hrun']
    exact .refl next
  · -- The lower limit is exceeded, and the run under the higher one goes on.
    cases hfailed.symm.trans hrun
    exact ⟨fun hne => absurd rfl hne, fun _ => hfound⟩

/-- The shelf with two books behind each other, read under a recursion limit. -/
def shelfUnder (limit : Nat) : Except MaterializeError Value × Store :=
  runOn ((shelfCall.materializer.limited limit).materialize shelfCall.json shelfCall.type)
    Store.empty

/-- With two levels the second book is bound, but its fields lie too deep. With four levels it is
bound to the same entity, and more levels change nothing. -/
theorem materialize_shelf_of_limits :
    (shelfUnder 2).1 = .error (.recursionLimitExceeded 2) ∧
      (shelfUnder 4).1 = .ok (.list [.object ⟨0⟩]) ∧ shelfUnder 512 = shelfUnder 4 ∧
      (shelfUnder 2).2.cache.lookup ⟨"Book", "2"⟩ = some ⟨1⟩ ∧
      (shelfUnder 4).2.cache.lookup ⟨"Book", "2"⟩ = some ⟨1⟩ := by
  have hcut : (shelfUnder 2).1 = .error (.recursionLimitExceeded 2) := rfl
  have hwhole : (shelfUnder 4).1 = .ok (.list [.object ⟨0⟩]) := rfl
  have hbound : (shelfUnder 2).2.cache.lookup ⟨"Book", "2"⟩ = some ⟨1⟩ := by decide
  -- From two levels to four, what is bound stays; from four levels on, nothing changes.
  have hkept : (shelfUnder 2).2.Preserves (shelfUnder 4).2 :=
    (materialize_of_limit_le (by decide : 2 ≤ 4) _ _ _ _ (Prod.ext hcut rfl)).2 rfl
  have hsame : shelfUnder 512 = (.ok (.list [.object ⟨0⟩]), (shelfUnder 4).2) :=
    (materialize_of_limit_le (by decide : 4 ≤ 512) _ _ _ _ (Prod.ext hwhole rfl)).1 nofun
  exact ⟨hcut, hwhole, hsame.trans (Prod.ext hwhole rfl).symm, hbound, hkept.kept hbound⟩

end Materializer

end GraphQuery
