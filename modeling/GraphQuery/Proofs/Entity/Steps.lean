import GraphQuery.Proofs.Entity.Runs
import Mathlib.Logic.Relation

/-!
# Entity.Steps — a run as a sequence of steps

Materializing changes a store in two ways: an object is entered, which finds or makes its entity,
and a field of an entity is set. A run takes such steps one after the other, and ends with a result
or at the first object or value that fails.

- `Materializer.Step` : a change that a run makes, in a store that obeys an invariant
- `Materializer.Fails` : what a run fails at
- `Materializer.Traced` : a computation that takes steps, and fails at one if it fails
- `Materializer.Discipline.traced` : every run is such a computation
-/

set_option autoImplicit false

namespace GraphQuery

open Materialization (Ensures runOn)

/-- Whether a registration failed because a type has another entity of the identity. -/
def MaterializeError.isDuplicate : MaterializeError → Bool
  | .duplicateEntity _ _ => true
  | _ => false

namespace Materializer

/-- A change that a run makes to a store that obeys an invariant: an object is entered where its
type is expected, or a field of an entity is set. -/
inductive Step (m : Materializer) (Inv : Store → Prop) (Expected : GraphType → Prop) :
    Store → Store → Prop where
  | enter {type : GraphType} {kind : TypeKind} {expected : TypeRef}
      {members : List (String × Json)} {found : EntityId × List Field} {store next : Store} :
      Expected type → type.nullable = .named kind expected → kind.isComposite = true →
      Inv store → runOn (m.enter expected members) store = (.ok found, next) →
      Step m Inv Expected store next
  | assign {entity : EntityId} {field : String} {v : Value} {store : Store} : Inv store →
      Step m Inv Expected store { store with heap := store.heap.set entity field v }

/-- What a run fails at: an object that cannot be entered, or a value that is not of its type or
lies too deep. The latter leaves the store as it is, and has nothing to do with registrations. -/
inductive Fails (m : Materializer) (Inv : Store → Prop) (Expected : GraphType → Prop)
    (e : MaterializeError) : Store → Store → Prop where
  | enter {type : GraphType} {kind : TypeKind} {expected : TypeRef}
      {members : List (String × Json)} {store next : Store} :
      Expected type → type.nullable = .named kind expected → kind.isComposite = true →
      Inv store → runOn (m.enter expected members) store = (.error e, next) →
      Fails m Inv Expected e store next
  | value {store : Store} : e.isDuplicate = false → Fails m Inv Expected e store store

abbrev Steps (m : Materializer) (Inv : Store → Prop) (Expected : GraphType → Prop) :
    Store → Store → Prop :=
  Relation.ReflTransGen (m.Step Inv Expected)

/-- A computation that takes steps from a store on, and fails at one if it fails. -/
structure Traced (m : Materializer) (Inv : Store → Prop) (Expected : GraphType → Prop)
    {α : Type} (x : Materialization α) (store : Store) : Prop where
  ok : ∀ {a next}, runOn x store = (.ok a, next) → m.Steps Inv Expected store next
  error : ∀ {e next}, runOn x store = (.error e, next) →
    ∃ mid, m.Steps Inv Expected store mid ∧ m.Fails Inv Expected e mid next

section Traced

variable {m : Materializer} {Inv : Store → Prop} {Expected : GraphType → Prop} {α β : Type}
  {x : Materialization α} {f : α → Materialization β} {store next : Store}

theorem Traced.of_eq {a : α} (h : runOn x store = (.ok a, next))
    (hsteps : m.Steps Inv Expected store next) : m.Traced Inv Expected x store where
  ok := by
    intro b last hb
    have heq : next = last := by simpa [h] using congrArg Prod.snd hb
    exact heq ▸ hsteps
  error := by
    intro e last he
    simp [h] at he

theorem Traced.pure (a : α) : m.Traced Inv Expected (Pure.pure a) store :=
  .of_eq rfl .refl

/-- What comes from outside the store is no failed registration. -/
theorem Traced.lift {r : Except MaterializeError α}
    (hr : ∀ e, r = .error e → e.isDuplicate = false) :
    m.Traced Inv Expected (liftM r) store := by
  cases r with
  | ok a => exact .of_eq rfl .refl
  | error e =>
      refine ⟨nofun, ?_⟩
      rintro _ _ ⟨⟩
      exact ⟨store, .refl, .value (hr e rfl)⟩

theorem Traced.throw {e : MaterializeError} (he : e.isDuplicate = false) :
    m.Traced Inv Expected (MonadExcept.throw e : Materialization α) store :=
  Traced.lift (r := .error e) (by rintro _ ⟨⟩; exact he)

/-- The steps of two computations in a row are those of the first, and then those of the second if
the first does not fail. -/
theorem Traced.bind (hx : m.Traced Inv Expected x store)
    (hf : ∀ a next, runOn x store = (.ok a, next) → m.Traced Inv Expected (f a) next) :
    m.Traced Inv Expected (x >>= f) store := by
  rcases hrun : runOn x store with ⟨e | a, mid⟩
  · -- The first one fails, and with it both.
    have hboth : runOn (x >>= f) store = (.error e, mid) :=
      Materialization.runOn_bind_of_error hrun
    refine ⟨?_, ?_⟩
    · intro b next hb
      simp [hboth] at hb
    · intro cause next hcause
      have heq : e = cause ∧ mid = next := by simpa [hboth] using hcause
      rcases heq with ⟨rfl, rfl⟩
      exact hx.error hrun
  · have hboth : runOn (x >>= f) store = runOn (f a) mid :=
      Materialization.runOn_bind_of_ok hrun
    have hfirst := hx.ok hrun
    have hsecond := hf a mid hrun
    refine ⟨?_, ?_⟩
    · intro b next hb
      exact hfirst.trans (hsecond.ok (hboth ▸ hb))
    · intro e next he
      rcases hsecond.error (hboth ▸ he) with ⟨last, hsteps, hfails⟩
      exact ⟨last, hfirst.trans hsteps, hfails⟩

theorem Traced.enter {type : GraphType} {kind : TypeKind} {expected : TypeRef}
    {members : List (String × Json)} (htype : Expected type)
    (hexpected : type.nullable = .named kind expected) (hkind : kind.isComposite = true)
    (hinv : Inv store) : m.Traced Inv Expected (m.enter expected members) store where
  ok h := .single (.enter htype hexpected hkind hinv h)
  error h := ⟨store, .refl, .enter htype hexpected hkind hinv h⟩

end Traced

/-! ## Values that fail by themselves -/

section Value

variable {m : Materializer} {e : MaterializeError}

theorem isDuplicate_of_checkDepth {depth : Nat} (h : m.checkDepth depth = .error e) :
    e.isDuplicate = false := by
  unfold checkDepth at h
  split at h <;> cases h
  rfl

theorem isDuplicate_of_leaf {type : GraphType} {json : Json} (h : m.leaf type json = .error e) :
    e.isDuplicate = false := by
  unfold leaf at h
  split at h
  · cases h
  · split at h
    · split at h <;> cases h
      rfl
    · cases h
      rfl
  · cases h
    rfl
  · cases h
    rfl

theorem traced_leaf {Inv : Store → Prop} {Expected : GraphType → Prop} {depth : Nat}
    {store : Store} (m : Materializer) (type : GraphType) (json : Json) :
    m.Traced Inv Expected (do m.checkDepth depth; m.leaf type json) store :=
  (Traced.lift fun _ => isDuplicate_of_checkDepth).bind
    fun _ _ _ => .lift fun _ => isDuplicate_of_leaf

end Value

namespace Discipline

variable {m : Materializer} {Inv : Store → Prop} {Rel : Store → Store → Prop}
  {Expected : GraphType → Prop} {Fits : Store → GraphType → Value → Prop}
  {Owns : Store → EntityId → List Field → Prop} {depth : Nat} {store : Store}

/-- What the steps of materializing a value are, at every depth and for every type. -/
def TracesValue (_ : Discipline m Inv Rel Expected Fits Owns) (json : Json) : Prop :=
  ∀ {type : GraphType} {depth : Nat} {store : Store}, Expected type → Inv store →
    m.Traced Inv Expected (m.value type depth json) store

theorem traced_items (d : Discipline m Inv Rel Expected Fits Owns) {type : GraphType}
    {elements : List Json} (hall : ∀ json ∈ elements, d.TracesValue json)
    (htype : Expected type) (hinv : Inv store) :
    m.Traced Inv Expected (m.items type depth elements) store := by
  induction elements generalizing store with
  | nil =>
      rw [Materializer.items]
      exact .pure []
  | cons json rest ih =>
      rcases List.forall_mem_cons.1 hall with ⟨hjson, hrest⟩
      rw [Materializer.items]
      refine (hjson htype hinv).bind fun first next hfirst => ?_
      -- The discipline says that the items behind the first one start with a store that obeys.
      have hnext : Inv next := by
        have hvalue : (m.value type depth json).Ensures store (After Inv Rel store)
            fun v next => Fits next type v := d.value json htype hinv
        simpa [hfirst] using hvalue.always.inv
      exact (ih hrest hnext).bind fun others last _ => .pure _

theorem traced_populate (d : Discipline m Inv Rel Expected Fits Owns) {entity : EntityId}
    {fields : List Field} {members : List (String × Json)}
    (hall : ∀ member ∈ members, d.TracesValue member.2) (howns : Owns store entity fields)
    (hinv : Inv store) :
    m.Traced Inv Expected (m.populate entity fields depth members) store := by
  induction members generalizing store with
  | nil =>
      rw [Materializer.populate]
      exact .pure ()
  | cons member rest ih =>
      rcases member with ⟨key, json⟩
      rcases List.forall_mem_cons.1 hall with ⟨hjson, hrest⟩
      rw [Materializer.populate]
      split
      · exact ih hrest howns hinv
      · next field hfield =>
          have hmem : field ∈ fields := mem_of_member hfield
          have hexpected := d.field howns hmem
          refine (hjson hexpected hinv).bind fun v next hv => ?_
          have hvalue : (m.value field.type depth json).Ensures store (After Inv Rel store)
              fun v next => Fits next field.type v := d.value json hexpected hinv
          have hafter : After Inv Rel store next := by simpa [hv] using hvalue.always
          have hfits : Fits next field.type v := by
            simpa [hv] using hvalue.success v (by simp [hv])
          have hownsNext := d.owns_mono hafter.rel howns
          have hassign := d.assign hafter.inv hownsNext hmem hfits
          refine Traced.bind (.of_eq (Materialization.runOn_assign _ _ _)
            (.single (.assign hafter.inv))) fun _ last hlast => ?_
          have heq : { next with heap := next.heap.set entity field.name v } = last := by
            simpa [Materialization.runOn_assign] using hlast
          subst heq
          exact ih hrest (d.owns_mono hassign.rel hownsNext) hassign.inv

/-- Whatever a materializer is given, it takes one step after the other. -/
theorem traced (d : Discipline m Inv Rel Expected Fits Owns) (json : Json) :
    d.TracesValue json := by
  induction json with
  | null =>
      intro type depth store htype hinv
      rw [Materializer.value]
      refine (Traced.lift fun _ => isDuplicate_of_checkDepth).bind fun _ next _ => ?_
      split
      · exact .pure _
      · exact .throw rfl
  | bool _ | number _ | string _ =>
      intro type depth store _ _
      rw [Materializer.value]
      · exact traced_leaf m _ _
      all_goals simp
  | array elements ih =>
      intro type depth store htype hinv
      rw [Materializer.value]
      refine (Traced.lift fun _ => isDuplicate_of_checkDepth).bind fun _ next hcheck => ?_
      obtain rfl : store = next := Materialization.same_of_runOn_lift hcheck
      split
      · next item hitem =>
          refine Traced.bind ?_ fun _ _ _ => .pure _
          exact d.traced_items ih (d.item htype hitem) hinv
      · exact .lift fun _ => isDuplicate_of_leaf
  | object members ih =>
      intro type depth store htype hinv
      by_cases hobject : ∃ kind expected, type.nullable = .named kind expected ∧
          kind.isComposite = true
      · rcases hobject with ⟨kind, expected, hnullable, hkind⟩
        rw [m.value_object hnullable hkind]
        refine (Traced.lift fun _ => isDuplicate_of_checkDepth).bind fun _ next hcheck => ?_
        obtain rfl : store = next := Materialization.same_of_runOn_lift hcheck
        refine (Traced.enter htype hnullable hkind hinv).bind fun found mid hfound => ?_
        -- The discipline says that the object owns its fields once it is entered.
        have henter : (m.enter expected members).Ensures store (After Inv Rel store)
            fun found next => Owns next found.1 found.2 ∧ Fits next type (.object found.1) :=
          d.enter htype hnullable hkind hinv
        have hafter : After Inv Rel store mid := by simpa [hfound] using henter.always
        have howns : Owns mid found.1 found.2 := by
          simpa [hfound] using (henter.success found (by simp [hfound])).1
        exact (d.traced_populate ih howns hafter.inv).bind fun _ _ _ => .pure _
      · rw [m.value_of_not_composite hobject]
        exact traced_leaf m _ _

end Discipline

end Materializer

end GraphQuery
