import GraphQuery.Proofs.Entity.Runs
import GraphQuery.Schema.Declaration

/-!
# Entity.Trace — the moments of a run

Materializing a value comes to the values inside it one after the other, each with the store that
those before it have left. Calls follow each other in the same way.

- `Task`, `Task.after` : something to materialize, and the store when that is over
- `Materializer.Reaches` : the tasks that a task comes to, each with the store at that moment
- `Materializer.Reaches.between` : a reached task lies between the start and the end of its run
- `Call`, `Store.afterAll` : materializing a response, and several in a row
- `Store.Meets` : the moments of a sequence of calls
- `shelfCall` : a response in which two objects refer to each other
-/

set_option autoImplicit false

namespace GraphQuery

open Materialization (runOn)

/-- Something to materialize: a value, the items of a list, or the members of an object that set
fields of an entity. -/
inductive Task where
  | value (type : GraphType) (depth : Nat) (json : Json)
  | items (type : GraphType) (depth : Nat) (elements : List Json)
  | populate (entity : EntityId) (fields : List Field) (depth : Nat)
      (members : List (String × Json))

/-- The store when a task is over, whether or not it succeeds. -/
def Task.after (m : Materializer) (task : Task) (store : Store) : Store :=
  match task with
  | .value type depth json => (runOn (m.value type depth json) store).2
  | .items type depth elements => (runOn (m.items type depth elements) store).2
  | .populate entity fields depth members =>
      (runOn (m.populate entity fields depth members) store).2

namespace Materializer

/-- The field that a member sets. -/
def fieldOf? (fields : List Field) (key : String) : Option Field :=
  if key = Name.discriminator then none else Keyed.find? Field.name key fields

/-- A task that starts with one store comes to another task with another store. It comes to the
items of a list and the members of an object in order, as long as those before succeed. -/
inductive Reaches (m : Materializer) : Task → Store → Task → Store → Prop where
  | here {task : Task} {store : Store} : Reaches m task store task store
  | items {type item : GraphType} {depth : Nat} {elements : List Json} {store found : Store}
      {task : Task} :
      m.checkDepth depth = .ok () → type.nullable = .list item →
      Reaches m (.items item (depth + 1) elements) store task found →
      Reaches m (.value type depth (.array elements)) store task found
  | first {type : GraphType} {depth : Nat} {json : Json} {rest : List Json}
      {store found : Store} {task : Task} :
      Reaches m (.value type depth json) store task found →
      Reaches m (.items type depth (json :: rest)) store task found
  | rest {type : GraphType} {depth : Nat} {json : Json} {rest : List Json}
      {store next found : Store} {task : Task} {v : Value} :
      runOn (m.value type depth json) store = (.ok v, next) →
      Reaches m (.items type depth rest) next task found →
      Reaches m (.items type depth (json :: rest)) store task found
  | members {type : GraphType} {kind : TypeKind} {expected : TypeRef} {depth : Nat}
      {members : List (String × Json)} {entity : EntityId} {fields : List Field}
      {store next found : Store} {task : Task} :
      m.checkDepth depth = .ok () → type.nullable = .named kind expected →
      kind.isComposite = true →
      runOn (m.enter expected members) store = (.ok (entity, fields), next) →
      Reaches m (.populate entity fields (depth + 1) members) next task found →
      Reaches m (.value type depth (.object members)) store task found
  | member {entity : EntityId} {fields : List Field} {field : Field} {depth : Nat} {key : String}
      {json : Json} {rest : List (String × Json)} {store found : Store} {task : Task} :
      fieldOf? fields key = some field →
      Reaches m (.value field.type depth json) store task found →
      Reaches m (.populate entity fields depth ((key, json) :: rest)) store task found
  | others {entity : EntityId} {fields : List Field} {field : Field} {depth : Nat} {key : String}
      {json : Json} {rest : List (String × Json)} {store next found : Store} {task : Task}
      {v : Value} :
      fieldOf? fields key = some field →
      runOn (m.value field.type depth json) store = (.ok v, next) →
      Reaches m (.populate entity fields depth rest)
        { next with heap := next.heap.set entity field.name v } task found →
      Reaches m (.populate entity fields depth ((key, json) :: rest)) store task found
  | skip {entity : EntityId} {fields : List Field} {depth : Nat} {key : String} {json : Json}
      {rest : List (String × Json)} {store found : Store} {task : Task} :
      fieldOf? fields key = none →
      Reaches m (.populate entity fields depth rest) store task found →
      Reaches m (.populate entity fields depth ((key, json) :: rest)) store task found

/-! ## The end of a run -/

section After

variable {m : Materializer} {type item : GraphType} {kind : TypeKind} {expected : TypeRef}
  {depth : Nat} {json : Json} {elements : List Json} {key : String}
  {members : List (String × Json)} {entity : EntityId} {fields : List Field} {field : Field}
  {v : Value} {store next : Store}

theorem after_value :
    (Task.value type depth json).after m store = (runOn (m.value type depth json) store).2 := rfl

theorem after_items :
    (Task.items type depth elements).after m store =
      (runOn (m.items type depth elements) store).2 := rfl

theorem after_populate :
    (Task.populate entity fields depth members).after m store =
      (runOn (m.populate entity fields depth members) store).2 := rfl

theorem runOn_map_snd {α β : Type} (x : Materialization α) (f : α → β) (store : Store) :
    (runOn (x >>= fun a => pure (f a)) store).2 = (runOn x store).2 := by
  rw [Materialization.runOn_bind]
  rcases runOn x store with ⟨e | a, next⟩ <;> rfl

theorem after_array (hdepth : m.checkDepth depth = .ok ()) (hitem : type.nullable = .list item) :
    (Task.value type depth (.array elements)).after m store =
      (Task.items item (depth + 1) elements).after m store := by
  have hvalue : m.value type depth (.array elements) = (do
      m.checkDepth depth
      return .list (← m.items item (depth + 1) elements)) := by
    rw [value, hitem]
  calc (Task.value type depth (.array elements)).after m store
      = (runOn (m.value type depth (.array elements)) store).2 := rfl
    _ = (runOn (do return Value.list (← m.items item (depth + 1) elements)) store).2 := by
        rw [hvalue, Materialization.runOn_lift_bind hdepth]
    _ = (Task.items item (depth + 1) elements).after m store := runOn_map_snd _ _ _

theorem after_object (hdepth : m.checkDepth depth = .ok ())
    (hexpected : type.nullable = .named kind expected) (hkind : kind.isComposite = true)
    (henter : runOn (m.enter expected members) store = (.ok (entity, fields), next)) :
    (Task.value type depth (.object members)).after m store =
      (Task.populate entity fields (depth + 1) members).after m next := by
  calc (Task.value type depth (.object members)).after m store
      = (runOn (m.value type depth (.object members)) store).2 := rfl
    _ = (runOn (do
          m.populate entity fields (depth + 1) members
          return Value.object entity) next).2 := by
        rw [m.value_object hexpected hkind, Materialization.runOn_lift_bind hdepth,
          Materialization.runOn_bind_of_ok henter]
    _ = (Task.populate entity fields (depth + 1) members).after m next := runOn_map_snd _ _ _

theorem after_items_cons {rest : List Json}
    (hfirst : runOn (m.value type depth json) store = (.ok v, next)) :
    (Task.items type depth (json :: rest)).after m store =
      (Task.items type depth rest).after m next := by
  calc (Task.items type depth (json :: rest)).after m store
      = (runOn (m.items type depth (json :: rest)) store).2 := rfl
    _ = (runOn (do return v :: (← m.items type depth rest)) next).2 := by
        rw [items, Materialization.runOn_bind_of_ok hfirst]
    _ = (Task.items type depth rest).after m next := runOn_map_snd _ _ _

theorem populate_of_field {rest : List (String × Json)}
    (hfield : fieldOf? fields key = some field) :
    m.populate entity fields depth ((key, json) :: rest) = (do
      let v ← m.value field.type depth json
      Materialization.assign entity field.name v
      m.populate entity fields depth rest) := by
  unfold fieldOf? at hfield
  rw [populate, hfield]

theorem after_populate_cons {rest : List (String × Json)}
    (hfield : fieldOf? fields key = some field)
    (hfirst : runOn (m.value field.type depth json) store = (.ok v, next)) :
    (Task.populate entity fields depth ((key, json) :: rest)).after m store =
      (Task.populate entity fields depth rest).after m
        { next with heap := next.heap.set entity field.name v } := by
  calc (Task.populate entity fields depth ((key, json) :: rest)).after m store
      = (runOn (m.populate entity fields depth ((key, json) :: rest)) store).2 := rfl
    _ = (runOn (do
          Materialization.assign entity field.name v
          m.populate entity fields depth rest) next).2 := by
        rw [populate_of_field hfield, Materialization.runOn_bind_of_ok hfirst]
    _ = (runOn (m.populate entity fields depth rest)
          { next with heap := next.heap.set entity field.name v }).2 := by
        rw [Materialization.runOn_bind_of_ok (Materialization.runOn_assign _ _ _)]

theorem populate_of_skip {rest : List (String × Json)} (hfield : fieldOf? fields key = none) :
    m.populate entity fields depth ((key, json) :: rest) =
      m.populate entity fields depth rest := by
  unfold fieldOf? at hfield
  rw [populate, hfield]

theorem after_populate_skip {rest : List (String × Json)} (hfield : fieldOf? fields key = none) :
    (Task.populate entity fields depth ((key, json) :: rest)).after m store =
      (Task.populate entity fields depth rest).after m store := by
  calc (Task.populate entity fields depth ((key, json) :: rest)).after m store
      = (runOn (m.populate entity fields depth ((key, json) :: rest)) store).2 := rfl
    _ = (Task.populate entity fields depth rest).after m store := by
        rw [populate_of_skip hfield]
        rfl

end After

/-! ## Between the start and the end -/

/-- The laws that hold of a materializer whatever is expected. -/
abbrev Keeps (m : Materializer) (Inv : Store → Prop) (Rel : Store → Store → Prop) : Prop :=
  Discipline m Inv Rel (fun _ => True) (fun _ _ _ => True) (fun _ _ _ => True)

variable {m : Materializer} {Inv : Store → Prop} {Rel : Store → Store → Prop}
  {store found : Store} {task inner : Task}

theorem Keeps.after (d : m.Keeps Inv Rel) (task : Task) (hinv : Inv store) :
    After Inv Rel store (task.after m store) := by
  cases task with
  | value type depth json => exact (d.value json trivial hinv).always
  | items type depth elements =>
      exact (d.items_of_forall (fun json _ => d.value json) trivial hinv).always
  | populate entity fields depth members =>
      exact (d.populate_of_forall (fun member _ => d.value member.2) trivial hinv).always

theorem Keeps.after_value (d : m.Keeps Inv Rel) {type : GraphType} {depth : Nat} {json : Json}
    {outcome : Except MaterializeError Value} {next : Store}
    (h : runOn (m.value type depth json) store = (outcome, next)) (hinv : Inv store) :
    After Inv Rel store next := by
  have hafter : After Inv Rel store (runOn (m.value type depth json) store).2 :=
    d.after (.value type depth json) hinv
  simpa [h] using hafter

theorem Keeps.after_items (d : m.Keeps Inv Rel) {type : GraphType} {depth : Nat}
    {elements : List Json} {outcome : Except MaterializeError (List Value)} {next : Store}
    (h : runOn (m.items type depth elements) store = (outcome, next)) (hinv : Inv store) :
    After Inv Rel store next := by
  have hafter : After Inv Rel store (runOn (m.items type depth elements) store).2 :=
    d.after (.items type depth elements) hinv
  simpa [h] using hafter

theorem Keeps.after_populate (d : m.Keeps Inv Rel) {entity : EntityId} {fields : List Field}
    {depth : Nat} {members : List (String × Json)} {outcome : Except MaterializeError Unit}
    {next : Store} (h : runOn (m.populate entity fields depth members) store = (outcome, next))
    (hinv : Inv store) : After Inv Rel store next := by
  have hafter : After Inv Rel store (runOn (m.populate entity fields depth members) store).2 :=
    d.after (.populate entity fields depth members) hinv
  simpa [h] using hafter

theorem Keeps.after_enter (d : m.Keeps Inv Rel) {type : GraphType} {kind : TypeKind}
    {expected : TypeRef} {members : List (String × Json)}
    {outcome : Except MaterializeError (EntityId × List Field)} {next : Store}
    (hexpected : type.nullable = .named kind expected) (hkind : kind.isComposite = true)
    (h : runOn (m.enter expected members) store = (outcome, next)) (hinv : Inv store) :
    After Inv Rel store next := by
  have henter : Materialization.Ensures (m.enter expected members) store (After Inv Rel store) _ :=
    d.enter trivial hexpected hkind hinv
  simpa [h] using henter.always

theorem Keeps.after_assign (d : m.Keeps Inv Rel) (entity : EntityId) (field : Field) (v : Value)
    (hinv : Inv store) :
    After Inv Rel store { store with heap := store.heap.set entity field.name v } :=
  d.assign hinv trivial (List.mem_singleton.2 rfl) trivial

/-- The end of the first of two computations comes before the end of both. -/
theorem Keeps.rel_bind (d : m.Keeps Inv Rel) {α β : Type} {x : Materialization α}
    {f : α → Materialization β}
    (hf : ∀ a next, runOn x store = (.ok a, next) → Rel next (runOn (f a) next).2) :
    Rel (runOn x store).2 (runOn (x >>= f) store).2 := by
  rw [Materialization.runOn_bind]
  rcases h : runOn x store with ⟨e | a, next⟩
  · exact d.refl next
  · exact hf a next h

/-- A task that a run comes to lies between the start and the end of the run. -/
theorem Reaches.between (d : m.Keeps Inv Rel) (h : m.Reaches task store inner found)
    (hinv : Inv store) :
    After Inv Rel store found ∧ Rel (inner.after m found) (task.after m store) := by
  -- Induction on the way to the inner task. Where it is behind other tasks, these come between
  -- the start and it; where others are behind it, they come between it and the end.
  induction h with
  | here => exact ⟨d.after_refl hinv, d.refl _⟩
  | items hdepth hitem _ ih =>
      rw [after_array hdepth hitem]
      exact ih hinv
  | first _ ih =>
      rcases ih hinv with ⟨hstart, hend⟩
      refine ⟨hstart, d.trans hend ?_⟩
      -- The items behind the first one are still to come.
      rw [after_value, after_items, Materializer.items]
      refine d.rel_bind fun v next hv => ?_
      have hnext := d.after_value hv hinv
      rw [runOn_map_snd]
      exact (d.after (.items _ _ _) hnext.inv).rel
  | rest hv _ ih =>
      have hnext := d.after_value hv hinv
      rcases ih hnext.inv with ⟨hstart, hend⟩
      rw [after_items_cons hv]
      exact ⟨d.after_trans hnext hstart, hend⟩
  | members hdepth hexpected hkind henter _ ih =>
      have hnext := d.after_enter hexpected hkind henter hinv
      rcases ih hnext.inv with ⟨hstart, hend⟩
      rw [after_object hdepth hexpected hkind henter]
      exact ⟨d.after_trans hnext hstart, hend⟩
  | @member entity _ field _ _ _ _ _ _ _ hfield _ ih =>
      rcases ih hinv with ⟨hstart, hend⟩
      refine ⟨hstart, d.trans hend ?_⟩
      -- The assignment and the members behind it are still to come.
      rw [after_value, after_populate, populate_of_field hfield]
      refine d.rel_bind fun v next hv => ?_
      have hnext := d.after_value hv hinv
      have hset := d.after_assign entity field v hnext.inv
      rw [Materialization.runOn_bind_of_ok (Materialization.runOn_assign _ _ _)]
      exact d.trans hset.rel (d.after (.populate _ _ _ _) hset.inv).rel
  | @others entity _ field _ _ _ _ _ _ _ _ v hfield hv _ ih =>
      have hnext := d.after_value hv hinv
      have hset := d.after_assign entity field v hnext.inv
      rcases ih hset.inv with ⟨hstart, hend⟩
      rw [after_populate_cons hfield hv]
      exact ⟨d.after_trans hnext (d.after_trans hset hstart), hend⟩
  | skip hfield _ ih =>
      rw [after_populate_skip hfield]
      exact ih hinv

end Materializer

/-! ## Calls -/

/-- A response that a materializer reads where a type is expected. -/
structure Call where
  materializer : Materializer
  json : Json
  type : GraphType

namespace Call

def task (call : Call) : Task :=
  .value call.type 0 call.json

/-- The result of a call, and the store that it leaves. -/
def run (call : Call) (store : Store) : Except MaterializeError Value × Store :=
  runOn (call.materializer.materialize call.json call.type) store

end Call

namespace Store

/-- The store after calls in a row, whether or not they succeed. -/
def afterAll (store : Store) (calls : List Call) : Store :=
  calls.foldl (fun store call => (call.run store).2) store

/-- A sequence of calls comes to a task of one of its materializers. -/
def Meets (store : Store) (calls : List Call) (m : Materializer) (task : Task)
    (found : Store) : Prop :=
  ∃ before call later, calls = before ++ call :: later ∧ call.materializer = m ∧
    m.Reaches call.task (store.afterAll before) task found

variable {Inv : Store → Prop} {Rel : Store → Store → Prop} {store found : Store}
  {calls : List Call} {m : Materializer} {task : Task}

theorem afterAll_append (store : Store) (before later : List Call) :
    store.afterAll (before ++ later) = (store.afterAll before).afterAll later :=
  List.foldl_append

/-- What each materializer keeps to, all calls in a row keep to. -/
theorem after_afterAll (hkeeps : ∀ m : Materializer, m.Keeps Inv Rel) (hinv : Inv store)
    (calls : List Call) : Materializer.After Inv Rel store (store.afterAll calls) := by
  induction calls generalizing store with
  | nil => exact (hkeeps (.ofSchema ⟨[], ⟨0, ""⟩⟩ .standard)).after_refl hinv
  | cons call calls ih =>
      have d := hkeeps call.materializer
      have hnext := d.after call.task hinv
      exact d.after_trans hnext (ih hnext.inv)

theorem Meets.between (hkeeps : ∀ m : Materializer, m.Keeps Inv Rel)
    (h : store.Meets calls m task found) (hinv : Inv store) :
    Materializer.After Inv Rel store found ∧
      Rel (task.after m found) (store.afterAll calls) := by
  rcases h with ⟨before, call, later, rfl, rfl, hreaches⟩
  have d := hkeeps call.materializer
  have hbefore := after_afterAll hkeeps hinv before
  rcases hreaches.between d hbefore.inv with ⟨hstart, hend⟩
  have hcall := d.after call.task hbefore.inv
  refine ⟨d.after_trans hbefore hstart, d.trans hend ?_⟩
  have hall : store.afterAll (before ++ call :: later) =
      ((store.afterAll before).afterAll [call]).afterAll later := by
    rw [afterAll_append]
    rfl
  rw [hall]
  exact (after_afterAll hkeeps hcall.inv later).rel

end Store

/-! ## A shelf -/

/-- A book on a shelf may have another item behind it. -/
def shelfDeclarations : Declarations where
  types := [
    .scalar "ID",
    .interface "Item" [⟨"id", .named "ID", []⟩] [],
    .object "Book" [⟨"id", .named "ID", []⟩, ⟨"behind", .named "Item", []⟩] ["Item"],
    .object "Query" [⟨"items", .list (.named "Item"), []⟩] []]
  queryType := none
  distinct := by decide

def shelfSchema : Schema :=
  (shelfDeclarations.build.toOption).getD ⟨[], ⟨0, "Query"⟩⟩

/-- Two books behind each other. The second one does not say what it is. -/
def shelfBook : List (String × Json) := [
  ("__typename", .string "Book"), ("id", .string "1"),
  ("behind", .object [("id", .string "2"), ("behind", .object [("id", .string "1")])])]

def shelfCall : Call where
  materializer := { Materializer.ofSchema shelfSchema .standard with
    factories := [(⟨1, "Item"⟩, ⟨2, "Book"⟩)] }
  json := .array [.object shelfBook]
  type := .list (.named .interface ⟨1, "Item"⟩)

end GraphQuery
