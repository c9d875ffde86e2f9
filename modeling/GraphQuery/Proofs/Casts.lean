import GraphQuery.Context
import GraphQuery.Proofs.Entity.Typing

/-!
# Casts — the entities that a cast keeps

A cast goes through the items of one list. What its source selects can be a list of lists, as
members are read in lists at any depth; a list among the items is not an entity, so the cast leaves
it out with all the entities in it.

- `Value.entities` : the entities of a value at any depth, which are its outer and its inner ones
- `Evaluation.matching` : entities of a type, or of one that it lists as possible
- `Value.filter_outerEntities_eq_iff` : when nothing that passes a test lies deeper than one list
- `QueryContext.entities_evaluate_cast` : a cast keeps the outer entities that match
- `QueryContext.pages_lost_by_cast` : matching entities of lists in a list that are lost
-/

set_option autoImplicit false

namespace GraphQuery

/-! ## Entities of a value -/

namespace Value

/-- The entity that a value refers to itself. -/
def entity? : Value → Option EntityId
  | .object id => some id
  | _ => none

mutual

/-- The entities of a value in order, those in lists at any depth included. -/
def entities : Value → List EntityId
  | .object id => [id]
  | .list items => entitiesOf items
  | .null => []
  | .leaf _ => []

def entitiesOf : List Value → List EntityId
  | [] => []
  | item :: rest => entities item ++ entitiesOf rest

end

/-- The entities of a list, and none for other values. -/
def listed : Value → List EntityId
  | .list items => entitiesOf items
  | _ => []

/-- The entity that a value is, or the entities that are items of it. -/
def outerEntities : Value → List EntityId
  | .list items => items.filterMap entity?
  | v => v.entity?.toList

/-- The entities that lie deeper: those of the lists among the items. -/
def innerEntities : Value → List EntityId
  | .list items => items.flatMap listed
  | _ => []

theorem entitiesOf_eq_flatMap (items : List Value) : entitiesOf items = items.flatMap entities := by
  induction items with
  | nil => rw [entitiesOf, List.flatMap_nil]
  | cons item rest ih => rw [entitiesOf, List.flatMap_cons, ih]

theorem entities_eq (v : Value) : v.entities = v.entity?.toList ++ v.listed := by
  cases v <;> simp [entities, entity?, listed]

variable {p : EntityId → Bool}

theorem countP_entitiesOf (items : List Value) : (entitiesOf items).countP p =
    (items.filterMap entity?).countP p + (items.flatMap listed).countP p := by
  induction items with
  | nil => rw [entitiesOf, List.filterMap_nil, List.flatMap_nil, List.countP_nil]
  | cons item rest ih =>
      rw [entitiesOf, entities_eq, List.filterMap_eq_flatMap_toList, List.flatMap_cons,
        List.flatMap_cons, ← List.filterMap_eq_flatMap_toList]
      simp only [List.countP_append, ih]
      omega

/-- The outer entities that pass a test are all that do just when no inner one does. -/
theorem filter_outerEntities_eq_iff (v : Value) :
    v.outerEntities.filter p = v.entities.filter p ↔ ∀ id ∈ v.innerEntities, p id = false := by
  cases v with
  | null | leaf | object => simp [outerEntities, innerEntities, entities, entity?]
  | list items =>
      rw [outerEntities, innerEntities, entities]
      constructor
      · -- Both sides have as many entities, so none is left for the inner lists.
        intro heq
        have hlength := congrArg List.length heq
        rw [← List.countP_eq_length_filter, ← List.countP_eq_length_filter,
          countP_entitiesOf] at hlength
        have hnone : (items.flatMap listed).countP p = 0 := by omega
        intro id hid
        simpa using List.countP_eq_zero.1 hnone id hid
      · intro hinner
        rw [entitiesOf_eq_flatMap, List.filterMap_eq_flatMap_toList, List.filter_flatMap,
          List.filter_flatMap]
        refine List.flatMap_congr fun item hitem => ?_
        have hlisted : item.listed.filter p = [] := by
          refine List.filter_eq_nil_iff.2 fun id hid => ?_
          simp [hinner id (List.mem_flatMap.2 ⟨item, hitem, hid⟩)]
        rw [entities_eq, List.filter_append, hlisted, List.append_nil]

end Value

/-! ## Kept entities -/

namespace Evaluation

/-- What is kept of a value are its outer entities that are kept, when nothing but entities is. -/
theorem entities_kept {keep : Value → Bool} {p : EntityId → Bool}
    (hobject : ∀ id, keep (.object id) = p id) (hother : ∀ v, v.entity? = none → keep v = false)
    (v : Value) : (kept keep v).entities = v.outerEntities.filter p := by
  cases v with
  | null => simp [kept, hother .null rfl, Value.outerEntities, Value.entities, Value.entity?]
  | leaf json =>
      simp [kept, hother (.leaf json) rfl, Value.outerEntities, Value.entities, Value.entity?]
  | object id =>
      rw [kept, hobject]
      · cases hp : p id <;> simp [Value.outerEntities, Value.entity?, Value.entities, hp]
      · intro items h
        cases h
  | list items =>
      rw [kept, Value.entities, Value.outerEntities]
      induction items with
      | nil => rfl
      | cons item rest ih =>
          rw [List.filter_cons]
          cases hitem : item.entity? with
          | none => simp [hother item hitem, hitem, ih]
          | some id =>
              obtain rfl : item = .object id := by
                cases item <;> simp_all [Value.entity?]
              cases hp : p id <;> simp [hobject, hp, hitem, Value.entitiesOf, Value.entities, ih]

/-- Whether an entity is of the type that a domain type is mapped to, or of a possible type of
that. -/
def matching (ev : Evaluation) (domainType : String) (id : EntityId) : Bool :=
  match ev.heap.entity? id, ev.schema.typeRef? (ev.naming.typeName domainType) with
  | some found, some target =>
      decide (found.type = target ∨ found.type ∈ ev.schema.possibleTypes target)
  | _, _ => false

/-- Entities are of object types, and for these a cast goes by what the schema lists. -/
theorem isInstance_object {ev : Evaluation}
    (hobjects : ∀ id found, ev.heap.entity? id = some found → ev.schema.IsObject found.type)
    (domainType : String) (id : EntityId) :
    ev.isInstance domainType (.object id) = ev.matching domainType id := by
  rw [isInstance, matching]
  cases hfound : ev.heap.entity? id with
  | none => rfl
  | some found =>
      cases ev.schema.typeRef? (ev.naming.typeName domainType) with
      | none => rfl
      | some target =>
          have hlisted := (hobjects id found hfound).isPossibleType_iff target
          change (decide (target = found.type) || ev.schema.isPossibleType target found.type) =
            decide (found.type = target ∨ found.type ∈ ev.schema.possibleTypes target)
          rw [Bool.eq_iff_iff, Bool.or_eq_true, decide_eq_true_iff, decide_eq_true_iff, hlisted,
            eq_comm]

theorem isInstance_of_entity?_eq_none (ev : Evaluation) (domainType : String) {v : Value}
    (h : v.entity? = none) : ev.isInstance domainType v = false := by
  cases v with
  | object id => cases h
  | _ => rfl

end Evaluation

/-! ## Casts -/

namespace QueryContext

variable {context : QueryContext}

/-- What evaluation looks at in a store. -/
def evaluation (context : QueryContext) (store : Store) : Evaluation where
  heap := store.heap
  schema := context.compiler.schema
  naming := context.compiler.naming

/-- After any history of responses and clears, a cast keeps exactly the matching entities among the
outer ones of what its source is evaluated to, in their order. So it keeps all matching entities
just when none of them lies in a list among the items of a list. -/
theorem entities_evaluate_cast {d : Declarations} {actions : List Action}
    (hs : d.build = .ok context.compiler.schema)
    (hallowed : ∀ action ∈ actions, action.Allowed context.compiler.schema)
    (source : Expression) (domainType : String) (root : Value) :
    let store := Store.empty.applyAll actions
    let matching := (context.evaluation store).matching domainType
    let selected := context.evaluate store source root
    let cast := context.evaluate store (.cast source domainType) root
    cast.entities = selected.outerEntities.filter matching ∧
      (cast.entities = selected.entities.filter matching ↔
        ∀ id ∈ selected.innerEntities, matching id = false) := by
  intro store matching selected cast
  have hconsistent := Declarations.consistent_of_build hs
  have htyped : store.WellTyped context.compiler.schema :=
    Store.wellTyped_empty.applyAll hconsistent hallowed
  have hobject : ∀ id, (context.evaluation store).isInstance domainType (.object id) =
      matching id :=
    Evaluation.isInstance_object (fun _ _ hfound => htyped.object hfound) domainType
  have hcast : cast.entities = selected.outerEntities.filter matching :=
    Evaluation.entities_kept hobject
      (fun _ => Evaluation.isInstance_of_entity?_eq_none _ domainType) selected
  exact ⟨hcast, hcast ▸ selected.filter_outerEntities_eq_iff⟩

/-! ## Shelves -/

/-- Shelves hold nodes, and some of these are pages. -/
def shelvesDeclarations : Declarations where
  types := [
    .scalar "ID",
    .interface "Node" [⟨"id", .named "ID", []⟩] [],
    .object "Page" [⟨"id", .named "ID", []⟩] ["Node"],
    .object "Shelf" [⟨"id", .named "ID", []⟩, ⟨"nodes", .list (.named "Node"), []⟩] [],
    .object "Query" [⟨"shelves", .list (.named "Shelf"), []⟩] []]
  queryType := none
  distinct := by decide

def shelvesContext : QueryContext :=
  ofSchema ((shelvesDeclarations.build.toOption).getD ⟨[], ⟨0, "Query"⟩⟩)

/-- One shelf with one page. -/
def oneShelf : Json :=
  .array [.object [("id", .string "1"),
    ("nodes", .array [.object [("__typename", .string "Page"), ("id", .string "2")]])]]

def shelvesRead : List Action :=
  [.materialize ⟨shelvesContext.materializer, oneShelf, .list (.named .object ⟨3, "Shelf"⟩)⟩]

/-- The nodes of all shelves, in one list for each shelf. -/
def shelfNodes : Expression := .member (.root "Shelf" none) ⟨"Shelf", "nodes"⟩

theorem shelvesRead_allowed :
    ∀ action ∈ shelvesRead, action.Allowed shelvesContext.compiler.schema :=
  List.forall_mem_singleton.2 ⟨.ofSchema, rfl⟩

/-- The cast of the nodes of one shelf keeps its page, and so all that match. -/
theorem entities_evaluate_cast_shelfNodes :
    let store := Store.empty.applyAll shelvesRead
    let selected := shelvesContext.evaluate store shelfNodes (.object ⟨0⟩)
    let cast := shelvesContext.evaluate store (.cast shelfNodes "Page") (.object ⟨0⟩)
    cast.entities = [⟨1⟩] ∧
      cast.entities =
        selected.entities.filter ((shelvesContext.evaluation store).matching "Page") := by
  intro store selected cast
  have hbuild : shelvesDeclarations.build = .ok shelvesContext.compiler.schema := rfl
  rcases entities_evaluate_cast hbuild shelvesRead_allowed shelfNodes "Page" (.object ⟨0⟩) with
    ⟨hkept, hall⟩
  have hselected : selected = .list [.object ⟨1⟩] := rfl
  refine ⟨hkept.trans ?_, hall.2 ?_⟩
  · rfl
  · intro id hid
    have hnone : id ∈ selected.innerEntities := hid
    rw [hselected] at hnone
    cases hnone

/-- An expression for shelves is executed in an empty store, with one shelf as the response. -/
def shelfAnswer (e : Expression) : Except QueryError Value × Store :=
  ((shelvesContext.execute (M := Id) (fun _ => .ok (.object [("shelves", oneShelf)])) e).run).run
    Store.empty

/-- The nodes of all shelves are a list in a list, with a page in it. When they are cast to pages,
nothing is left. -/
theorem pages_lost_by_cast :
    (shelfAnswer shelfNodes).1 = .ok (.list [.list [.object ⟨1⟩]]) ∧
      (shelvesContext.evaluation (shelfAnswer shelfNodes).2).matching "Page" ⟨1⟩ = true ∧
      (shelfAnswer (.cast shelfNodes "Page")).1 = .ok (.list []) :=
  ⟨rfl, rfl, rfl⟩

end QueryContext

end GraphQuery
