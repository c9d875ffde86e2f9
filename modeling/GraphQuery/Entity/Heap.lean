import GraphQuery.Entity.Value

/-!
# Entity.Heap — the entities there are

- `Heap` : all entities, each at the position that is its number
- `Heap.entity?`, `Heap.allocate`, `Heap.set` : reading, adding and changing entities

Entities are added and their fields change, but no entity goes away or changes its type.
-/

set_option autoImplicit false

namespace GraphQuery

structure Heap where
  entities : List Entity
  deriving Repr

namespace Heap

def empty : Heap := ⟨[]⟩

def entity? (heap : Heap) (id : EntityId) : Option Entity :=
  heap.entities[id.index]?

/-- The number the next entity gets. -/
def next (heap : Heap) : EntityId :=
  ⟨heap.entities.length⟩

/-- Adds an entity without fields, under the number `next`. -/
def allocate (heap : Heap) (type : TypeRef) : Heap :=
  ⟨heap.entities ++ [⟨type, []⟩]⟩

/-- Gives a field of an entity a value. -/
def set (heap : Heap) (id : EntityId) (field : String) (value : Value) : Heap :=
  ⟨heap.entities.modify id.index fun entity => entity.set field value⟩

/-! ## Laws -/

theorem entity?_next (heap : Heap) : heap.entity? heap.next = none := by
  simp [entity?, next]

theorem entity?_allocate (heap : Heap) (type : TypeRef) (id : EntityId) :
    (heap.allocate type).entity? id =
      if id = heap.next then some ⟨type, []⟩ else heap.entity? id := by
  obtain ⟨entities⟩ := heap
  obtain ⟨i⟩ := id
  simp only [entity?, allocate, next, EntityId.mk.injEq]
  by_cases h : i = entities.length
  · subst h
    simp
  · rw [if_neg h, List.getElem?_append]
    by_cases hi : i < entities.length
    · rw [if_pos hi]
    · rw [if_neg hi, List.getElem?_eq_none (by simp; omega), List.getElem?_eq_none (by omega)]

theorem entity?_set (heap : Heap) (id other : EntityId) (field : String) (value : Value) :
    (heap.set id field value).entity? other =
      if id = other then (heap.entity? other).map fun entity => entity.set field value
      else heap.entity? other := by
  obtain ⟨i⟩ := id
  obtain ⟨j⟩ := other
  simp only [entity?, set, List.getElem?_modify, EntityId.mk.injEq]
  by_cases h : i = j <;> simp [h]

end Heap

end GraphQuery
