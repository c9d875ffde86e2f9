import GraphQuery.Entity.Cache
import GraphQuery.Entity.Heap

/-!
# Entity.Store — what materializing changes

- `Store` : the entities and a cache of them
- `Materialization` : computations that change a store and may fail; what they changed before they
  failed stays
- `Materialization.create`, `Materialization.register`, `Materialization.assign` : the changes
-/

set_option autoImplicit false

namespace GraphQuery

structure Store where
  heap : Heap
  cache : Cache

def Store.empty : Store := ⟨Heap.empty, Cache.empty⟩

def Store.typeOf? (store : Store) (entity : EntityId) : Option TypeRef :=
  (store.heap.entity? entity).map Entity.type

abbrev Materialization (α : Type) := ExceptT MaterializeError (StateM Store) α

namespace Materialization

/-- A new entity without fields, which no key is bound to. -/
def create (type : TypeRef) : Materialization EntityId := do
  let store ← get
  set { store with heap := store.heap.allocate type }
  return store.heap.next

/-- The entity a key is bound to, which is the given one if the key had none. -/
def register (type : TypeRef) (id : String) (entity : EntityId) : Materialization EntityId := do
  let store ← get
  let (registered, cache) := store.cache.getOrInsert type id entity
  set { store with cache }
  return registered

/-- Gives a field of an entity a value. -/
def assign (entity : EntityId) (field : String) (value : Value) : Materialization Unit :=
  modify fun store => { store with heap := store.heap.set entity field value }

end Materialization

end GraphQuery
