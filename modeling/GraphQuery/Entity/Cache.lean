import GraphQuery.Entity.Error
import GraphQuery.Entity.Value

/-!
# Entity.Cache — entities by type name and identity

An entity may be bound several times: under its own type and under types it stands for. Keys hold
the names of types, so schemas that share a cache have to agree on what each name means.

- `CacheKey` : a type name and the text of an identity
- `Cache` : one entity per key
- `Cache.get?`, `Cache.insert`, `Cache.getOrInsert` : a key once bound keeps its entity
-/

set_option autoImplicit false

namespace GraphQuery

structure CacheKey where
  typeName : String
  id : String
  deriving DecidableEq, Repr

structure Cache where
  bindings : List (CacheKey × EntityId)
  distinct : (bindings.map Prod.fst).Nodup

namespace Cache

def empty : Cache := ⟨[], .nil⟩

/-- The entity bound to a key. -/
def lookup (cache : Cache) (key : CacheKey) : Option EntityId :=
  cache.bindings.lookup key

theorem key_notMem_of_lookup {cache : Cache} {key : CacheKey} (h : cache.lookup key = none) :
    key ∉ cache.bindings.map Prod.fst := by
  intro hmem
  obtain ⟨⟨k, e⟩, hb, rfl⟩ := List.mem_map.1 hmem
  have hne := List.lookup_eq_none_iff.1 h (k, e) hb
  simp at hne

/-- Binds a key that has no entity yet. -/
def bind (cache : Cache) (key : CacheKey) (entity : EntityId) (h : cache.lookup key = none) :
    Cache where
  bindings := (key, entity) :: cache.bindings
  distinct := List.nodup_cons.2 ⟨key_notMem_of_lookup h, cache.distinct⟩

def get? (cache : Cache) (type : TypeRef) (id : String) : Option EntityId :=
  cache.lookup ⟨type.name, id⟩

/-- Binds a key, unless it has an entity. -/
def insert (cache : Cache) (type : TypeRef) (id : String) (entity : EntityId) :
    Except MaterializeError Cache :=
  match h : cache.lookup ⟨type.name, id⟩ with
  | some _ => .error (.duplicateEntity type.name id)
  | none => .ok (cache.bind ⟨type.name, id⟩ entity h)

/-- Binds a key unless it has an entity, and gives the entity it has then. -/
def getOrInsert (cache : Cache) (type : TypeRef) (id : String) (entity : EntityId) :
    EntityId × Cache :=
  match h : cache.lookup ⟨type.name, id⟩ with
  | some present => (present, cache)
  | none => (entity, cache.bind ⟨type.name, id⟩ entity h)

/-- The number of keys. An entity counts once for every type it is bound under. -/
def size (cache : Cache) : Nat :=
  cache.bindings.length

def isEmpty (cache : Cache) : Bool :=
  cache.bindings.isEmpty

/-! ## Laws -/

theorem lookup_bind (cache : Cache) (key other : CacheKey) (entity : EntityId)
    (h : cache.lookup key = none) :
    (cache.bind key entity h).lookup other =
      if other = key then some entity else cache.lookup other := by
  by_cases hk : other = key
  · subst hk
    simp [lookup, bind]
  · have hb : (other == key) = false := by simpa using hk
    simp [lookup, bind, List.lookup_cons, hb, hk]

theorem getOrInsert_of_some {cache : Cache} {type : TypeRef} {id : String} {present : EntityId}
    (h : cache.get? type id = some present) (entity : EntityId) :
    cache.getOrInsert type id entity = (present, cache) := by
  unfold getOrInsert
  unfold get? at h
  split
  · next e he => rw [h] at he; cases he; rfl
  · next hn => rw [h] at hn; cases hn

theorem lookup_getOrInsert (cache : Cache) (type : TypeRef) (id : String) (entity : EntityId)
    (key : CacheKey) :
    (cache.getOrInsert type id entity).2.lookup key =
      if key = ⟨type.name, id⟩ then some ((cache.get? type id).getD entity)
      else cache.lookup key := by
  unfold getOrInsert get?
  split
  · next e he =>
      by_cases hk : key = ⟨type.name, id⟩
      · subst hk; simp [he]
      · simp [hk]
  · next hn =>
      rw [lookup_bind]
      by_cases hk : key = ⟨type.name, id⟩ <;> simp [hk, hn]

end Cache

end GraphQuery
