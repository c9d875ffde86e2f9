import GraphQuery.Keyed
import Mathlib.Data.List.Induction
import Mathlib.Data.List.Nodup

/-!
# Keyed — laws of keyed lists

- `Keyed.mem_ofList`, `Keyed.nodup_ofList` : repeated insertion adds nothing of its own and keeps
  one element per key; `Keyed.ofList_eq_self` : it changes nothing where keys are distinct
- `Keyed.find?_foldl_put`, `Keyed.map_key_foldl_put` : insertion after insertion
- `Keyed.find?_eq_some_iff` : look-up where keys are distinct
- `Keyed.foldl_put_again` : the same insertions made again
- `Keyed.findIdx?_eq_some_iff` : the position of a key
- `Keyed.mem_distinct`, `Keyed.foldl_addNew`, `Keyed.map_distinct`, `Keyed.distinct_eq_self`,
  `Keyed.nodup_distinct` : the elements of a list, each once
-/

set_option autoImplicit false

namespace GraphQuery

namespace Keyed

variable {α : Type} {key : α → String}

/-! ## Insertion -/

theorem mem_put {x y : α} {xs : List α} (h : y ∈ put key x xs) : y = x ∨ y ∈ xs := by
  induction xs with
  | nil => simpa [put] using h
  | cons z zs ih =>
      by_cases hz : key z = key x
      · rw [put, if_pos hz, List.mem_cons] at h
        exact h.imp_right (List.mem_cons_of_mem z)
      · rw [put, if_neg hz, List.mem_cons] at h
        rcases h with rfl | h
        · exact .inr List.mem_cons_self
        · exact (ih h).imp_right (List.mem_cons_of_mem z)

theorem nodup_put (x : α) {xs : List α} (h : (xs.map key).Nodup) :
    ((put key x xs).map key).Nodup := by
  rw [map_key_put]
  split
  · exact h
  · next hx =>
      rw [List.nodup_append]
      refine ⟨h, List.nodup_singleton _, ?_⟩
      intro a ha b hb hab
      rw [List.mem_singleton] at hb
      exact hx (hb ▸ hab ▸ ha)

theorem put_eq_append {x : α} {xs : List α} (h : ∀ y ∈ xs, key y ≠ key x) :
    put key x xs = xs ++ [x] := by
  induction xs with
  | nil => rfl
  | cons y ys ih =>
      rcases List.forall_mem_cons.1 h with ⟨hy, hys⟩
      rw [put, if_neg hy, ih hys, List.cons_append]

/-- Repeated insertion keeps what single insertions keep. -/
theorem ofList_induction {motive : List α → Prop} (xs : List α) (hnil : motive [])
    (hput : ∀ x ∈ xs, ∀ found, motive found → motive (put key x found)) :
    motive (ofList key xs) := by
  -- Elements are inserted from the first on, so what was found so far is an argument of its own.
  suffices hgen : ∀ (rest : List α), (∀ x ∈ rest, x ∈ xs) → ∀ found, motive found →
      motive (rest.foldl (fun found x => put key x found) found) from
    hgen xs (fun _ hx => hx) [] hnil
  intro rest
  induction rest with
  | nil => exact fun _ _ hfound => hfound
  | cons x rest ih =>
      intro hrest found hfound
      refine ih (fun y hy => hrest y (List.mem_cons_of_mem x hy)) _ ?_
      exact hput x (hrest x List.mem_cons_self) found hfound

theorem mem_ofList {x : α} {xs : List α} (h : x ∈ ofList key xs) : x ∈ xs := by
  revert x
  refine ofList_induction (motive := fun found => ∀ {x : α}, x ∈ found → x ∈ xs) xs ?_ ?_
  · intro x hx
    cases hx
  · intro y hy found hfound x hx
    rcases mem_put hx with rfl | hx
    · exact hy
    · exact hfound hx

theorem nodup_ofList (key : α → String) (xs : List α) : ((ofList key xs).map key).Nodup :=
  ofList_induction (motive := fun found => (found.map key).Nodup) xs List.nodup_nil
    fun x _ _ hfound => nodup_put x hfound

/-- Elements of distinct keys are inserted one behind the other. -/
theorem ofList_eq_self {xs : List α} (h : (xs.map key).Nodup) : ofList key xs = xs := by
  induction xs using List.reverseRecOn with
  | nil => rfl
  | append_singleton xs x ih =>
      rw [List.map_append, List.nodup_append] at h
      have hnew : ∀ y ∈ xs, key y ≠ key x := fun y hy =>
        h.2.2 (key y) (List.mem_map_of_mem hy) (key x) (List.mem_singleton_self _)
      rw [ofList, List.foldl_append, List.foldl_cons, List.foldl_nil, ← ofList, ih h.1]
      exact put_eq_append hnew

/-! ## Insertion after insertion -/

/-- What is inserted last under a key is found, or what was there if nothing is. -/
theorem find?_foldl_put (k : String) (xs found : List α) :
    find? key k (xs.foldl (fun found x => put key x found) found) =
      ((xs.filter fun x => key x = k).getLast?).or (find? key k found) := by
  induction xs generalizing found with
  | nil => rfl
  | cons x xs ih =>
      rw [List.foldl_cons, ih, find?_put]
      by_cases hx : key x = k
      · rw [if_pos hx, List.filter_cons_of_pos (by simpa using hx), List.getLast?_cons,
          Option.or_some, Option.some_or]
      · rw [if_neg hx, List.filter_cons_of_neg (by simpa using hx)]

/-- Insertions keep the keys that are there, and new ones follow in the order of their first
insertion. -/
theorem map_key_foldl_put (xs found : List α) :
    (xs.foldl (fun found x => put key x found) found).map key =
      (xs.map key).foldl (fun found x => addNew x found) (found.map key) := by
  induction xs generalizing found with
  | nil => rfl
  | cons x xs ih => rw [List.foldl_cons, ih, map_key_put, List.map_cons, List.foldl_cons, addNew]

/-! ## Look-up -/

theorem mem_of_find? {k : String} {x : α} {xs : List α} (h : find? key k xs = some x) :
    x ∈ xs ∧ key x = k := by
  induction xs with
  | nil => cases h
  | cons y ys ih =>
      by_cases hy : key y = k
      · rw [find?, if_pos hy] at h
        cases h
        exact ⟨List.mem_cons_self, hy⟩
      · rw [find?, if_neg hy] at h
        exact ⟨List.mem_cons_of_mem y (ih h).1, (ih h).2⟩

theorem find?_key {x : α} {xs : List α} (hd : (xs.map key).Nodup) (hx : x ∈ xs) :
    find? key (key x) xs = some x := by
  induction xs with
  | nil => cases hx
  | cons y ys ih =>
      rw [List.map_cons, List.nodup_cons] at hd
      rcases List.mem_cons.1 hx with rfl | hx
      · simp [find?]
      · have hne : key y ≠ key x := fun heq => hd.1 (heq ▸ List.mem_map_of_mem hx)
        rw [find?, if_neg hne]
        exact ih hd.2 hx

theorem find?_eq_none_iff {k : String} {xs : List α} :
    find? key k xs = none ↔ ∀ x ∈ xs, key x ≠ k := by
  induction xs with
  | nil => simp [find?]
  | cons y ys ih =>
      rw [List.forall_mem_cons, ← ih]
      by_cases hy : key y = k <;> simp [find?, hy]

/-- Where keys are distinct, look-up finds exactly the element with the key. -/
theorem find?_eq_some_iff {k : String} {x : α} {xs : List α} (hd : (xs.map key).Nodup) :
    find? key k xs = some x ↔ x ∈ xs ∧ key x = k := by
  refine ⟨mem_of_find?, ?_⟩
  rintro ⟨hx, rfl⟩
  exact find?_key hd hx

/-- Where keys are distinct, a key has one position. -/
theorem findIdx?_eq_some_iff {k : String} {i : Nat} {xs : List α} (hd : (xs.map key).Nodup) :
    xs.findIdx? (fun x => key x == k) = some i ↔ ∃ x, xs[i]? = some x ∧ key x = k := by
  rw [List.findIdx?_eq_some_iff_getElem]
  constructor
  · rintro ⟨hi, hk, -⟩
    exact ⟨xs[i], List.getElem?_eq_getElem hi, by simpa using hk⟩
  · rintro ⟨x, hx, hk⟩
    rcases List.getElem?_eq_some_iff.1 hx with ⟨hi, rfl⟩
    refine ⟨hi, by simpa using hk, ?_⟩
    -- An earlier position with the key would be the same position, since keys are distinct.
    intro j hj hkj
    have hkj : key xs[j] = k := by simpa using hkj
    have hlt : j < xs.length := Nat.lt_trans hj hi
    have heq : (xs.map key)[j]? = (xs.map key)[i]? := by
      calc (xs.map key)[j]?
          = some (key xs[j]) := by simp [hlt]
        _ = some (key xs[i]) := by rw [hkj, hk]
        _ = (xs.map key)[i]? := by simp [hi]
    have hji : j = i := (List.getElem?_inj (by simpa using hlt) hd).1 heq
    exact absurd hji (Nat.ne_of_lt hj)

/-! ## Insertion once more -/

/-- Of two insertions with one key, the second counts. -/
theorem put_put_of_eq {x y : α} (h : key x = key y) (xs : List α) :
    put key y (put key x xs) = put key y xs := by
  induction xs with
  | nil => simp [put, h]
  | cons z zs ih =>
      by_cases hz : key z = key x
      · rw [put, if_pos hz, put, if_pos h, put, if_pos (hz.trans h)]
      · have hzy : key z ≠ key y := h ▸ hz
        rw [put, if_neg hz, put, if_neg hzy, ih, put, if_neg hzy]

/-- An insertion in place of an element can be made later than one with another key. -/
theorem put_comm {x y : α} {xs : List α} (h : key x ≠ key y) (hx : key x ∈ xs.map key) :
    put key y (put key x xs) = put key x (put key y xs) := by
  induction xs with
  | nil => cases hx
  | cons z zs ih =>
      by_cases hzx : key z = key x
      · have hzy : key z ≠ key y := hzx ▸ h
        rw [put, if_pos hzx, put, if_neg h, put, if_neg hzy, put, if_pos hzx]
      · have hmem : key x ∈ zs.map key := (List.mem_cons.1 hx).resolve_left (Ne.symm hzx)
        by_cases hzy : key z = key y
        · rw [put, if_neg hzx, put, if_pos hzy, put, if_pos hzy, put, if_neg h.symm]
        · rw [put, if_neg hzx, put, if_neg hzy, put, if_neg hzy, put, if_neg hzx, ih hmem]

/-- What is there already is not changed by its insertion. -/
theorem put_eq_self {x : α} {xs : List α} (h : find? key (key x) xs = some x) :
    put key x xs = xs := by
  induction xs with
  | nil => cases h
  | cons z zs ih =>
      by_cases hz : key z = key x
      · rw [find?, if_pos hz] at h
        rw [put, if_pos hz, Option.some.inj h]
      · rw [find?, if_neg hz] at h
        rw [put, if_neg hz, ih h]

/-- Insertion takes no key away. -/
theorem mem_keys_put {k : String} {x : α} {xs : List α} (h : k ∈ xs.map key) :
    k ∈ (put key x xs).map key := by
  rw [map_key_put]
  split
  · exact h
  · exact List.mem_append_left _ h

theorem mem_keys_foldl_put {k : String} {xs ys : List α} (h : k ∈ xs.map key) :
    k ∈ (ys.foldl (fun found y => put key y found) xs).map key := by
  induction ys generalizing xs with
  | nil => exact h
  | cons y ys ih => exact ih (mem_keys_put h)

/-- An insertion in place of an element is lost where its key is inserted later. -/
theorem foldl_put_put {x : α} {xs ys : List α} (hys : key x ∈ ys.map key)
    (hxs : key x ∈ xs.map key) :
    ys.foldl (fun found y => put key y found) (put key x xs) =
      ys.foldl (fun found y => put key y found) xs := by
  induction ys generalizing xs with
  | nil => cases hys
  | cons y ys ih =>
      rw [List.foldl_cons, List.foldl_cons]
      by_cases h : key x = key y
      · rw [put_put_of_eq h]
      · have hrest : key x ∈ ys.map key := (List.mem_cons.1 hys).resolve_left h
        rw [put_comm h hxs, ih hrest (mem_keys_put hxs)]

/-- The same insertions made again change nothing. -/
theorem foldl_put_again (ys xs : List α) :
    ys.foldl (fun found y => put key y found) (ys.foldl (fun found y => put key y found) xs) =
      ys.foldl (fun found y => put key y found) xs := by
  induction ys generalizing xs with
  | nil => rfl
  | cons y ys ih =>
      rw [List.foldl_cons, List.foldl_cons]
      -- The first insertion is one that is made later again, or it is the last one of its key.
      by_cases hlater : key y ∈ ys.map key
      · have hput : key y ∈ (put key y xs).map key := by
          have hfound : find? key (key y) (put key y xs) = some y := by
            rw [find?_put, if_pos rfl]
          exact List.mem_map_of_mem (mem_of_find? hfound).1
        rw [foldl_put_put hlater (mem_keys_foldl_put hput), ih]
      · have hnone : ys.filter (fun z => key z = key y) = [] := by
          rw [List.filter_eq_nil_iff]
          intro z hz heq
          exact hlater (List.mem_map.2 ⟨z, hz, by simpa using heq⟩)
        have hlast : find? key (key y)
            (ys.foldl (fun found y => put key y found) (put key y xs)) = some y := by
          rw [find?_foldl_put, hnone, find?_put, if_pos rfl]
          rfl
        rw [put_eq_self hlast, ih]

/-! ## Distinct elements -/

variable [DecidableEq α]

theorem mem_addNew {x y : α} {xs : List α} : y ∈ addNew x xs ↔ y = x ∨ y ∈ xs := by
  unfold addNew
  split
  · next hx =>
      refine ⟨.inr, ?_⟩
      rintro (rfl | hy)
      · exact hx
      · exact hy
  · simp [or_comm]

theorem nodup_addNew (x : α) {xs : List α} (h : xs.Nodup) : (addNew x xs).Nodup := by
  unfold addNew
  split
  · exact h
  · next hx =>
      rw [List.nodup_append]
      refine ⟨h, List.nodup_singleton x, ?_⟩
      intro a ha b hb hab
      rw [List.mem_singleton] at hb
      exact hx (hb ▸ hab ▸ ha)

theorem mem_foldl_addNew {y : α} {xs : List α} : ∀ {found : List α},
    y ∈ xs.foldl (fun found x => addNew x found) found ↔ y ∈ found ∨ y ∈ xs := by
  induction xs with
  | nil => simp
  | cons x xs ih =>
      intro found
      rw [List.foldl_cons, ih, mem_addNew, List.mem_cons]
      tauto

theorem mem_distinct {y : α} {xs : List α} : y ∈ distinct xs ↔ y ∈ xs := by
  simp [distinct, mem_foldl_addNew]

/-- What is added to a list follows it in the order of its first appearance. -/
theorem foldl_addNew (xs found : List α) :
    xs.foldl (fun found x => addNew x found) found =
      found ++ (distinct xs).filter fun x => x ∉ found := by
  induction xs using List.reverseRecOn with
  | nil => simp [distinct]
  | append_singleton xs x ih =>
      have hdistinct : distinct (xs ++ [x]) = addNew x (distinct xs) := by
        rw [distinct, List.foldl_append]
        rfl
      rw [List.foldl_append, List.foldl_cons, List.foldl_nil, ih, hdistinct]
      -- An element that is found again, before or among what was added, is not added.
      by_cases hfound : x ∈ found
      · by_cases hx : x ∈ distinct xs <;> simp [addNew, hfound, hx]
      · by_cases hx : x ∈ distinct xs <;> simp [addNew, hfound, hx]

section Map

variable {β : Type} [DecidableEq β] {f : α → β}

theorem map_addNew {x : α} {xs : List α} (hf : ∀ y ∈ xs, f y = f x → y = x) :
    (addNew x xs).map f = addNew (f x) (xs.map f) := by
  have hmem : f x ∈ xs.map f ↔ x ∈ xs := by
    refine ⟨fun h => ?_, List.mem_map_of_mem⟩
    rcases List.mem_map.1 h with ⟨y, hy, heq⟩
    exact hf y hy heq ▸ hy
  unfold addNew
  rw [apply_ite (List.map f), List.map_append, List.map_singleton, if_congr hmem rfl rfl]

/-- Elements that differ still do under the map, so the same ones are repetitions. -/
theorem map_distinct {xs : List α} (hf : ∀ x ∈ xs, ∀ y ∈ xs, f x = f y → x = y) :
    (distinct xs).map f = distinct (xs.map f) := by
  suffices hgen : ∀ (rest found : List α), found ⊆ xs → rest ⊆ xs →
      (rest.foldl (fun found x => addNew x found) found).map f =
        (rest.map f).foldl (fun found x => addNew x found) (found.map f) from
    hgen xs [] (List.nil_subset xs) (List.Subset.refl xs)
  intro rest
  induction rest with
  | nil => exact fun _ _ _ => rfl
  | cons x rest ih =>
      intro found hfound hrest
      rw [List.cons_subset] at hrest
      have hnext : addNew x found ⊆ xs := by
        intro y hy
        rcases mem_addNew.1 hy with rfl | hy
        · exact hrest.1
        · exact hfound hy
      rw [List.map_cons, List.foldl_cons, List.foldl_cons, ih _ hnext hrest.2,
        map_addNew fun y hy => hf y (hfound hy) x hrest.1]

end Map

/-- A list without repetitions has nothing to leave out. -/
theorem distinct_eq_self {xs : List α} (h : xs.Nodup) : distinct xs = xs := by
  induction xs using List.reverseRecOn with
  | nil => rfl
  | append_singleton xs x ih =>
      rw [List.nodup_append] at h
      have hnew : x ∉ xs := fun hx => h.2.2 x hx x (List.mem_singleton_self _) rfl
      rw [distinct, List.foldl_append, List.foldl_cons, List.foldl_nil, ← distinct, ih h.1, addNew,
        if_neg hnew]

theorem nodup_distinct (xs : List α) : (distinct xs).Nodup := by
  suffices hgen : ∀ found : List α, found.Nodup →
      (xs.foldl (fun found x => addNew x found) found).Nodup from hgen [] List.nodup_nil
  induction xs with
  | nil => exact fun _ hfound => hfound
  | cons x xs ih => exact fun found hfound => ih _ (nodup_addNew x hfound)

end Keyed

end GraphQuery
