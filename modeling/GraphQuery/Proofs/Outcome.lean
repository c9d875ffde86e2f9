import Mathlib.Data.List.Forall2

/-!
# Outcome — computations that may fail, taken apart

Every pass of the library is a chain of steps in `Except`. A chain succeeds when each of its steps
does, and these laws give the steps back.

- `Outcome.bind_eq_ok_iff`, `Outcome.bind_eq_error_iff`, `Outcome.map_eq_ok_iff` : one step and the
  rest
- `Outcome.mapM_eq_ok_iff`, `Outcome.mapM_map_eq_ok`, `Outcome.mapM_eq_of_forall₂` : a step for each
  element of a list
- `Outcome.exists_mapM_eq_ok` : no element of a list that fails
- `Outcome.exists_of_mapM_eq_error`, `Outcome.exists_of_foldlM_eq_error` : the step that fails
- `Outcome.foldlM_induction` : what every step of a loop keeps
- `Outcome.Agree` : two computations that fail alike or give results that correspond, with
  `Agree.bind`, `Agree.bind_eq`, `Agree.mapM` and `Agree.foldlM`
- `Outcome.StopsShort` : a computation that does what another one does, or gives up, with
  `StopsShort.bind`, `StopsShort.mapM` and `StopsShort.guarded`
- `Outcome.Checks` : a computation that fails for the first fault that it meets, with
  `Checks.bind`, `Checks.mapM`, `Checks.exists_ok_iff` and `Checks.eq_error_iff`
- `Outcome.getElem?_left`, `Outcome.mem_right` : partners in lists that agree element by element
-/

set_option autoImplicit false

namespace GraphQuery

namespace Outcome

variable {α β ε : Type}

theorem bind_eq_ok_iff {x : Except ε α} {f : α → Except ε β} {b : β} :
    (x >>= f) = .ok b ↔ ∃ a, x = .ok a ∧ f a = .ok b := by
  cases x with
  | error e => simp [bind, Except.bind]
  | ok a => simp [bind, Except.bind]

theorem bind_eq_error_iff {x : Except ε α} {f : α → Except ε β} {e : ε} :
    (x >>= f) = .error e ↔ x = .error e ∨ ∃ a, x = .ok a ∧ f a = .error e := by
  cases x with
  | error e' => simp [bind, Except.bind]
  | ok a => simp [bind, Except.bind]

theorem exists_of_isOk {x : Except ε α} (h : x.isOk = true) : ∃ a, x = .ok a := by
  cases x with
  | error e => cases h
  | ok a => exact ⟨a, rfl⟩

theorem map_eq_ok_iff {x : Except ε α} {f : α → β} {b : β} :
    x.map f = .ok b ↔ ∃ a, x = .ok a ∧ f a = b := by
  cases x with
  | error e => simp [Except.map]
  | ok a => simp [Except.map]

/-- A list is gone through with success when each element is. -/
theorem mapM_eq_ok_iff {f : α → Except ε β} {xs : List α} {ys : List β} :
    xs.mapM f = .ok ys ↔ List.Forall₂ (fun x y => f x = .ok y) xs ys := by
  induction xs generalizing ys with
  | nil =>
      simp only [List.mapM_nil, pure, Except.pure, Except.ok.injEq, List.forall₂_nil_left_iff]
      exact eq_comm
  | cons x xs ih =>
      rw [List.mapM_cons, List.forall₂_cons_left_iff]
      constructor
      · intro h
        rcases bind_eq_ok_iff.1 h with ⟨y, hy, h⟩
        rcases bind_eq_ok_iff.1 h with ⟨rest, hrest, h⟩
        cases h
        exact ⟨y, rest, hy, ih.1 hrest, rfl⟩
      · rintro ⟨y, rest, hy, hrest, rfl⟩
        exact bind_eq_ok_iff.2 ⟨y, hy, bind_eq_ok_iff.2 ⟨rest, ih.2 hrest, rfl⟩⟩

/-- A list that is made of another one is gone through when what is made of each element is. -/
theorem mapM_map_eq_ok {γ : Type} {f : β → Except ε γ} {g : α → β} {k : α → γ} {xs : List α}
    (h : ∀ x ∈ xs, f (g x) = .ok (k x)) : (xs.map g).mapM f = .ok (xs.map k) :=
  mapM_eq_ok_iff.2 (List.forall₂_map_left_iff.2 (List.forall₂_map_right_iff.2
    (List.forall₂_same.2 h)))

/-- Lists are gone through alike when the steps for elements that correspond do the same. -/
theorem mapM_eq_of_forall₂ {γ : Type} {R : α → β → Prop} {f : α → Except ε γ} {g : β → Except ε γ}
    {xs : List α} {ys : List β} (h : List.Forall₂ R xs ys) (hfg : ∀ x y, R x y → f x = g y) :
    xs.mapM f = ys.mapM g := by
  induction h with
  | nil => rfl
  | cons hxy _ ih => rw [List.mapM_cons, List.mapM_cons, hfg _ _ hxy, ih]

/-- A list is gone through with a failure when that of an element stops it. -/
theorem exists_of_mapM_eq_error {f : α → Except ε β} {xs : List α} {e : ε}
    (h : xs.mapM f = .error e) : ∃ x ∈ xs, f x = .error e := by
  induction xs with
  | nil => cases h
  | cons x xs ih =>
      rw [List.mapM_cons] at h
      rcases bind_eq_error_iff.1 h with hx | ⟨y, -, h⟩
      · exact ⟨x, List.mem_cons_self, hx⟩
      · rcases bind_eq_error_iff.1 h with hrest | ⟨ys, -, h⟩
        · rcases ih hrest with ⟨x', hx', hfail⟩
          exact ⟨x', List.mem_cons_of_mem x hx', hfail⟩
        · cases h

/-- A list is gone through when no element stops it. -/
theorem exists_mapM_eq_ok {f : α → Except ε β} {xs : List α} (h : ∀ x ∈ xs, ∃ y, f x = .ok y) :
    ∃ ys, xs.mapM f = .ok ys := by
  cases hxs : xs.mapM f with
  | ok ys => exact ⟨ys, rfl⟩
  | error e =>
      rcases exists_of_mapM_eq_error hxs with ⟨x, hx, hfail⟩
      rcases h x hx with ⟨y, hy⟩
      rw [hfail] at hy
      cases hy

/-- A loop ends with a failure when a step fails, after the steps before it have succeeded. -/
theorem exists_of_foldlM_eq_error {f : β → α → Except ε β} {start : β} {xs : List α} {e : ε}
    (h : xs.foldlM f start = .error e) :
    ∃ done x rest b, xs = done ++ x :: rest ∧ done.foldlM f start = .ok b ∧ f b x = .error e := by
  induction xs generalizing start with
  | nil => cases h
  | cons x xs ih =>
      rw [List.foldlM_cons] at h
      rcases bind_eq_error_iff.1 h with hx | ⟨b, hb, h⟩
      · exact ⟨[], x, xs, start, rfl, rfl, hx⟩
      · rcases ih h with ⟨done, y, rest, c, rfl, hdone, hy⟩
        refine ⟨x :: done, y, rest, c, rfl, ?_, hy⟩
        rw [List.foldlM_cons]
        exact bind_eq_ok_iff.2 ⟨b, hb, hdone⟩

/-- What holds at the start of a loop, and is kept by every step that succeeds, holds at its
end. -/
theorem foldlM_induction {motive : List α → β → Prop} {f : β → α → Except ε β} {start stop : β}
    {xs : List α} (h : xs.foldlM f start = .ok stop) (hstart : motive [] start)
    (hstep : ∀ done x b b', motive done b → f b x = .ok b' → motive (done ++ [x]) b') :
    motive xs stop := by
  -- The list is cut into what the loop has done and what is left; the induction is on the latter.
  suffices hgen : ∀ (rest done : List α) (b : β), motive done b → rest.foldlM f b = .ok stop →
      motive (done ++ rest) stop from hgen xs [] start hstart h
  intro rest
  induction rest with
  | nil =>
      intro done b hb hfold
      cases hfold
      simpa using hb
  | cons x rest ih =>
      intro done b hb hfold
      rw [List.foldlM_cons] at hfold
      rcases bind_eq_ok_iff.1 hfold with ⟨b', hb', hfold⟩
      have hnext := ih (done ++ [x]) b' (hstep done x b b' hb hb') hfold
      simpa using hnext

/-! ## Lists that agree element by element -/

theorem getElem?_left {R : α → β → Prop} {xs : List α} {ys : List β} (h : List.Forall₂ R xs ys)
    {i : Nat} {y : β} (hy : ys[i]? = some y) : ∃ x, xs[i]? = some x ∧ R x y := by
  -- Both lists are taken apart together, so a position in one is a position in the other.
  induction h generalizing i with
  | nil => simp at hy
  | @cons x z _ _ hxz _ ih =>
      cases i with
      | zero =>
          have hz : z = y := by simpa using hy
          exact ⟨x, rfl, hz ▸ hxz⟩
      | succ i => exact ih hy

theorem getElem?_right {R : α → β → Prop} {xs : List α} {ys : List β} (h : List.Forall₂ R xs ys)
    {i : Nat} {x : α} (hx : xs[i]? = some x) : ∃ y, ys[i]? = some y ∧ R x y :=
  getElem?_left h.flip hx

theorem mem_right {R : α → β → Prop} {xs : List α} {ys : List β} (h : List.Forall₂ R xs ys)
    {y : β} (hy : y ∈ ys) : ∃ x ∈ xs, R x y := by
  rcases List.mem_iff_getElem?.1 hy with ⟨i, hi⟩
  rcases getElem?_left h hi with ⟨x, hx, hxy⟩
  exact ⟨x, List.mem_iff_getElem?.2 ⟨i, hx⟩, hxy⟩

theorem mem_left {R : α → β → Prop} {xs : List α} {ys : List β} (h : List.Forall₂ R xs ys)
    {x : α} (hx : x ∈ xs) : ∃ y ∈ ys, R x y :=
  mem_right h.flip hx

/-! ## Computations that agree -/

/-- Either both computations fail, for causes that correspond, or both give results that do. -/
inductive Agree {ε δ α β : Type} (E : ε → δ → Prop) (R : α → β → Prop) :
    Except ε α → Except δ β → Prop where
  | error {e : ε} {d : δ} : E e d → Agree E R (.error e) (.error d)
  | ok {a : α} {b : β} : R a b → Agree E R (.ok a) (.ok b)

namespace Agree

variable {δ γ ζ : Type} {E : ε → δ → Prop} {R : α → β → Prop} {S : γ → ζ → Prop}
  {x : Except ε α} {y : Except δ β}

theorem refl (x : Except ε α) : Agree Eq Eq x x := by
  cases x with
  | error e => exact .error rfl
  | ok a => exact .ok rfl

theorem imp {T : α → β → Prop} (h : Agree E R x y)
    (hRT : ∀ a b, x = .ok a → y = .ok b → R a b → T a b) : Agree E T x y := by
  cases h with
  | error he => exact .error he
  | ok hab => exact .ok (hRT _ _ rfl rfl hab)

/-- Computations agree when their first steps do, and what follows agrees for all results that
correspond. -/
theorem bind {f : α → Except ε γ} {g : β → Except δ ζ} (h : Agree E R x y)
    (hfg : ∀ a b, R a b → Agree E S (f a) (g b)) : Agree E S (x >>= f) (y >>= g) := by
  cases h with
  | error he => exact .error he
  | ok hab => exact hfg _ _ hab

/-- Computations are one when their first steps fail alike, and what follows is one for all results
that correspond. -/
theorem bind_eq {y : Except ε β} {f : α → Except ε γ} {g : β → Except ε γ} (h : Agree Eq R x y)
    (hfg : ∀ a b, x = .ok a → R a b → f a = g b) : (x >>= f) = (y >>= g) := by
  cases h with
  | error hcause => exact congrArg Except.error hcause
  | ok hab => exact hfg _ _ rfl hab

theorem mapM {f : α → Except ε γ} {g : β → Except δ ζ} {xs : List α} {ys : List β}
    (h : List.Forall₂ R xs ys) (hfg : ∀ a b, R a b → Agree E S (f a) (g b)) :
    Agree E (List.Forall₂ S) (xs.mapM f) (ys.mapM g) := by
  induction h with
  | nil => exact .ok .nil
  | cons hxy _ ih =>
      rw [List.mapM_cons, List.mapM_cons]
      apply (hfg _ _ hxy).bind
      intro c d hcd
      apply ih.bind
      intro cs ds hrest
      exact .ok (.cons hcd hrest)

/-- Loops agree when each step keeps the states in correspondence. -/
theorem foldlM {f : γ → α → Except ε γ} {g : ζ → β → Except δ ζ} {xs : List α} {ys : List β}
    (h : List.Forall₂ R xs ys)
    (hfg : ∀ a b c d, R a b → S c d → Agree E S (f c a) (g d b)) {c : γ} {d : ζ} (hcd : S c d) :
    Agree E S (xs.foldlM f c) (ys.foldlM g d) := by
  induction h generalizing c d with
  | nil => exact .ok hcd
  | cons hxy _ ih =>
      rw [List.foldlM_cons, List.foldlM_cons]
      exact (hfg _ _ _ _ hxy hcd).bind fun _ _ hnext => ih hnext

end Agree

/-! ## Computations that stop short of others -/

/-- The first computation gives up for a cause, or it does what the second one does. -/
inductive StopsShort {ε α : Type} (e : ε) : Except ε α → Except ε α → Prop where
  | stop (y : Except ε α) : StopsShort e (.error e) y
  | same (x : Except ε α) : StopsShort e x x

namespace StopsShort

variable {e : ε} {x y : Except ε α}

theorem eq_of_ne (h : StopsShort e x y) (hne : x ≠ .error e) : y = x := by
  cases h with
  | stop y => exact absurd rfl hne
  | same x => rfl

theorem bind {f g : α → Except ε β} (h : StopsShort e x y)
    (hfg : ∀ a, StopsShort e (f a) (g a)) : StopsShort e (x >>= f) (y >>= g) := by
  cases h with
  | stop y => exact .stop _
  | same x =>
      cases x with
      | error cause => exact .same _
      | ok a => exact hfg a

theorem mapM {f g : α → Except ε β} {xs : List α} (h : ∀ a ∈ xs, StopsShort e (f a) (g a)) :
    StopsShort e (xs.mapM f) (xs.mapM g) := by
  induction xs with
  | nil => exact .same _
  | cons a rest ih =>
      rcases List.forall_mem_cons.1 h with ⟨ha, hrest⟩
      rw [List.mapM_cons, List.mapM_cons]
      exact ha.bind fun b => (ih hrest).bind fun bs => .same _

/-- A check that stops the first computation for the cause stops the second one in fewer cases. -/
theorem guarded {p q : Prop} [Decidable p] [Decidable q] {e' : ε} (hqp : q → p)
    (h : StopsShort e x y) :
    StopsShort e (if p then .error e else x) (if q then .error e' else y) := by
  by_cases hp : p
  · rw [if_pos hp]
    exact .stop _
  · rw [if_neg hp, if_neg fun hq => hp (hqp hq)]
    exact h

end StopsShort

/-! ## Computations that check one thing after another -/

/-- Why a computation fails, if it does. -/
def cause? : Except ε α → Option ε
  | .error e => some e
  | .ok _ => none

/-- The computation fails for the first fault in a list of what it checks, and for nothing else. -/
def Checks {γ : Type} (fault? : γ → Option ε) (x : Except ε α) (checked : List γ) : Prop :=
  cause? x = checked.findSome? fault?

namespace Checks

variable {γ : Type} {fault? : γ → Option ε} {x : Except ε α} {checked : List γ}

theorem ok (a : α) : Checks fault? (.ok a) [] := rfl

theorem single {c : γ} (h : cause? x = fault? c) : Checks fault? x [c] := by
  rw [Checks, h, List.findSome?_singleton]

theorem map (h : Checks fault? x checked) (f : α → β) : Checks fault? (x.map f) checked := by
  cases x with
  | error e => exact h
  | ok a => exact h

/-- What the first step checks comes before what is checked after it. -/
theorem bind {f : α → Except ε β} {later : List γ} (h : Checks fault? x checked)
    (hf : ∀ a, Checks fault? (f a) later) : Checks fault? (x >>= f) (checked ++ later) := by
  unfold Checks at h ⊢
  rw [List.findSome?_append, ← h]
  cases x with
  | error e => rfl
  | ok a => exact hf a

theorem pure_bind (h : Checks fault? x checked) (f : α → β) :
    Checks fault? (x >>= fun a => pure (f a)) checked := by
  have hbind := h.bind fun a => Checks.ok (f a)
  rwa [List.append_nil] at hbind

/-- A list is gone through element by element. -/
theorem mapM {f : β → Except ε α} {each : β → List γ} (h : ∀ y, Checks fault? (f y) (each y))
    (ys : List β) : Checks fault? (ys.mapM f) (ys.flatMap each) := by
  induction ys with
  | nil => exact .ok []
  | cons y ys ih =>
      rw [List.mapM_cons, List.flatMap_cons]
      exact (h y).bind fun z => ih.pure_bind fun zs => z :: zs

theorem mapM_single {f : β → Except ε α} {each : β → γ} (h : ∀ y, Checks fault? (f y) [each y])
    (ys : List β) : Checks fault? (ys.mapM f) (ys.map each) := by
  rw [List.map_eq_flatMap]
  exact mapM h ys

theorem exists_ok_iff (h : Checks fault? x checked) :
    (∃ a, x = .ok a) ↔ ∀ c ∈ checked, fault? c = none := by
  rw [← List.findSome?_eq_none_iff, ← h]
  cases x <;> simp [cause?]

theorem eq_error_iff (h : Checks fault? x checked) {e : ε} :
    x = .error e ↔ ∃ before c after, checked = before ++ c :: after ∧ fault? c = some e ∧
      ∀ b ∈ before, fault? b = none := by
  rw [← List.findSome?_eq_some_iff, ← h]
  cases x <;> simp [cause?]

end Checks

end Outcome

end GraphQuery
