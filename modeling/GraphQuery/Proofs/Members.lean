import Mathlib.Data.List.TakeWhile
import GraphQuery.Context
import GraphQuery.Proofs.Entity.Typing
import GraphQuery.Proofs.Selection.Derivation

/-!
# Members — the field that a member reads

A member is resolved twice. To compile it, its name is looked up among the fields that the type
declares; to evaluate it, among the fields that the entity has populated, in the order in which they
were. Both look for exactly the name first and then for one that differs in case only, so they find
one field unless another populated field of that name stands in the way.

- `Entity.readName?`, `Entity.getIgnoringCase?_eq` : the populated field that is read for a name
- `Entity.Shadowed`, `Entity.readName?_eq_some_iff` : when it is another field than the one meant
- `Compiler.sameIgnoringCase_of_resolveMember` : the field that a member is compiled to
- `QueryContext.evaluate_member_of_resolveMember` : the value of the member, after any history
- `QueryContext.name_read_as_other` : a history after which it is the value of another field
-/

set_option autoImplicit false

namespace GraphQuery

namespace Name

variable {a b c : String}

theorem sameIgnoringCase_iff : sameIgnoringCase a b = true ↔
    a.toList.map Char.toLower = b.toList.map Char.toLower := by
  simp [sameIgnoringCase]

theorem sameIgnoringCase_refl (a : String) : sameIgnoringCase a a = true :=
  sameIgnoringCase_iff.2 rfl

theorem sameIgnoringCase_symm (h : sameIgnoringCase a b = true) : sameIgnoringCase b a = true :=
  sameIgnoringCase_iff.2 (sameIgnoringCase_iff.1 h).symm

theorem sameIgnoringCase_trans (hab : sameIgnoringCase a b = true)
    (hbc : sameIgnoringCase b c = true) : sameIgnoringCase a c = true :=
  sameIgnoringCase_iff.2 ((sameIgnoringCase_iff.1 hab).trans (sameIgnoringCase_iff.1 hbc))

end Name

/-! ## Entities -/

namespace Entity

variable {entity : Entity} {name field other : String}

/-- The name of the populated field that is read for a name: exactly this one, or else the first
one that differs in case only. -/
def readName? (entity : Entity) (name : String) : Option String :=
  if name ∈ entity.fieldNames then some name
  else entity.fieldNames.find? fun other => Name.sameIgnoringCase other name

/-- The fields that were populated before a field. -/
def populatedBefore (entity : Entity) (field : String) : List String :=
  entity.fieldNames.takeWhile fun other => other != field

/-- Another field is read in place of a field: one of exactly the name that is asked for or, where
none is, one that differs from the name in case only and was populated before. -/
def Shadowed (entity : Entity) (name field : String) : Prop :=
  (name ∈ entity.fieldNames ∧ name ≠ field) ∨
    (name ∉ entity.fieldNames ∧ ∃ other ∈ entity.populatedBefore field,
      Name.sameIgnoringCase other name = true)

theorem get?_eq_none_iff : entity.get? name = none ↔ name ∉ entity.fieldNames := by
  unfold get? fieldNames
  rw [Option.map_eq_none_iff]
  induction entity.fields with
  | nil => simp [Keyed.find?]
  | cons f rest ih =>
      by_cases hf : f.1 = name
      · simp [Keyed.find?, hf]
      · simp [Keyed.find?, hf, ih, Ne.symm hf]

theorem exists_get?_of_mem (h : name ∈ entity.fieldNames) : ∃ v, entity.get? name = some v := by
  cases hget : entity.get? name with
  | none => exact absurd h (get?_eq_none_iff.1 hget)
  | some v => exact ⟨v, rfl⟩

theorem mem_fieldNames_of_get? {v : Value} (h : entity.get? name = some v) :
    name ∈ entity.fieldNames := by
  by_contra hnot
  rw [get?_eq_none_iff.2 hnot] at h
  cases h

/-- A first field is found by its name. -/
theorem find?_map_snd (p : String → Bool) (fields : List (String × Value)) :
    (fields.find? fun f => p f.1).map Prod.snd =
      ((fields.map Prod.fst).find? p).bind fun name =>
        (Keyed.find? Prod.fst name fields).map Prod.snd := by
  induction fields with
  | nil => rfl
  | cons f rest ih =>
      by_cases hf : p f.1 = true
      · simp [hf, Keyed.find?]
      · -- What passes the test is not the first field, so it is looked up behind it.
        rw [List.find?_cons_of_neg (by simpa using hf), List.map_cons,
          List.find?_cons_of_neg (by simpa using hf), ih]
        refine Option.bind_congr fun name hname => ?_
        have hne : f.1 ≠ name := by
          rintro rfl
          exact hf (List.find?_some hname)
        rw [Keyed.find?, if_neg hne]

theorem getIgnoringCase?_eq (entity : Entity) (name : String) :
    entity.getIgnoringCase? name = (entity.readName? name).bind entity.get? := by
  unfold getIgnoringCase? readName?
  by_cases hname : name ∈ entity.fieldNames
  · rcases exists_get?_of_mem hname with ⟨v, hv⟩
    rw [if_pos hname, Option.bind_some, hv]
    rfl
  · rw [if_neg hname, get?_eq_none_iff.2 hname, Option.orElse_eq_orElse, Option.orElse_eq_or,
      Option.none_or]
    exact find?_map_snd (fun other => Name.sameIgnoringCase other name) entity.fields

theorem sameIgnoringCase_of_readName? (h : entity.readName? name = some other) :
    Name.sameIgnoringCase other name = true := by
  unfold readName? at h
  split at h
  · cases h
    exact Name.sameIgnoringCase_refl name
  · have hfound := List.find?_some h
    exact hfound

theorem mem_fieldNames_of_readName? (h : entity.readName? name = some other) :
    other ∈ entity.fieldNames := by
  unfold readName? at h
  split at h
  · next hname =>
      cases h
      exact hname
  · exact List.mem_of_find?_eq_some h

theorem exists_readName? (hfield : field ∈ entity.fieldNames)
    (hsame : Name.sameIgnoringCase field name = true) :
    ∃ other, entity.readName? name = some other := by
  unfold readName?
  split
  · exact ⟨name, rfl⟩
  · exact Option.isSome_iff_exists.1 (List.find?_isSome.2 ⟨field, hfield, hsame⟩)

/-- The element that is found first is the one before which none passes the test. -/
theorem find?_eq_some_iff_takeWhile {p : String → Bool} {x : String} {xs : List String}
    (hx : x ∈ xs) (hp : p x = true) :
    xs.find? p = some x ↔ ¬ ∃ y ∈ xs.takeWhile (fun y => y != x), p y = true := by
  induction xs with
  | nil => cases hx
  | cons y ys ih =>
      by_cases hyx : y = x
      · subst hyx
        simp [hp]
      · have hys : x ∈ ys := (List.mem_cons.1 hx).resolve_left (Ne.symm hyx)
        by_cases hy : p y = true
        · simp [hy, hyx]
        · simp [hy, hyx, ih hys]

/-- A field is the one that is read for a name of its own just when no other field stands in its
way. -/
theorem readName?_eq_some_iff (hfield : field ∈ entity.fieldNames)
    (hsame : Name.sameIgnoringCase field name = true) :
    entity.readName? name = some field ↔ ¬ entity.Shadowed name field := by
  unfold readName? Shadowed
  by_cases hname : name ∈ entity.fieldNames
  · simp [hname]
  · rw [if_neg hname, find?_eq_some_iff_takeWhile hfield hsame]
    simp [hname, populatedBefore]

/-- Among the names of the populated fields, one that differs from the others by more than case is
not in their way. -/
theorem not_shadowed (hunique : ∀ other ∈ entity.fieldNames,
      Name.sameIgnoringCase other name = true → other = field) :
    ¬ entity.Shadowed name field := by
  rintro (⟨hname, hne⟩ | ⟨-, other, hother, hsame⟩)
  · exact hne (hunique name hname (Name.sameIgnoringCase_refl name))
  · have hmem : other ∈ entity.fieldNames := List.takeWhile_subset _ hother
    have hne := List.mem_takeWhile_imp hother
    simp [hunique other hmem hsame] at hne

/-- Neither is any field in the way of one that is asked for by exactly its name. -/
theorem not_shadowed_self (hfield : field ∈ entity.fieldNames) :
    ¬ entity.Shadowed field field := by
  rintro (⟨-, hne⟩ | ⟨hnot, -⟩)
  · exact hne rfl
  · exact hnot hfield

end Entity

/-! ## Members -/

theorem Compiler.sameIgnoringCase_of_resolveMember {c : Compiler} {m : Member} {owner : TypeRef}
    {f : Field} (h : c.resolveMember m owner = .ok f) :
    Name.sameIgnoringCase f.name (c.naming.fieldName m) = true := by
  rcases Option.bind_eq_some_iff.1 (findField?_of_resolveMember h) with ⟨fields, -, hfound⟩
  rw [Option.orElse_eq_orElse, Option.orElse_eq_or, Option.or_eq_some_iff] at hfound
  rcases hfound with hexact | ⟨-, hsame⟩
  · rw [(Keyed.mem_of_find? hexact).2]
    exact Name.sameIgnoringCase_refl _
  · have hfound := List.find?_some hsame
    exact hfound

/-- No other field of the type has a name that differs from this one in case only. -/
def Schema.TellsApart (s : Schema) (type : TypeRef) (name : String) : Prop :=
  ∀ field, s.field? type field.name = some field →
    Name.sameIgnoringCase field.name name = true → field.name = name

namespace QueryContext

variable {context : QueryContext} {store : Store} {m : Member} {target : Expression} {root : Value}
  {owner : TypeRef} {f : Field} {id : EntityId} {entity : Entity} {v : Value}

theorem evaluate_member (htarget : context.evaluate store target root = .object id)
    (hentity : store.heap.entity? id = some entity) :
    context.evaluate store (.member target m) root =
      (entity.getIgnoringCase? (context.compiler.naming.fieldName m)).getD .null := by
  unfold evaluate at htarget ⊢
  rw [Evaluation.value, htarget, Evaluation.member, Evaluation.field, hentity, Option.bind_some]

/-- After any history of responses and clears, a member of an entity in which the field that it is
compiled to is populated is evaluated to the value of that field, unless the field is shadowed; then
it is the value of another field, whose name differs in case only. A field is not shadowed where its
name is the one that is asked for, or where no other field of the object type has the name but for
case. -/
theorem evaluate_member_of_resolveMember {d : Declarations} {actions : List Action}
    (hs : d.build = .ok context.compiler.schema)
    (hallowed : ∀ action ∈ actions, action.Allowed context.compiler.schema)
    (hresolve : context.compiler.resolveMember m owner = .ok f)
    (htarget : context.evaluate (Store.empty.applyAll actions) target root = .object id)
    (hentity : (Store.empty.applyAll actions).heap.entity? id = some entity)
    (hpopulated : entity.get? f.name = some v) :
    (¬ entity.Shadowed (context.compiler.naming.fieldName m) f.name →
        context.evaluate (Store.empty.applyAll actions) (.member target m) root = v) ∧
      (entity.Shadowed (context.compiler.naming.fieldName m) f.name →
        ∃ other w, other ≠ f.name ∧ Name.sameIgnoringCase other f.name = true ∧
          entity.get? other = some w ∧
          context.evaluate (Store.empty.applyAll actions) (.member target m) root = w) ∧
      (context.compiler.naming.fieldName m = f.name ∨
          context.compiler.schema.TellsApart entity.type f.name →
        ¬ entity.Shadowed (context.compiler.naming.fieldName m) f.name) := by
  have hsame := Compiler.sameIgnoringCase_of_resolveMember hresolve
  have hfield : f.name ∈ entity.fieldNames := Entity.mem_fieldNames_of_get? hpopulated
  have hevaluate := evaluate_member (m := m) htarget hentity
  rw [Entity.getIgnoringCase?_eq] at hevaluate
  have hread := Entity.readName?_eq_some_iff hfield hsame
  refine ⟨fun hnot => ?_, fun hshadowed => ?_, ?_⟩
  · rw [hevaluate, hread.2 hnot, Option.bind_some, hpopulated, Option.getD_some]
  · rcases Entity.exists_readName? hfield hsame with ⟨other, hother⟩
    have hpopulatedOther := Entity.mem_fieldNames_of_readName? hother
    rcases Entity.exists_get?_of_mem hpopulatedOther with ⟨w, hw⟩
    refine ⟨other, w, ?_, ?_, hw, ?_⟩
    · rintro rfl
      exact hread.1 hother hshadowed
    · exact Name.sameIgnoringCase_trans (Entity.sameIgnoringCase_of_readName? hother)
        (Name.sameIgnoringCase_symm hsame)
    · rw [hevaluate, hother, Option.bind_some, hw, Option.getD_some]
  · rintro (hexact | hapart)
    · rw [hexact]
      exact Entity.not_shadowed_self hfield
    · refine Entity.not_shadowed fun other hother hotherSame => ?_
      have hconsistent := Declarations.consistent_of_build hs
      have htyped := Store.wellTyped_empty.applyAll hconsistent hallowed
      rcases List.mem_map.1 hother with ⟨populated, hmem, rfl⟩
      rcases htyped.field hentity populated hmem with ⟨g, hg, -⟩
      rcases Option.bind_eq_some_iff.1 hg with ⟨fields, hfields, hfound⟩
      have hname := (Keyed.mem_of_find? hfound).2
      rw [← hname] at hg hotherSame ⊢
      exact hapart g hg (Name.sameIgnoringCase_trans hotherSame (Name.sameIgnoringCase_symm hsame))

/-! ## Spellings -/

def spellingsDeclarations : Declarations where
  types := [
    .scalar "ID",
    .scalar "String",
    .object "Book" [⟨"id", .named "ID", []⟩, ⟨"name", .named "String", []⟩,
      ⟨"NAME", .named "String", []⟩] [],
    .object "Query" [⟨"books", .list (.named "Book"), []⟩] []]
  queryType := none
  distinct := by decide

def spellingsContext : QueryContext :=
  (ofSchema ((spellingsDeclarations.build.toOption).getD ⟨[], ⟨0, "Query"⟩⟩)).withConfiguration
    { Configuration.standard with defaultScalars := false, recursionLimit := 8 }

/-- One book, with a field besides its identity. -/
def oneBook (field text : String) : Json :=
  .array [.object [("id", .string "1"), (field, .string text)]]

def booksType : GraphType := .list (.named .object ⟨2, "Book"⟩)

/-- The book is read twice, with one of the two names each time. -/
def bothNames : List Action :=
  [.materialize ⟨spellingsContext.materializer, oneBook "NAME" "upper", booksType⟩,
    .materialize ⟨spellingsContext.materializer, oneBook "name" "lower", booksType⟩]

theorem bothNames_allowed :
    ∀ action ∈ bothNames, action.Allowed spellingsContext.compiler.schema := by
  have hbuilt : spellingsContext.materializer.Built spellingsContext.compiler.schema :=
    .configured .ofSchema
  have hall : ∀ field text, Action.Allowed spellingsContext.compiler.schema
      (.materialize ⟨spellingsContext.materializer, oneBook field text, booksType⟩) :=
    fun _ _ => ⟨hbuilt, rfl⟩
  exact List.forall_mem_cons.2 ⟨hall _ _, List.forall_mem_singleton.2 (hall _ _)⟩

/-- The member `Name` is compiled to the first field that differs from it in case only. -/
theorem resolveMember_name :
    spellingsContext.compiler.resolveMember ⟨"Book", "Name"⟩ ⟨2, "Book"⟩ =
      .ok ⟨"name", .named .scalar ⟨1, "String"⟩, []⟩ := rfl

theorem evaluate_member_of_bothNames :
    ∃ entity, (Store.empty.applyAll bothNames).heap.entity? ⟨0⟩ = some entity ∧
      entity.get? "name" = some (.leaf (.string "lower")) ∧
      (¬ entity.Shadowed "Name" "name" →
        spellingsContext.evaluate (Store.empty.applyAll bothNames)
          (.member .current ⟨"Book", "Name"⟩) (.object ⟨0⟩) = .leaf (.string "lower")) ∧
      (entity.Shadowed "Name" "name" →
        ∃ other w, other ≠ "name" ∧ Name.sameIgnoringCase other "name" = true ∧
          entity.get? other = some w ∧
          spellingsContext.evaluate (Store.empty.applyAll bothNames)
            (.member .current ⟨"Book", "Name"⟩) (.object ⟨0⟩) = w) ∧
      ("Name" = "name" ∨ spellingsContext.compiler.schema.TellsApart entity.type "name" →
        ¬ entity.Shadowed "Name" "name") := by
  have hbuild : spellingsDeclarations.build = .ok spellingsContext.compiler.schema := rfl
  obtain ⟨entity, hentity, hname⟩ : ∃ entity,
      (Store.empty.applyAll bothNames).heap.entity? ⟨0⟩ = some entity ∧
        entity.get? "name" = some (.leaf (.string "lower")) := ⟨_, rfl, rfl⟩
  exact ⟨entity, hentity, hname, evaluate_member_of_resolveMember hbuild bothNames_allowed
    resolveMember_name rfl hentity hname⟩

/-- An expression for books is executed, with this response, in a store. -/
def answer (e : Expression) (response : Json) (store : Store) : Except QueryError Value × Store :=
  ((spellingsContext.execute (M := Id) (fun _ => .ok (.object [("books", response)])) e).run).run
    store

/-- The books with their identities. -/
def someBooks : Expression :=
  .including (.root "Book" none) (.member .current ⟨"Book", "id"⟩)

/-- A query for the field `NAME` of the books, and then one for the member `Name`. -/
def bothAnswers : Except QueryError Value × Store :=
  answer (.project someBooks (.member .current ⟨"Book", "Name"⟩)) (oneBook "name" "lower")
    (answer (.including someBooks (.member .current ⟨"Book", "NAME"⟩)) (oneBook "NAME" "upper")
      Store.empty).2

/-- The member `Name` is compiled to the field `name`, which the second query asks for and receives.
It has the value of the field `NAME`, which was populated before. -/
theorem name_read_as_other :
    spellingsContext.compiler.resolveMember ⟨"Book", "Name"⟩ ⟨2, "Book"⟩ =
        .ok ⟨"name", .named .scalar ⟨1, "String"⟩, []⟩ ∧
      bothAnswers.2.heap.entity? ⟨0⟩ = some ⟨⟨2, "Book"⟩, [("id", .leaf (.string "1")),
        ("NAME", .leaf (.string "upper")), ("name", .leaf (.string "lower"))]⟩ ∧
      bothAnswers.1 = .ok (.list [.leaf (.string "upper")]) :=
  ⟨resolveMember_name, rfl, rfl⟩

end QueryContext

end GraphQuery
