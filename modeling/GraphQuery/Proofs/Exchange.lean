import GraphQuery.Proofs.Selection.EntryPoint
import GraphQuery.Proofs.Selection.Exchange
import GraphQuery.Proofs.Selection.Placement
import GraphQuery.Proofs.Variables

/-!
# Exchange — queries do not depend on argument values

Two expressions that differ in their sources only have the same query, if the sources of one are
interchangeable with those of the other: the document is the same text, with the same variables
in the same order, or there is none for the same reason.

- `Expression.Alike` : expressions that differ in their sources only
- `Compiler.agree_select` : their trees
- `Binder.AgreesWith`, `Pruned.agree_bind` : binding declares the same variables on both sides
- `Compiler.agree_compile` : their queries
-/

set_option autoImplicit false

namespace GraphQuery

open Outcome (Agree)

variable {R : ArgumentSource → ArgumentSource → Prop}

/-- Expressions that are equal but for the sources that they filter by, which correspond place by
place. -/
inductive Expression.Alike (R : ArgumentSource → ArgumentSource → Prop) :
    Expression → Expression → Prop where
  | root {domainType : String} {entryPoint : Option String} :
      Alike R (.root domainType entryPoint) (.root domainType entryPoint)
  | current : Alike R .current .current
  | member {target target' : Expression} {member : Member} :
      Alike R target target' → Alike R (.member target member) (.member target' member)
  | project {source source' selector selector' : Expression} :
      Alike R source source' → Alike R selector selector' →
      Alike R (.project source selector) (.project source' selector')
  | projectMany {source source' selector selector' : Expression} :
      Alike R source source' → Alike R selector selector' →
      Alike R (.projectMany source selector) (.projectMany source' selector')
  | filter {source source' : Expression} {arguments arguments' : ArgumentSource} :
      Alike R source source' → R arguments arguments' →
      Alike R (.filter source arguments) (.filter source' arguments')
  | including {source source' selector selector' : Expression} :
      Alike R source source' → Alike R selector selector' →
      Alike R (.including source selector) (.including source' selector')
  | cast {source source' : Expression} {domainType : String} :
      Alike R source source' → Alike R (.cast source domainType) (.cast source' domainType)
  | withFragment {source source' selection selection' : Expression} {name domainType : String} :
      Alike R source source' → Alike R selection selection' →
      Alike R (.withFragment source name domainType selection)
        (.withFragment source' name domainType selection')

/-! ## Trees -/

/-- Scopes that are equal but for the arguments that wait, which correspond. -/
structure Scope.Alike (R : ArgumentSource → ArgumentSource → Prop) (a b : Scope) : Prop where
  current : a.current = b.current
  defaultScalars : a.defaultScalars = b.defaultScalars
  arguments : Option.Rel R a.arguments b.arguments
  depth : a.depth = b.depth

/-- Trees that are alike, with their heads at the same place. -/
structure Focused.Alike (R : ArgumentSource → ArgumentSource → Prop) (f g : Focused) : Prop where
  root : Selection.Alike R f.root g.root
  path : f.path = g.path

namespace Selection

variable {s t child child' : Selection} {xs ys : List Selection}

theorem Alike.refl_of_sourceFree (h : ∀ x ∈ xs, Every (fun label => label.source? = none) x) :
    AllAlike R xs xs := by
  have hone : ∀ s : Selection, Every (fun label => label.source? = none) s → Alike R s s := by
    intro s
    induction s with
    | node label children ih =>
        intro hs
        refine .node (.same hs.holds) (List.forall₂_same.2 fun child hchild => ?_)
        exact ih child hchild (hs.children child hchild)
  exact List.forall₂_same.2 fun x hx => hone x (h x hx)

theorem alike_descendant? (hst : Alike R s t) (path : List Nat) :
    Option.Rel (Alike R) (s.descendant? path) (t.descendant? path) := by
  induction path generalizing s t with
  | nil => exact .some hst
  | cons i path ih =>
      cases hst with
      | @node _ _ xs ys _ hchildren =>
          have hi : Option.Rel (Alike R) xs[i]? ys[i]? := by
            cases hx : xs[i]? with
            | none =>
                have hy : ys[i]? = none := by
                  rw [List.getElem?_eq_none_iff] at hx ⊢
                  exact hchildren.length_eq ▸ hx
                rw [hy]
                exact .none
            | some x =>
                rcases Outcome.getElem?_right hchildren hx with ⟨y, hy, hxy⟩
                rw [hy]
                exact .some hxy
          rw [descendant?, descendant?]
          generalize xs[i]? = x at hi
          generalize ys[i]? = y at hi
          cases hi with
          | none => exact .none
          | some hxy => exact ih hxy

theorem alike_push (hst : Alike R s t) (hchild : Alike R child child') :
    Alike R (push child s) (push child' t) := by
  cases hst with
  | node hlabel hchildren => exact .node hlabel (allAlike_append hchildren (.cons hchild .nil))

theorem alike_modifyAt {f g : Selection → Selection}
    (hfg : ∀ s t, Alike R s t → Alike R (f s) (g t)) (path : List Nat) (hst : Alike R s t) :
    Alike R (s.modifyAt f path) (t.modifyAt g path) := by
  induction path generalizing s t with
  | nil => exact hfg s t hst
  | cons i path ih =>
      cases hst with
      | @node _ _ xs ys hlabel hchildren =>
          rw [modifyAt, modifyAt]
          refine .node hlabel ?_
          clear hlabel
          induction hchildren generalizing i with
          | nil => simp
          | cons hfirst hrest ihRest =>
              cases i with
              | zero => exact .cons (ih hfirst) hrest
              | succ i => exact .cons hfirst (ihRest i)

end Selection

namespace Focused

variable {f g f' g' : Focused}

theorem Alike.head (h : Alike R f f') : Selection.Alike R f.head f'.head := by
  unfold Focused.head
  rw [← h.path]
  have hfound := Selection.alike_descendant? h.root f.path
  generalize f.root.descendant? f.path = x at hfound
  generalize f'.root.descendant? f.path = y at hfound
  cases hfound with
  | none => exact h.root
  | some hxy => exact hxy

theorem Alike.owner (h : Alike R f f') : f.owner = f'.owner := by
  rw [Focused.owner, Focused.owner, h.head.label.type]

theorem Alike.attach (hf : Alike R f f') (hg : Alike R g g') (moveHead : Bool) :
    Alike R (f.attach g moveHead) (f'.attach g' moveHead) where
  root := by
    show Selection.Alike R (f.root.modifyAt _ f.path) (f'.root.modifyAt _ f'.path)
    rw [← hf.path]
    exact Selection.alike_modifyAt (fun _ _ h => Selection.alike_push h hg.root) f.path hf.root
  path := by
    simp only [Focused.attach, hf.path, hg.path, hf.head.children.length_eq]

end Focused

namespace Compiler

variable {c : Compiler}

theorem sourceFree_expansion (s : Schema) (type : GraphType) (defaultScalars : Bool) :
    ∀ node ∈ s.expansion type defaultScalars,
      Selection.Every (fun label => label.source? = none) node := by
  intro node hnode
  refine (provided_expansion s [] type defaultScalars node hnode).imp ?_
  intro label hprovided
  cases label with
  | field name type arguments source =>
      exact Option.eq_none_iff_forall_ne_some.2 fun x hx => by simpa using hprovided.2 x hx
  | _ => rfl

theorem agree_entryField (hR : Interchangeable R) (type : GraphType)
    (entryPoint : Option String) {x y : Option ArgumentSource} (hxy : Option.Rel R x y) :
    c.entryField type entryPoint x = c.entryField type entryPoint y := by
  cases hxy with
  | none => rfl
  | some hab => exact c.entryField_congr type entryPoint (hR.fields hab)

theorem agree_fieldNode (field : Field) {a b : Scope} (hab : a.Alike R b) :
    Agree Eq (Selection.Alike R) (c.fieldNode field a) (c.fieldNode field b) := by
  have hbelow : Selection.AllAlike R
      (if field.type.isComposite then c.schema.expansion field.type a.defaultScalars else [])
      (if field.type.isComposite then c.schema.expansion field.type b.defaultScalars else []) := by
    rw [hab.defaultScalars]
    split
    · exact Selection.Alike.refl_of_sourceFree (sourceFree_expansion _ _ _)
    · exact .nil
  unfold fieldNode
  dsimp only
  split
  · exact .ok (.node (.same rfl) hbelow)
  · have harguments := hab.arguments
    generalize a.arguments = x at harguments
    generalize b.arguments = y at harguments
    cases harguments with
    | none => exact .error rfl
    | some hxy => exact .ok (.node (.field hxy) hbelow)

/-- The trees of expressions that are alike are alike. -/
theorem agree_select (hR : Interchangeable R) {e e' : Expression} (he : e.Alike R e')
    {a b : Scope} (hab : a.Alike R b) :
    Agree Eq (Focused.Alike R) (c.select e a) (c.select e' b) := by
  have hroot : ∀ {node node' : Selection}, Selection.Alike R node node' →
      (Focused.ofRoot node).Alike R (.ofRoot node') := fun h => ⟨h, rfl⟩
  have hnested : ∀ {a b : Scope}, a.Alike R b → a.nested.Alike R b.nested := fun h =>
    ⟨h.current, h.defaultScalars, h.arguments, by simp [Scope.nested, h.depth]⟩
  have hinner : ∀ {a b : Scope}, a.Alike R b → a.inner.Alike R b.inner := fun h =>
    ⟨h.current, rfl, .none, by simp [Scope.inner, h.depth]⟩
  have helement : ∀ {a b : Scope} {source source' : Focused}, source.Alike R source' →
      a.Alike R b → Scope.Alike R { a with current := .element source.owner }
        { b with current := .element source'.owner } := fun hsource h =>
    ⟨congrArg Current.element hsource.owner, h.defaultScalars, h.arguments, h.depth⟩
  -- The check of the depth comes first in every case, and gives the same on both sides.
  induction he generalizing a b with
  | root =>
      rw [select, select, hab.depth]
      split
      · exact .error rfl
      · apply (Agree.refl (c.resolveType _)).bind
        rintro type _ rfl
        rw [agree_entryField hR type _ hab.arguments]
        apply (Agree.refl (c.entryField type _ b.arguments)).bind
        rintro field _ rfl
        exact (agree_fieldNode field hab).bind fun _ _ hnode => .ok (hroot hnode)
  | current =>
      rw [select, select, hab.depth, hab.current]
      split
      · exact .error rfl
      · split
        · exact .ok (hroot (.node (.same rfl)
            (Selection.Alike.refl_of_sourceFree (sourceFree_expansion _ _ _))))
        · exact .error rfl
  | @member target target' member htarget ih =>
      have howner : a.elementOwner? target = b.elementOwner? target' := by
        cases htarget <;> simp [Scope.elementOwner?, hab.current]
      rw [select, select, hab.depth, howner]
      split
      · exact .error rfl
      · split
        · apply (Agree.refl (c.resolveMember member _)).bind
          rintro field _ rfl
          exact (agree_fieldNode field hab).bind fun _ _ hnode => .ok (hroot hnode)
        · apply (ih (hinner hab)).bind
          intro source source' hsource
          rw [hsource.owner]
          apply (Agree.refl (c.resolveMember member _)).bind
          rintro field _ rfl
          exact (agree_fieldNode field hab).bind fun _ _ hnode =>
            .ok (hsource.attach (hroot hnode) true)
  | project _ _ ihSource ihSelector | projectMany _ _ ihSource ihSelector =>
      rw [select, select, hab.depth]
      split
      · exact .error rfl
      · apply (ihSource (hinner hab)).bind
        intro source source' hsource
        apply (ihSelector (helement hsource (hnested hab))).bind
        intro selected selected' hselected
        exact .ok (hsource.attach hselected true)
  | filter _ harguments ih =>
      rw [select, select, hab.depth]
      split
      · exact .error rfl
      · have hscope := hnested hab
        exact ih ⟨hscope.current, hscope.defaultScalars, .some harguments, hscope.depth⟩
  | including _ _ ihSource ihSelector =>
      rw [select, select, hab.depth]
      split
      · exact .error rfl
      · apply (ihSource (hnested hab)).bind
        intro source source' hsource
        rw [hsource.owner]
        apply (ihSelector ⟨rfl, rfl, .none, rfl⟩).bind
        intro selected selected' hselected
        exact .ok (hsource.attach hselected false)
  | cast _ ih =>
      rw [select, select, hab.depth]
      split
      · exact .error rfl
      · apply (ih (hnested hab)).bind
        intro source source' hsource
        dsimp only
        rw [hsource.head.label.type, hab.defaultScalars]
        apply (Agree.refl (c.resolveType _)).bind
        rintro target _ rfl
        split
        · exact .ok (hsource.attach (hroot (.node (.same rfl)
            (Selection.Alike.refl_of_sourceFree (sourceFree_expansion _ _ _)))) true)
        · exact .error rfl
  | withFragment _ _ ihSource ihSelection =>
      rw [select, select, hab.depth]
      split
      · exact .error rfl
      · apply (ihSource (hnested hab)).bind
        intro source source' hsource
        rw [hsource.owner]
        apply (Agree.refl (c.resolveType _)).bind
        rintro type _ rfl
        dsimp only
        split
        · exact .error rfl
        · split
          · exact .error rfl
          · apply (ihSelection ⟨rfl, rfl, .none, rfl⟩).bind
            intro definition definition' hdefinition
            have hattached := hsource.attach (hroot hdefinition.root) false
            have hlabel := hdefinition.root.label
            generalize definition.root.label = x at hlabel
            generalize definition'.root.label = y at hlabel
            cases hlabel with
            | field => exact .error rfl
            | same =>
                cases x with
                | fragment => exact .ok hattached
                | _ => exact .error rfl

end Compiler

/-! ## Binding -/

/-- Variables that are equal but for their values, for arguments of sources that correspond. -/
structure Variable.Alike (R : ArgumentSource → ArgumentSource → Prop) (v w : Variable) : Prop where
  name : v.name = w.name
  type : v.type = w.type
  argument : v.argument = w.argument
  source : ∃ x y, R x y ∧ v.source = x.identity ∧ w.source = y.identity

theorem Variable.Alike.standsFor (hR : Interchangeable R) {v w : Variable} (hvw : v.Alike R w)
    {x y : ArgumentSource} (hxy : R x y) (argument : String) :
    v.standsFor x argument = w.standsFor y argument := by
  rcases hvw.source with ⟨a, b, hab, hv, hw⟩
  have hsame : (a.identity == x.identity) = (b.identity == y.identity) := hR.sameAs hab hxy
  simp only [Variable.standsFor, hv, hw, hsame, hvw.argument]

/-- Lists of variables that are alike one by one. -/
abbrev DeclaredAlike (R : ArgumentSource → ArgumentSource → Prop) :
    List Variable → List Variable → Prop :=
  List.Forall₂ (Variable.Alike R)

theorem DeclaredAlike.find? {declared declared' : List Variable}
    (h : DeclaredAlike R declared declared') {p q : Variable → Bool}
    (hpq : ∀ v w, v.Alike R w → p v = q w) :
    Option.Rel (Variable.Alike R) (declared.find? p) (declared'.find? q) := by
  induction h with
  | nil => exact .none
  | @cons v w _ _ hvw _ ih =>
      rw [List.find?_cons, List.find?_cons, hpq v w hvw]
      cases q w with
      | true => exact .some hvw
      | false => exact ih

namespace Binder

/-- From variables that are alike, both computations fail for the same reason, or both give the
same result and variables that are alike. -/
def AgreesWith {α : Type} (R : ArgumentSource → ArgumentSource → Prop) (x y : Binder α) : Prop :=
  ∀ declared declared', DeclaredAlike R declared declared' →
    Agree Eq (fun p q => p.1 = q.1 ∧ DeclaredAlike R p.2 q.2) (x.run declared) (y.run declared')

variable {α β γ : Type}

namespace AgreesWith

theorem pure (a : α) : AgreesWith R (pure a : Binder α) (pure a) :=
  fun _ _ h => .ok ⟨rfl, h⟩

theorem throw (cause : CompileError) :
    AgreesWith R (throw cause : Binder α) (throw cause) :=
  fun _ _ _ => .error rfl

theorem bind {x y : Binder α} {f g : α → Binder β} (h : AgreesWith R x y)
    (hfg : ∀ a, AgreesWith R (f a) (g a)) : AgreesWith R (x >>= f) (y >>= g) := by
  intro declared declared' hdeclared
  rw [StateT.run_bind, StateT.run_bind]
  apply (h _ _ hdeclared).bind
  rintro ⟨a, next⟩ ⟨_, next'⟩ ⟨rfl, hnext⟩
  exact hfg a next next' hnext

theorem mapM {S : α → β → Prop} {f : α → Binder γ} {g : β → Binder γ} {xs : List α}
    {ys : List β} (h : List.Forall₂ S xs ys) (hfg : ∀ a b, S a b → AgreesWith R (f a) (g b)) :
    AgreesWith R (xs.mapM f) (ys.mapM g) := by
  induction h with
  | nil => exact .pure []
  | cons hab _ ih =>
      rw [List.mapM_cons, List.mapM_cons]
      exact (hfg _ _ hab).bind fun first => ih.bind fun rest => .pure (first :: rest)

end AgreesWith

end Binder

open Binder (AgreesWith)

/-- What binding an argument does to the variables: it finds one of them, or adds one. -/
theorem run_bindArgument (start : String) (source : ArgumentSource) (argument : Argument)
    (declared : List Variable) :
    (bindArgument start source argument).run declared =
      match declared.find? fun v => v.standsFor source argument.name with
      | some v => .ok (v.name, declared)
      | none =>
          match source.value argument.name with
          | none => .error (.bind (.noSuchArgument argument.name))
          | some value => .ok (start ++ toString declared.length, declared ++ [{
              name := start ++ toString declared.length, type := argument.type, value,
              source := source.identity, argument := argument.name }]) := by
  unfold bindArgument
  rw [StateT.run_bind]
  change (match declared.find? fun v => v.standsFor source argument.name with
      | some v => _
      | none => _ : Binder String).run declared = _
  cases declared.find? fun v => v.standsFor source argument.name with
  | some v => rfl
  | none => cases source.value argument.name <;> rfl

/-- An argument is found among the variables on both sides, or on none. Where it is new, both
sources have a value for it, or none has. -/
theorem agree_bindArgument (hR : Interchangeable R) (start : String) {x y : ArgumentSource}
    (hxy : R x y) (argument : Argument) :
    AgreesWith R (bindArgument start x argument) (bindArgument start y argument) := by
  intro declared declared' hdeclared
  have hfound := hdeclared.find? fun v w hvw => hvw.standsFor hR hxy argument.name
  have hvalue := hR.values hxy argument.name
  rw [run_bindArgument, run_bindArgument, ← hdeclared.length_eq]
  generalize declared.find? _ = v at hfound
  generalize declared'.find? _ = w at hfound
  cases hfound with
  | some hvw => exact .ok ⟨hvw.name, hdeclared⟩
  | none =>
      dsimp only
      cases hx : x.value argument.name with
      | none =>
          have hy : y.value argument.name = none := by simpa [hx] using hvalue
          rw [hy]
          exact .error rfl
      | some value =>
          obtain ⟨value', hy⟩ : ∃ value', y.value argument.name = some value' :=
            Option.isSome_iff_exists.1 (by simpa [hx] using hvalue.symm)
          rw [hy]
          refine .ok ⟨rfl, List.rel_append hdeclared (.cons ?_ .nil)⟩
          exact ⟨rfl, rfl, rfl, x, y, hxy, rfl, rfl⟩

theorem agree_bindArguments (hR : Interchangeable R) (start field : String)
    {x y : Option ArgumentSource} (hxy : Option.Rel R x y) (arguments : List Argument) :
    AgreesWith R (bindArguments start field x arguments)
      (bindArguments start field y arguments) := by
  unfold bindArguments
  split
  · exact .pure []
  · cases hxy with
    | none => exact .throw _
    | some hxy =>
        refine .mapM (List.forall₂_eq_eq_eq.symm ▸ rfl) ?_
        rintro argument _ rfl
        exact (agree_bindArgument hR start hxy argument).bind fun var => .pure _

theorem Label.Alike.printGroup? {a b : Label} (h : a.Alike R b) :
    a.printGroup? = b.printGroup? := by
  cases h <;> rfl

namespace Selection

variable {s t : Selection} {xs ys : List Selection}

/-- Children of one group are bound alike, if each child is. -/
theorem agree_bindGroup {start : String} (group : PrintGroup) (h : AllAlike R xs ys)
    (hbind : ∀ x ∈ xs, ∀ y, Alike R x y → AgreesWith R (bind start x) (bind start y)) :
    AgreesWith R (bindGroup start group xs) (bindGroup start group ys) := by
  induction h with
  | nil =>
      unfold bindGroup
      exact .pure []
  | @cons x y xs ys hxy _ ih =>
      have hrest := ih fun x hx => hbind x (List.mem_cons_of_mem _ hx)
      unfold bindGroup
      rw [hxy.label.printGroup?]
      split
      · exact (hbind x List.mem_cons_self y hxy).bind fun node =>
          hrest.bind fun nodes => .pure (node :: nodes)
      · exact hrest

theorem agree_bindChildren_of_forall {start : String} (h : AllAlike R xs ys)
    (hbind : ∀ x ∈ xs, ∀ y, Alike R x y → AgreesWith R (bind start x) (bind start y)) :
    AgreesWith R (bindChildren start xs) (bindChildren start ys) := by
  unfold bindChildren
  exact (agree_bindGroup .fields h hbind).bind fun _ =>
    (agree_bindGroup .spreads h hbind).bind fun _ =>
      (agree_bindGroup .subtypes h hbind).bind fun _ => .pure _

/-- Trees that are alike are printed as the same text. -/
theorem agree_bind (hR : Interchangeable R) (start : String) (s t : Selection)
    (hst : Alike R s t) : AgreesWith R (bind start s) (bind start t) := by
  induction s generalizing t with
  | node label children ih =>
      cases hst with
      | @node _ _ _ ys hlabel hchildren =>
          have hbelow : AgreesWith R (bindChildren start children) (bindChildren start ys) :=
            agree_bindChildren_of_forall hchildren fun x hx y hxy => ih x hx y hxy
          cases hlabel with
          | field hxy =>
              unfold bind
              exact (agree_bindArguments hR start _ (.some hxy) _).bind fun _ =>
                hbelow.bind fun _ => .pure _
          | same hnone =>
              cases label with
              | field name type arguments source =>
                  cases hnone
                  unfold bind
                  exact (agree_bindArguments hR start _ .none _).bind fun _ =>
                    hbelow.bind fun _ => .pure _
              | typename =>
                  unfold bind
                  exact hbelow.bind fun _ => .pure _
              | subtype =>
                  unfold bind
                  exact hbelow.bind fun _ => .pure _
              | spread =>
                  unfold bind
                  exact .pure _
              | fragment =>
                  unfold bind
                  exact .pure _

theorem agree_bindChildren (hR : Interchangeable R) (start : String) (h : AllAlike R xs ys) :
    AgreesWith R (bindChildren start xs) (bindChildren start ys) :=
  agree_bindChildren_of_forall h fun x _ y hxy => agree_bind hR start x y hxy

end Selection

theorem FragmentDefinition.agree_bind (hR : Interchangeable R) (start : String)
    {f g : FragmentDefinition} (hfg : f.Alike R g) :
    AgreesWith R (f.bind start) (g.bind start) := by
  unfold FragmentDefinition.bind
  rw [hfg.name, hfg.type]
  exact (Selection.agree_bindChildren hR start hfg.children).bind fun _ => .pure _

/-- Pruned trees that are alike have the same document, with variables that are alike. -/
theorem Pruned.agree_bind (hR : Interchangeable R) (start : String) {p q : Pruned}
    (hpq : p.Alike R q) :
    Agree Eq (fun a b => a.1 = b.1 ∧ DeclaredAlike R a.2 b.2) (p.bind start) (q.bind start) := by
  have hblocks := (Selection.agree_bind hR start p.root q.root hpq.root).bind fun root =>
    (AgreesWith.mapM hpq.fragments fun _ _ hfg =>
      FragmentDefinition.agree_bind hR start hfg).bind fun fragments =>
        .pure (root, fragments)
  unfold Pruned.bind
  apply (hblocks [] [] .nil).bind
  rintro ⟨⟨root, fragments⟩, bound⟩ ⟨_, bound'⟩ ⟨rfl, hbound⟩
  have hdeclared : (bound.map fun v => (v.name, v.type.expr)) =
      bound'.map fun v => (v.name, v.type.expr) := by
    have hpairs : List.Forall₂ (fun v w => (v.name, v.type.expr) = (w.name, w.type.expr))
        bound bound' := hbound.imp fun v w hvw => by rw [hvw.name, hvw.type]
    exact List.forall₂_eq_eq_eq ▸ List.forall₂_map_left_iff.2 (List.forall₂_map_right_iff.2 hpairs)
  exact .ok ⟨by simp only [hdeclared], hbound⟩

/-! ## Queries -/

/-- Queries with one text and one entry point. Their variables have the same names and types in
the same order, and may have other values. -/
structure CompiledQuery.SameText (p q : CompiledQuery) : Prop where
  document : p.document = q.document
  entryPoint : p.entryPoint = q.entryPoint
  entryType : p.entryType = q.entryType
  declared : p.declared.map (fun v => (v.name, v.type)) = q.declared.map fun v => (v.name, v.type)

/-- Expressions that differ in their sources only have queries of one text, or fail to compile for
one reason. -/
theorem Compiler.agree_compile {c : Compiler} (hR : Interchangeable R) {e e' : Expression}
    (he : e.Alike R e') :
    Agree Eq CompiledQuery.SameText (c.compile e) (c.compile e') := by
  have hstart : Scope.Alike R
      { current := .unbound, defaultScalars := c.configuration.defaultScalars,
        arguments := none, depth := 0 }
      { current := .unbound, defaultScalars := c.configuration.defaultScalars,
        arguments := none, depth := 0 } := ⟨rfl, rfl, .none, rfl⟩
  have htree : Agree Eq (Selection.Alike R) (c.tree e) (c.tree e') :=
    (agree_select hR he hstart).bind fun _ _ hselected => .ok hselected.root
  -- What is done with a tree that starts at a field: the field's label shows in the result.
  have hfield : ∀ {t t' : Selection} {name : String} {type : GraphType}
      {finish : Document × List Variable → Except CompileError CompiledQuery},
      Selection.Alike R t t' →
      (∀ content declared, finish (content, declared) =
        .ok { content, declared, entryPoint := name, entryType := type }) →
      Agree Eq CompiledQuery.SameText
        (do finish (← (← t.prune c.configuration.recursionLimit).bind
          c.configuration.variablePrefix))
        (do finish (← (← t'.prune c.configuration.recursionLimit).bind
          c.configuration.variablePrefix)) := by
    intro t t' name type finish ht hfinish
    apply (Selection.agree_prune hR c.configuration.recursionLimit ht).bind
    intro pruned pruned' hpruned
    apply (Pruned.agree_bind hR c.configuration.variablePrefix hpruned).bind
    rintro ⟨content, declared⟩ ⟨_, declared'⟩ ⟨rfl, hdeclared⟩
    have hpairs : List.Forall₂ (fun v w => (v.name, v.type) = (w.name, w.type))
        declared declared' := hdeclared.imp fun v w hvw => by rw [hvw.name, hvw.type]
    rw [hfinish, hfinish]
    exact .ok ⟨rfl, rfl, rfl,
      List.forall₂_eq_eq_eq ▸ List.forall₂_map_left_iff.2 (List.forall₂_map_right_iff.2 hpairs)⟩
  unfold compile
  apply htree.bind
  intro t t' ht
  have hlabel := ht.label
  generalize t.label = a at hlabel
  generalize t'.label = b at hlabel
  cases hlabel with
  | field => exact hfield ht fun _ _ => rfl
  | same =>
      cases a with
      | field => exact hfield ht fun _ _ => rfl
      | _ => exact .error rfl

namespace Compiler

/-- A source that is not `sizeSource`, with another value. It lists the one name twice. -/
def otherSizeSource : ArgumentSource :=
  .ofMembers 5 [("n", .string "\x7d other \x7b id"), ("n", .null)]

/-- Both fields of an item, with their arguments from a source. -/
def sizesFrom (source : ArgumentSource) : Expression :=
  .including
    (.including (.root "Item" none) (.filter (.member .current ⟨"Item", "small"⟩) source))
    (.filter (.member .current ⟨"Item", "large"⟩) source)

/-- The sizes of an item are asked for by one text, whatever they are. -/
theorem agree_compile_sizes :
    Interchangeable (fun x y => x = sizeSource ∧ y = otherSizeSource) ∧
      (sizesFrom sizeSource).Alike (fun x y => x = sizeSource ∧ y = otherSizeSource)
        (sizesFrom otherSizeSource) ∧
      itemsCompiler.compile (sizesFrom sizeSource) = .ok bothSizesQuery ∧
      Agree Eq CompiledQuery.SameText (itemsCompiler.compile (sizesFrom sizeSource))
        (itemsCompiler.compile (sizesFrom otherSizeSource)) := by
  have hR : Interchangeable (fun x y => x = sizeSource ∧ y = otherSizeSource) := by
    constructor
    · rintro _ _ _ _ ⟨rfl, rfl⟩ ⟨rfl, rfl⟩
      rfl
    · rintro _ _ ⟨rfl, rfl⟩ name
      simp [sizeSource, otherSizeSource, ArgumentSource.ofMembers]
    · rintro _ _ ⟨rfl, rfl⟩ name
      by_cases hname : "n" = name <;>
        simp [sizeSource, otherSizeSource, ArgumentSource.ofMembers, Json.lookup, hname]
  have halike : (sizesFrom sizeSource).Alike (fun x y => x = sizeSource ∧ y = otherSizeSource)
      (sizesFrom otherSizeSource) :=
    .including (.including .root (.filter (.member .current) ⟨rfl, rfl⟩))
      (.filter (.member .current) ⟨rfl, rfl⟩)
  exact ⟨hR, halike, compile_bothSizes, agree_compile hR halike⟩

end Compiler

end GraphQuery
