import GraphQuery.Proofs.Document.Binding
import GraphQuery.Proofs.Keyed
import GraphQuery.Proofs.Selection.Passes

/-!
# Document.Uses — variables where a document uses them

Binding goes through a tree as its document is read, from top to bottom, and takes one step for
each argument on the way: it finds the variable of the argument, or declares it. What the steps
keep is what holds of the variables in the end.

- `Passing`, `Pruned.passings` : the arguments of a tree in the order in which they are printed
- `Selection.Occurs` : where in a tree an argument is passed
- `Document.uses` : the variables of a document in the order in which it is read
- `Bound` : the steps of binding, one for each argument
- `Pruned.bound_of_bind` : binding a tree takes these steps
- `Bound.regular`, `Bound.uses_passed`, `Bound.firstUse`, `Bound.inOrder` : what the steps keep
- `Bound.exists_declaredBy`, `Bound.var_eq_iff` : which variable stands for an argument
-/

set_option autoImplicit false

namespace GraphQuery

/-- An argument that is passed to a field, where the field is selected from a type, and the source
that its value is read from. -/
structure Passing where
  owner : TypeRef
  field : String
  argument : Argument
  source : ArgumentSource

/-- Passings that have this in common share a variable. -/
def Passing.key (p : Passing) : Nat × String := (p.source.identity, p.argument.name)

/-- What the variable stands for. -/
def Variable.key (v : Variable) : Nat × String := (v.source, v.argument)

theorem Variable.standsFor_iff {v : Variable} {p : Passing} :
    v.standsFor p.source p.argument.name = true ↔ v.key = p.key := by
  simp [Variable.standsFor, Variable.key, Passing.key]

/-- The arguments that a node itself passes. -/
def Label.passings (owner : TypeRef) : Label → List Passing
  | .field name _ arguments (some source) =>
      arguments.map fun argument => ⟨owner, name, argument, source⟩
  | _ => []

namespace Selection

mutual

/-- The arguments that are passed by a node which is selected from a type, and below it. The groups
of children follow each other as they are printed. -/
def passings (owner : TypeRef) : Selection → List Passing
  | .node (.spread _ _) _ | .node (.fragment _ _) _ => []
  | .node label children =>
      label.passings owner ++ (passingsOf label.type.typeRef .fields children ++
        passingsOf label.type.typeRef .spreads children ++
        passingsOf label.type.typeRef .subtypes children)

def passingsOf (owner : TypeRef) (group : PrintGroup) : List Selection → List Passing
  | [] => []
  | child :: rest =>
      if child.label.printGroup? = some group then
        passings owner child ++ passingsOf owner group rest
      else passingsOf owner group rest

end

/-- The arguments that are passed below a node of a type. -/
def passingsBelow (owner : TypeRef) (children : List Selection) : List Passing :=
  passingsOf owner .fields children ++ passingsOf owner .spreads children ++
    passingsOf owner .subtypes children

end Selection

/-- The arguments that are passed in an operation on a type and in the fragments after it. -/
def Pruned.passings (query : TypeRef) (pruned : Pruned) : List Passing :=
  pruned.root.passings query ++ pruned.fragments.flatMap fun fragment =>
    Selection.passingsBelow fragment.type.typeRef fragment.children

/-- A variable where it is printed: behind an argument of a field. -/
structure Use where
  field : String
  argument : String
  var : String
  deriving DecidableEq, Repr

namespace DocumentNode

mutual

/-- The variables of a node and of those below it, from top to bottom. -/
def uses : DocumentNode → List Use
  | .field name arguments children =>
      arguments.map (fun argument => ⟨name, argument.1, argument.2⟩) ++ usesAll children
  | .spread _ => []
  | .subtype _ children => usesAll children

def usesAll : List DocumentNode → List Use
  | [] => []
  | node :: rest => uses node ++ usesAll rest

end

theorem usesAll_append (xs ys : List DocumentNode) :
    usesAll (xs ++ ys) = usesAll xs ++ usesAll ys := by
  induction xs with
  | nil => rfl
  | cons x xs ih => simp [usesAll, ih]

end DocumentNode

/-- The operation comes first, and then the fragments. -/
def Document.uses (document : Document) : List Use :=
  document.root.uses ++ document.fragments.flatMap fun fragment =>
    DocumentNode.usesAll fragment.children

/-! ## Where arguments are passed -/

theorem Label.mem_passings {owner : TypeRef} {label : Label} {p : Passing}
    (h : p ∈ label.passings owner) :
    p.owner = owner ∧ ∃ type arguments, label = .field p.field type arguments (some p.source) ∧
      p.argument ∈ arguments := by
  unfold Label.passings at h
  split at h
  · rcases List.mem_map.1 h with ⟨argument, hmem, rfl⟩
    exact ⟨rfl, _, _, rfl, hmem⟩
  · cases h

namespace Selection

/-- A label in a tree, with the type that its node is selected from. -/
inductive Occurs : TypeRef → Selection → TypeRef → Label → Prop where
  | here {owner : TypeRef} {node : Selection} : Occurs owner node owner node.label
  | deeper {owner found : TypeRef} {node child : Selection} {label : Label} :
      child ∈ node.children → Occurs node.label.type.typeRef child found label →
      Occurs owner node found label

variable {owner : TypeRef} {p : Passing}

theorem mem_passingsOf {group : PrintGroup} {children : List Selection}
    (h : p ∈ passingsOf owner group children) : ∃ child ∈ children, p ∈ child.passings owner := by
  induction children with
  | nil =>
      rw [passingsOf] at h
      cases h
  | cons child rest ih =>
      have hrest : p ∈ passingsOf owner group rest →
          ∃ c ∈ child :: rest, p ∈ c.passings owner := by
        intro hmem
        rcases ih hmem with ⟨c, hc, hp⟩
        exact ⟨c, List.mem_cons_of_mem _ hc, hp⟩
      rw [passingsOf] at h
      split at h
      · rcases List.mem_append.1 h with h | h
        · exact ⟨child, List.mem_cons_self, h⟩
        · exact hrest h
      · exact hrest h

theorem mem_passingsBelow {children : List Selection} (h : p ∈ passingsBelow owner children) :
    ∃ child ∈ children, p ∈ child.passings owner := by
  rw [passingsBelow] at h
  rcases List.mem_append.1 h with h | h
  · rcases List.mem_append.1 h with h | h <;> exact mem_passingsOf h
  · exact mem_passingsOf h

/-- An argument is passed where a field occurs that takes it. -/
theorem occurs_of_mem_passings {node : Selection} (h : p ∈ node.passings owner) :
    ∃ label, Occurs owner node p.owner label ∧ p ∈ label.passings p.owner := by
  induction node generalizing owner with
  | node label children ih =>
      have hcases : p ∈ label.passings owner ∨ p ∈ passingsBelow label.type.typeRef children := by
        cases label <;> simp_all [passings, passingsBelow]
      rcases hcases with hown | hbelow
      · rcases Label.mem_passings hown with ⟨rfl, -⟩
        exact ⟨label, .here, hown⟩
      · rcases mem_passingsBelow hbelow with ⟨child, hchild, hp⟩
        rcases ih child hchild hp with ⟨found, hfound, hmem⟩
        exact ⟨found, .deeper hchild hfound, hmem⟩

end Selection

theorem Pruned.occurs_of_mem_passings {pruned : Pruned} {query : TypeRef} {p : Passing}
    (h : p ∈ pruned.passings query) :
    ∃ label, p ∈ label.passings p.owner ∧
      (Selection.Occurs query pruned.root p.owner label ∨
        ∃ f ∈ pruned.fragments, ∃ child ∈ f.children,
          Selection.Occurs f.type.typeRef child p.owner label) := by
  rcases List.mem_append.1 h with h | h
  · rcases Selection.occurs_of_mem_passings h with ⟨label, hlabel, hp⟩
    exact ⟨label, hp, .inl hlabel⟩
  · rcases List.mem_flatMap.1 h with ⟨f, hf, h⟩
    rcases Selection.mem_passingsBelow h with ⟨child, hchild, h⟩
    rcases Selection.occurs_of_mem_passings h with ⟨label, hlabel, hp⟩
    exact ⟨label, hp, .inr ⟨f, hf, child, hchild, hlabel⟩⟩

/-! ## Steps -/

/-- Arguments are bound one after the other: from the variables before, with what each of them
uses, to the variables after. -/
inductive Bound (start : String) :
    List Variable → List Passing → List Use → List Variable → Prop where
  | nil {declared : List Variable} : Bound start declared [] [] declared
  | cons {declared next last : List Variable} {p : Passing} {passings : List Passing}
      {v : String} {uses : List Use} :
      (bindArgument start p.source p.argument).run declared = .ok (v, next) →
      Bound start next passings uses last →
      Bound start declared (p :: passings) (⟨p.field, p.argument.name, v⟩ :: uses) last

theorem Bound.append {start : String} {declared next last : List Variable}
    {ps qs : List Passing} {us ws : List Use} (h : Bound start declared ps us next)
    (hrest : Bound start next qs ws last) :
    Bound start declared (ps ++ qs) (us ++ ws) last := by
  induction h with
  | nil => exact hrest
  | cons hstep _ ih => exact .cons hstep (ih hrest)

/-! ## Trees -/

namespace Selection

open DocumentNode (usesAll usesAll_append)

variable {start : String} {declared last : List Variable}

theorem bound_of_mapM {owner : TypeRef} {field : String} {source : ArgumentSource}
    {arguments : List Argument} {printed : List (String × String)}
    (h : (arguments.mapM fun argument => (do
      return (argument.name, ← bindArgument start source argument) :
        Binder (String × String))).run declared = .ok (printed, last)) :
    Bound start declared (arguments.map fun argument => ⟨owner, field, argument, source⟩)
      (printed.map fun argument => ⟨field, argument.1, argument.2⟩) last := by
  induction arguments generalizing declared printed with
  | nil =>
      rcases Binder.run_pure_eq_ok h with ⟨rfl, rfl⟩
      exact .nil
  | cons argument rest ih =>
      rw [List.mapM_cons] at h
      rcases Binder.run_bind_eq_ok h with ⟨first, next, hfirst, h⟩
      rcases Binder.run_bind_eq_ok hfirst with ⟨v, mid, hv, hfirst⟩
      rcases Binder.run_pure_eq_ok hfirst with ⟨rfl, rfl⟩
      rcases Binder.run_bind_eq_ok h with ⟨others, final, hothers, h⟩
      rcases Binder.run_pure_eq_ok h with ⟨rfl, rfl⟩
      exact .cons hv (ih hothers)

theorem bound_of_bindArguments {owner : TypeRef} {field : String} {type : GraphType}
    {source : Option ArgumentSource} {arguments : List Argument}
    {printed : List (String × String)}
    (h : (bindArguments start field source arguments).run declared = .ok (printed, last)) :
    Bound start declared (Label.passings owner (.field field type arguments source))
      (printed.map fun argument => ⟨field, argument.1, argument.2⟩) last := by
  unfold bindArguments at h
  split at h
  · next hnone =>
      obtain rfl : arguments = [] := List.isEmpty_iff.1 hnone
      rcases Binder.run_pure_eq_ok h with ⟨rfl, rfl⟩
      cases source <;> exact .nil
  · split at h
    · cases h
    · exact bound_of_mapM h

/-- Binding a node takes the steps of the arguments at and below it. -/
def BindsInSteps (start : String) (s : Selection) : Prop :=
  ∀ {owner : TypeRef} {declared last : List Variable} {printed : DocumentNode},
    (s.bind start).run declared = .ok (printed, last) →
      Bound start declared (s.passings owner) printed.uses last

theorem GroupBinds.bound {owner : TypeRef} {group : PrintGroup} {children : List Selection}
    {printed : List DocumentNode} (h : GroupBinds start group children declared printed last)
    (hall : ∀ child ∈ children, BindsInSteps start child) :
    Bound start declared (passingsOf owner group children) (usesAll printed) last := by
  induction h with
  | nil =>
      rw [passingsOf, usesAll]
      exact .nil
  | print hgroup hnode _ ih =>
      rcases List.forall_mem_cons.1 hall with ⟨hchild, hrest⟩
      rw [passingsOf, if_pos hgroup, usesAll]
      exact (hchild hnode).append (ih hrest)
  | skip hgroup _ ih =>
      rcases List.forall_mem_cons.1 hall with ⟨-, hrest⟩
      rw [passingsOf, if_neg hgroup]
      exact ih hrest

theorem bound_of_bindChildren {owner : TypeRef} {children : List Selection}
    {printed : List DocumentNode} (hall : ∀ child ∈ children, BindsInSteps start child)
    (h : (bindChildren start children).run declared = .ok (printed, last)) :
    Bound start declared (passingsBelow owner children) (usesAll printed) last := by
  rcases bindChildren_eq_ok h with ⟨_, _, _, _, _, hfields, hspreads, hsubtypes, rfl⟩
  rw [passingsBelow, usesAll_append, usesAll_append]
  exact ((hfields.bound hall).append (hspreads.bound hall)).append (hsubtypes.bound hall)

theorem bindsInSteps (start : String) (s : Selection) : BindsInSteps start s := by
  induction s with
  | node label children ih =>
      intro owner declared last printed h
      cases binds_of_bind h with
      | field hown hbelow =>
          rw [passings, DocumentNode.uses]
          · exact (bound_of_bindArguments hown).append (bound_of_bindChildren ih hbelow)
          all_goals simp
      | typename hbelow | subtype hbelow =>
          rw [passings, DocumentNode.uses]
          · exact bound_of_bindChildren ih hbelow
          all_goals simp
      | spread | fragment =>
          rw [passings, DocumentNode.uses]
          exact .nil

end Selection

theorem FragmentDefinition.AllBind.bound {start : String} {fragments : List FragmentDefinition}
    {printed : List FragmentBlock} {declared last : List Variable}
    (h : AllBind start fragments declared printed last) :
    Bound start declared
      (fragments.flatMap fun fragment =>
        Selection.passingsBelow fragment.type.typeRef fragment.children)
      (printed.flatMap fun block => DocumentNode.usesAll block.children) last := by
  induction h with
  | nil => exact .nil
  | cons hbelow _ ih =>
      exact (Selection.bound_of_bindChildren (fun child _ => Selection.bindsInSteps start child)
        hbelow).append ih

/-- Binding a pruned tree takes the steps of all its arguments, from no variables on. -/
theorem Pruned.bound_of_bind {start : String} {pruned : Pruned} {document : Document}
    {declared : List Variable} (h : pruned.bind start = .ok (document, declared))
    (query : TypeRef) :
    Bound start [] (pruned.passings query) document.uses declared ∧
      document.declared = declared.map fun v => (v.name, v.type.expr) := by
  rcases Pruned.bind_eq_ok h with ⟨next, hroot, hfragments, hdeclared⟩
  exact ⟨(Selection.bindsInSteps start pruned.root hroot).append hfragments.bound, hdeclared⟩

/-! ## What the steps keep -/

/-- Variables are numbered in the order of their declaration, and stand for different things. -/
structure Regular (start : String) (declared : List Variable) : Prop where
  numbered : declared.map Variable.name =
    (List.range declared.length).map fun i => start ++ toString i
  keys : (declared.map Variable.key).Nodup

theorem regular_nil (start : String) : Regular start [] :=
  ⟨rfl, List.nodup_nil⟩

theorem numbered_injective (start : String) :
    Function.Injective fun i : Nat => start ++ toString i := by
  intro i j h
  have hdigits : toString i = toString j := (String.append_right_inj start).1 h
  -- A number is read back from its digits.
  have hread := congrArg (fun digits => Nat.ofDigitChars 10 digits.toList 0) hdigits
  simpa using hread

theorem Regular.names {start : String} {declared : List Variable} (h : Regular start declared) :
    (declared.map Variable.name).Nodup := by
  rw [h.numbered]
  exact List.nodup_range.map (numbered_injective start)

/-- The next number is free. -/
theorem Regular.fresh {start : String} {declared : List Variable} (h : Regular start declared) :
    start ++ toString declared.length ∉ declared.map Variable.name := by
  rw [h.numbered, List.mem_map]
  rintro ⟨i, hi, heq⟩
  have hlt : i < declared.length := List.mem_range.1 hi
  have hsame : i = declared.length := numbered_injective start heq
  omega

/-- A variable with the type of an argument, and the value that its source has for it. -/
def Variable.declaredBy (v : Variable) (p : Passing) : Prop :=
  v.key = p.key ∧ v.type = p.argument.type ∧ p.source.value p.argument.name = some v.value

/-- A step finds the variable of an argument, or declares it. -/
theorem bindArgument_eq_ok {start : String} {p : Passing} {declared next : List Variable}
    {name : String}
    (h : (bindArgument start p.source p.argument).run declared = .ok (name, next)) :
    (∃ v ∈ declared, v.key = p.key ∧ v.name = name ∧ next = declared) ∨
      ∃ v : Variable, v.declaredBy p ∧ v.name = name ∧ v.name = start ++ toString declared.length ∧
        next = declared ++ [v] ∧ ∀ w ∈ declared, w.key ≠ p.key := by
  unfold bindArgument at h
  rcases Binder.run_bind_eq_ok h with ⟨found, same, hget, h⟩
  obtain ⟨rfl, rfl⟩ : declared = found ∧ declared = same := by
    cases hget
    exact ⟨rfl, rfl⟩
  split at h
  · next v hv =>
      rcases Binder.run_pure_eq_ok h with ⟨rfl, rfl⟩
      have hstands : v.standsFor p.source p.argument.name = true := by
        simpa using List.find?_some hv
      have hkey : v.key = p.key := Variable.standsFor_iff.1 hstands
      exact .inl ⟨v, List.mem_of_find?_eq_some hv, hkey, rfl, rfl⟩
  · next hnone =>
      split at h
      · cases h
      · next value hvalue =>
          cases h
          refine .inr ⟨_, ⟨rfl, rfl, hvalue⟩, rfl, rfl, rfl, ?_⟩
          intro w hw hkey
          have hnot := List.find?_eq_none.1 hnone w hw
          exact hnot (Variable.standsFor_iff.2 hkey)

namespace Bound

variable {start : String} {declared last : List Variable} {passings : List Passing}
  {uses : List Use}

/-- Variables stay. -/
theorem subset (h : Bound start declared passings uses last) : declared ⊆ last := by
  induction h with
  | nil => exact List.Subset.refl _
  | cons hstep _ ih =>
      rcases bindArgument_eq_ok hstep with ⟨v, -, -, -, rfl⟩ | ⟨v, -, -, -, rfl, -⟩
      · exact ih
      · exact List.Subset.trans (List.subset_append_left _ _) ih

theorem regular (h : Bound start declared passings uses last) (hd : Regular start declared) :
    Regular start last := by
  induction h with
  | nil => exact hd
  | cons hstep _ ih =>
      rcases bindArgument_eq_ok hstep with
        ⟨v, -, -, -, rfl⟩ | ⟨v, hv, -, hname, rfl, hnew⟩
      · exact ih hd
      · refine ih ⟨?_, ?_⟩
        · simp [hd.numbered, hname, List.range_succ]
        · rw [List.map_append, List.nodup_append]
          refine ⟨hd.keys, List.nodup_singleton _, ?_⟩
          intro a ha b hb hab
          rcases List.mem_map.1 ha with ⟨w, hw, rfl⟩
          rw [List.map_cons, List.map_nil, List.mem_singleton] at hb
          exact hnew w hw ((hab.trans hb).trans hv.1)

/-- Each use is that of a variable which stands for the argument. -/
theorem uses_passed (h : Bound start declared passings uses last) :
    List.Forall₂ (fun (u : Use) p => u.field = p.field ∧ u.argument = p.argument.name ∧
      ∃ v ∈ last, v.name = u.var ∧ v.key = p.key) uses passings := by
  induction h with
  | nil => exact .nil
  | cons hstep hrest ih =>
      refine .cons ⟨rfl, rfl, ?_⟩ ih
      rcases bindArgument_eq_ok hstep with
        ⟨v, hmem, hkey, hname, rfl⟩ | ⟨v, hv, hname, -, rfl, -⟩
      · exact ⟨v, hrest.subset hmem, hname, hkey⟩
      · exact ⟨v, hrest.subset (by simp), hname, hv.1⟩

/-- What is used for an argument is a variable that stands for it. -/
theorem variable_of_use (h : Bound start declared passings uses last) {i : Nat}
    {u : Use} {p : Passing} (hu : uses[i]? = some u) (hp : passings[i]? = some p) :
    ∃ v ∈ last, v.name = u.var ∧ v.key = p.key := by
  rcases Outcome.getElem?_right h.uses_passed hu with ⟨q, hq, -, -, hv⟩
  obtain rfl : q = p := Option.some.inj (hq.symm.trans hp)
  exact hv

/-- Every argument that is passed is printed with a variable. -/
theorem exists_use (h : Bound start declared passings uses last) {p : Passing}
    (hp : p ∈ passings) : ∃ i : Nat, ∃ u : Use, uses[i]? = some u ∧
      passings[i]? = some p := by
  rcases List.mem_iff_getElem?.1 hp with ⟨i, hi⟩
  rcases Outcome.getElem?_left h.uses_passed hi with ⟨u, hu, -⟩
  exact ⟨i, u, hu, hi⟩

/-- A variable that is there in the end was there before, or is declared by the first of the
arguments that it stands for. -/
theorem firstUse (h : Bound start declared passings uses last) (hd : Regular start declared)
    {v : Variable} (hv : v ∈ last) :
    v ∈ declared ∨ ∃ p, passings.find? (fun p => p.key == v.key) = some p ∧ v.declaredBy p := by
  induction h with
  | nil => exact .inl hv
  | @cons declared next last p rest name uses hstep hrest ih =>
      have hnext : Regular start next := (Bound.cons hstep .nil).regular hd
      have hlast := hrest.regular hnext
      -- The variable of the first argument is there after the first step.
      have hfirst : ∃ w ∈ next, w.key = p.key ∧ (w ∈ declared ∨ w.declaredBy p) := by
        rcases bindArgument_eq_ok hstep with ⟨w, hw, hkey, -, rfl⟩ | ⟨w, hw, -, -, rfl, -⟩
        · exact ⟨w, hw, hkey, .inl hw⟩
        · exact ⟨w, by simp, hw.1, .inr hw⟩
      rcases hfirst with ⟨w, hw, hkey, hcases⟩
      by_cases hsame : v.key = p.key
      · -- Only one variable stands for it, so this is the one.
        have hkeys : w.key = v.key := hkey.trans hsame.symm
        obtain rfl : w = v := List.inj_on_of_nodup_map hlast.keys (hrest.subset hw) hv hkeys
        rcases hcases with hold | hdeclared
        · exact .inl hold
        · exact .inr ⟨p, by simp [hsame], hdeclared⟩
      · have hskip : ∀ q, rest.find? (fun p => p.key == v.key) = some q →
            (p :: rest).find? (fun p => p.key == v.key) = some q := by
          intro q hq
          have hne : ¬ (p.key == v.key) = true := by simpa using fun h => hsame h.symm
          simpa [List.find?_cons, hne] using hq
        rcases ih hnext hv with hmid | ⟨q, hq, hdeclared⟩
        · rcases bindArgument_eq_ok hstep with ⟨-, -, -, -, rfl⟩ | ⟨x, hx, -, -, rfl, -⟩
          · exact .inl hmid
          · rcases List.mem_append.1 hmid with hold | hnew
            · exact .inl hold
            · exact absurd (List.mem_singleton.1 hnew ▸ hx.1) hsame
        · exact .inr ⟨q, hskip q hq, hdeclared⟩

/-- When binding starts without variables, one of those that there are in the end is used for an
argument, and that variable is declared by the first argument that it stands for. -/
theorem exists_declaredBy (h : Bound start [] passings uses last) {i : Nat} {u : Use} {p : Passing}
    (hu : uses[i]? = some u) (hp : passings[i]? = some p) :
    ∃ v ∈ last, v.name = u.var ∧
      ∃ q, passings.find? (fun q => q.key == p.key) = some q ∧ v.declaredBy q := by
  rcases h.variable_of_use hu hp with ⟨v, hv, hname, hkey⟩
  rcases h.firstUse (regular_nil start) hv with hnone | ⟨q, hq, hdeclared⟩
  · cases hnone
  · rw [hkey] at hq
    exact ⟨v, hv, hname, q, hq, hdeclared⟩

/-- Among declared variables, names and what they stand for determine each other. -/
theorem var_eq_iff (h : Bound start [] passings uses last) {i j : Nat} {u w : Use} {p q : Passing}
    (hu : uses[i]? = some u) (hp : passings[i]? = some p) (hw : uses[j]? = some w)
    (hq : passings[j]? = some q) : u.var = w.var ↔ p.key = q.key := by
  have hregular := h.regular (regular_nil start)
  rcases h.variable_of_use hu hp with ⟨v, hv, hvName, hvKey⟩
  rcases h.variable_of_use hw hq with ⟨x, hx, hxName, hxKey⟩
  rw [← hvName, ← hxName, ← hvKey, ← hxKey]
  constructor
  · intro hname
    rw [List.inj_on_of_nodup_map hregular.names hv hx hname]
  · intro hkeys
    rw [List.inj_on_of_nodup_map hregular.keys hv hx hkeys]

/-- Going through the uses in order and keeping each name once gives the variables in the order of
their declaration. -/
theorem inOrder (h : Bound start declared passings uses last) (hd : Regular start declared) :
    (uses.map Use.var).foldl (fun found x => Keyed.addNew x found)
      (declared.map Variable.name) = last.map Variable.name := by
  induction h with
  | nil => rfl
  | @cons declared next last p rest name uses hstep _ ih =>
      have hrest := ih ((Bound.cons hstep .nil).regular hd)
      have hfirst : Keyed.addNew name (declared.map Variable.name) = next.map Variable.name := by
        rcases bindArgument_eq_ok hstep with ⟨v, hv, -, rfl, rfl⟩ | ⟨v, -, rfl, hname, rfl, -⟩
        · exact if_pos (List.mem_map_of_mem hv)
        · have hfresh : v.name ∉ declared.map Variable.name := hname ▸ hd.fresh
          rw [Keyed.addNew, if_neg hfresh, List.map_append, List.map_singleton]
      rw [List.map_cons, List.foldl_cons, hfirst]
      exact hrest

end Bound

end GraphQuery
