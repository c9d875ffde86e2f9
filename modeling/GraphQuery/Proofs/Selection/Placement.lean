import GraphQuery.Proofs.Selection.Typing
import GraphQuery.Selection.Focused

/-!
# Selection.Placement — heads of trees that are put together

A step adds its tree below the head of the tree before it. The result is typed when the added tree
can be selected from the type of the head, and the head stays where its path leads.

- `Selection.descendant?_append`, `Selection.descendant?_modifyAt_append`,
  `Selection.descendant?_modifyAt` : paths in a changed tree
- `Selection.Typed.push` : a typed tree added at the end of a path
- `Focused.Headed`, `Focused.Headed.attach` : the path of a tree leads to its head
- `Focused.Placed` : a typed tree whose path leads to a head that selections can be put below
- `Focused.Placed.move`, `Focused.Placed.stay` : adding below the head keeps this
-/

set_option autoImplicit false

namespace GraphQuery

namespace Selection

/-! ## Paths -/

theorem descendant?_append (path rest : List Nat) (s : Selection) :
    s.descendant? (path ++ rest) = (s.descendant? path).bind (descendant? rest) := by
  induction path generalizing s with
  | nil => rfl
  | cons i path ih =>
      rcases s with ⟨label, children⟩
      rw [List.cons_append, descendant?, descendant?]
      cases children[i]? with
      | none => rfl
      | some child => exact ih child

/-- A change below a node changes the node. -/
theorem descendant?_modifyAt_append (f : Selection → Selection) (path rest : List Nat)
    (s : Selection) :
    (s.modifyAt f (path ++ rest)).descendant? path =
      (s.descendant? path).map (modifyAt f rest) := by
  induction path generalizing s with
  | nil => rfl
  | cons i path ih =>
      rcases s with ⟨label, children⟩
      rw [List.cons_append, modifyAt, descendant?, descendant?, List.getElem?_modify_eq]
      cases children[i]? with
      | none => rfl
      | some child => exact ih child

theorem descendant?_modifyAt (f : Selection → Selection) (path : List Nat) (s : Selection) :
    (s.modifyAt f path).descendant? path = (s.descendant? path).map f := by
  have happend := descendant?_modifyAt_append f path [] s
  rw [List.append_nil] at happend
  exact happend

theorem descendant?_push (child s : Selection) (path : List Nat) :
    (push child s).descendant? (s.children.length :: path) = child.descendant? path := by
  rcases s with ⟨label, children⟩
  simp [push, descendant?, Selection.children]

theorem label_push (child s : Selection) : (push child s).label = s.label := by
  rcases s with ⟨label, children⟩
  rfl

theorem children_push (child s : Selection) :
    (push child s).children = s.children ++ [child] := by
  rcases s with ⟨label, children⟩
  rfl

theorem label_modifyAt_push (added root : Selection) (path : List Nat) :
    (root.modifyAt (push added) path).label = root.label := by
  rcases root with ⟨label, children⟩
  cases path with
  | nil => rfl
  | cons i path => rfl

theorem mem_modify {f : Selection → Selection} {i : Nat} {children : List Selection}
    {node : Selection} (h : node ∈ children.modify i f) :
    node ∈ children ∨ ∃ child, children[i]? = some child ∧ node = f child := by
  rcases List.mem_iff_getElem?.1 h with ⟨j, hj⟩
  rw [List.getElem?_modify] at hj
  rcases Option.map_eq_some_iff.1 hj with ⟨child, hchild, rfl⟩
  by_cases hij : i = j
  · subst hij
    exact .inr ⟨child, hchild, by simp⟩
  · refine .inl ?_
    simpa [hij] using List.mem_of_getElem? hchild

/-! ## Adding a tree -/

variable {s : Schema} {owner : TypeRef}

theorem Typed.push {root node child : Selection} {path : List Nat} (h : Typed s owner root)
    (hnode : root.descendant? path = some node) (hopens : node.label.opens = true)
    (hchild : Typed s node.label.type.typeRef child) :
    Typed s owner (root.modifyAt (Selection.push child) path) := by
  -- Induction on the path: the nodes on it keep their labels, and their children but one.
  induction path generalizing owner root with
  | nil =>
      cases hnode
      rw [modifyAt]
      refine .of_children ?_ ?_ ?_
      · rw [label_push]
        exact h.fits
      · rw [label_push]
        intro _ _
        exact hopens
      · rw [label_push, children_push]
        intro node hnode
        rcases List.mem_append.1 hnode with hnode | hnode
        · exact h.childrenTyped node hnode
        · rw [List.mem_singleton.1 hnode]
          exact hchild
  | cons i path ih =>
      rcases root with ⟨label, children⟩
      rw [descendant?] at hnode
      split at hnode
      · next inner hinner =>
          have hmem : inner ∈ children := List.mem_of_getElem? hinner
          rw [modifyAt]
          refine .of_children h.fits (fun _ _ => h.opens hmem) ?_
          intro node hnodeMem
          rcases mem_modify hnodeMem with hold | ⟨found, hfound, rfl⟩
          · exact h.childrenTyped node hold
          · rw [hinner] at hfound
            cases hfound
            exact ih (h.childrenTyped inner hmem) hnode
      · cases hnode

end Selection

namespace Focused

variable {s : Schema} {owner : TypeRef} {f g : Focused}

theorem head_eq {node : Selection} (h : f.root.descendant? f.path = some node) :
    f.head = node := by
  unfold head
  rw [h]
  rfl

theorem label_attach (f g : Focused) (moveHead : Bool) :
    (f.attach g moveHead).root.label = f.root.label :=
  Selection.label_modifyAt_push _ _ _

/-- The path of a tree leads to its head. -/
def Headed (f : Focused) : Prop :=
  f.root.descendant? f.path = some f.head

/-- A path in the added tree goes on behind the path to the head and to its new last child. -/
theorem descendant?_attach (hf : f.Headed) (g : Focused) (moveHead : Bool) (path : List Nat) :
    (f.attach g moveHead).root.descendant? (f.path ++ f.head.children.length :: path) =
      g.root.descendant? path :=
  calc (f.attach g moveHead).root.descendant? (f.path ++ f.head.children.length :: path)
      = (f.root.modifyAt (Selection.push g.root) f.path).descendant?
          (f.path ++ f.head.children.length :: path) := rfl
    _ = ((f.root.descendant? f.path).map (Selection.push g.root)).bind
          (Selection.descendant? (f.head.children.length :: path)) := by
        rw [Selection.descendant?_append, Selection.descendant?_modifyAt]
    _ = (Selection.push g.root f.head).descendant? (f.head.children.length :: path) := by
        rw [hf, Option.map_some, Option.bind_some]
    _ = g.root.descendant? path := Selection.descendant?_push _ _ _

/-- The head moves to that of what is added below it. -/
theorem descendant?_move (hf : f.Headed) (hg : g.Headed) :
    (f.attach g true).root.descendant? (f.attach g true).path = some g.head :=
  (descendant?_attach hf g true g.path).trans hg

/-- The head stays, with one child more. -/
theorem descendant?_stay (hf : f.Headed) (g : Focused) :
    (f.attach g false).root.descendant? (f.attach g false).path =
      some (Selection.push g.root f.head) :=
  calc (f.attach g false).root.descendant? (f.attach g false).path
      = (f.root.modifyAt (Selection.push g.root) f.path).descendant? f.path := rfl
    _ = (f.root.descendant? f.path).map (Selection.push g.root) :=
        Selection.descendant?_modifyAt _ _ _
    _ = some (Selection.push g.root f.head) := by rw [hf, Option.map_some]

/-- A head that stays keeps its label. -/
theorem label_stay (hf : f.Headed) (g : Focused) :
    (f.attach g false).head.label = f.head.label := by
  rw [head_eq (descendant?_stay hf g), Selection.label_push]

theorem headed_ofRoot (root : Selection) : (ofRoot root).Headed := rfl

theorem Headed.of_descendant? {node : Selection} (h : f.root.descendant? f.path = some node) :
    f.Headed :=
  h.trans (congrArg some (head_eq h).symm)

/-- Whatever is added below the head, and wherever the head is afterwards, the path leads there. -/
theorem Headed.attach (hf : f.Headed) (hg : g.Headed) (moveHead : Bool) :
    (f.attach g moveHead).Headed := by
  cases moveHead with
  | true => exact .of_descendant? (descendant?_move hf hg)
  | false => exact .of_descendant? (descendant?_stay hf g)

/-- The tree can be selected from a type, and the path leads to its head: a node of a type that
the schema declares, which can be selected from unless that type is a leaf. -/
structure Placed (s : Schema) (owner : TypeRef) (f : Focused) : Prop where
  typed : Selection.Typed s owner f.root
  head : f.root.descendant? f.path = some f.head
  declared : s.Declares f.head.label.type
  opens : f.head.label.opens = f.head.label.type.isComposite

theorem Placed.ofRoot {root : Selection} (ht : Selection.Typed s owner root)
    (hdeclared : s.Declares root.label.type)
    (hopens : root.label.opens = root.label.type.isComposite) : (ofRoot root).Placed s owner where
  typed := ht
  head := headed_ofRoot root
  declared := hdeclared
  opens := hopens

/-- Below the head, which is then the head of what is added. -/
theorem Placed.move (hf : f.Placed s owner) (hopens : f.head.label.opens = true)
    (hg : g.Placed s f.owner) : (f.attach g true).Placed s owner := by
  have hpath := descendant?_move hf.head hg.head
  have hhead := head_eq hpath
  refine ⟨hf.typed.push hf.head hopens hg.typed, ?_, ?_, ?_⟩
  · rw [hhead]
    exact hpath
  · rw [hhead]
    exact hg.declared
  · rw [hhead]
    exact hg.opens

/-- Below the head, which stays the head. -/
theorem Placed.stay (hf : f.Placed s owner) (hopens : f.head.label.opens = true)
    (hg : Selection.Typed s f.owner g.root) : (f.attach g false).Placed s owner := by
  have hpath := descendant?_stay hf.head g
  have hhead := head_eq hpath
  refine ⟨hf.typed.push hf.head hopens hg, ?_, ?_, ?_⟩
  · rw [hhead]
    exact hpath
  · rw [hhead, Selection.label_push]
    exact hf.declared
  · rw [hhead, Selection.label_push]
    exact hf.opens

end Focused

end GraphQuery
