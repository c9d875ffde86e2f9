import GraphQuery.Proofs.Selection.Placement

/-!
# Selection.Positions — where nodes are when a tree is added below a head

The position of a node is the path of child positions to it. What is added becomes the last child
of the head. So the nodes that are there stay where they are, and those of the added tree are found
behind the path to the head.

- `Selection.descendant?_cons_eq_some_iff` : positions below a child
- `Selection.Grown` : a node, or what it is after a tree was added below one of its nodes
- `Selection.descendant?_modifyAt_push`, `Selection.descendant?_modifyAt_push_of_not_prefix` : a
  node that is there keeps its position, and is not changed unless the head is in it
- `Selection.descendant?_eq_some_of_modifyAt_push` : every node was there or is of the added tree
- `Focused.descendant?_attach_left`, `Focused.descendant?_attach_eq_some` : both for a head
-/

set_option autoImplicit false

namespace GraphQuery

namespace Selection

variable {root node old new added head : Selection} {path position : List Nat}

theorem descendant?_cons_eq_some_iff {root : Selection} {i : Nat} :
    root.descendant? (i :: position) = some node ↔
      ∃ child, root.children[i]? = some child ∧ child.descendant? position = some node := by
  rcases root with ⟨label, children⟩
  rw [descendant?, Selection.children]
  cases children[i]? with
  | none => simp
  | some child => simp

theorem children_modifyAt_cons (f : Selection → Selection) (root : Selection) (i : Nat)
    (path : List Nat) :
    (root.modifyAt f (i :: path)).children = root.children.modify i (modifyAt f path) := by
  rcases root with ⟨label, children⟩
  rfl

/-- A node, or what it is after a tree was added below one of the nodes in it. -/
def Grown (added old new : Selection) : Prop :=
  new = old ∨ ∃ path, new = old.modifyAt (push added) path

theorem Grown.label (h : Grown added old new) : new.label = old.label := by
  rcases h with rfl | ⟨path, rfl⟩
  · rfl
  · exact label_modifyAt_push added old path

/-- What is added below a head that is not in a node leaves the node as it is. -/
theorem descendant?_modifyAt_push_of_not_prefix (h : root.descendant? position = some old)
    (hpath : ¬ position <+: path) (added : Selection) :
    (root.modifyAt (push added) path).descendant? position = some old := by
  -- Induction on the path to the head, which the position follows as far as they agree.
  induction path generalizing root position with
  | nil =>
      cases position with
      | nil => exact absurd List.nil_prefix hpath
      | cons i position =>
          rcases descendant?_cons_eq_some_iff.1 h with ⟨child, hchild, hold⟩
          refine descendant?_cons_eq_some_iff.2 ⟨child, ?_, hold⟩
          rw [modifyAt, children_push, List.getElem?_append_left]
          · exact hchild
          · exact (List.getElem?_eq_some_iff.1 hchild).1
  | cons j path ih =>
      cases position with
      | nil => exact absurd List.nil_prefix hpath
      | cons i position =>
          rcases descendant?_cons_eq_some_iff.1 h with ⟨child, hchild, hold⟩
          by_cases hij : i = j
          · subst hij
            have hdeeper : ¬ position <+: path := fun hprefix =>
              hpath (List.cons_prefix_cons.2 ⟨rfl, hprefix⟩)
            refine descendant?_cons_eq_some_iff.2 ⟨_, ?_, ih hold hdeeper⟩
            rw [children_modifyAt_cons, List.getElem?_modify_eq, hchild]
            rfl
          · refine descendant?_cons_eq_some_iff.2 ⟨child, ?_, hold⟩
            rw [children_modifyAt_cons, List.getElem?_modify_ne _ _ (Ne.symm hij)]
            exact hchild

/-- The nodes that are there keep their positions. -/
theorem descendant?_modifyAt_push (h : root.descendant? position = some old) (added : Selection)
    (path : List Nat) :
    ∃ new, (root.modifyAt (push added) path).descendant? position = some new ∧
      Grown added old new := by
  by_cases hpath : position <+: path
  · rcases hpath with ⟨rest, rfl⟩
    refine ⟨old.modifyAt (push added) rest, ?_, .inr ⟨rest, rfl⟩⟩
    rw [descendant?_modifyAt_append, h, Option.map_some]
  · exact ⟨old, descendant?_modifyAt_push_of_not_prefix h hpath added, .inl rfl⟩

/-- A node of the tree afterwards was there with its label, or it is one of those added. -/
theorem descendant?_eq_some_of_modifyAt_push (hhead : root.descendant? path = some head)
    (h : (root.modifyAt (push added) path).descendant? position = some node) :
    (∃ old, root.descendant? position = some old ∧ node.label = old.label) ∨
      ∃ rest, position = path ++ head.children.length :: rest ∧
        added.descendant? rest = some node := by
  induction path generalizing root position with
  | nil =>
      cases hhead
      cases position with
      | nil =>
          cases h
          exact .inl ⟨_, rfl, label_push added _⟩
      | cons i position =>
          rcases descendant?_cons_eq_some_iff.1 h with ⟨child, hchild, hnode⟩
          rw [modifyAt, children_push, List.getElem?_append] at hchild
          split at hchild
          · exact .inl ⟨node, descendant?_cons_eq_some_iff.2 ⟨child, hchild, hnode⟩, rfl⟩
          · next hlast =>
              -- Behind the children that were there is nothing but what was added.
              rw [List.getElem?_singleton] at hchild
              split at hchild
              · next hzero =>
                  cases hchild
                  obtain rfl : i = head.children.length := by omega
                  exact .inr ⟨position, rfl, hnode⟩
              · cases hchild
  | cons j path ih =>
      rcases descendant?_cons_eq_some_iff.1 hhead with ⟨inner, hinner, hhead⟩
      cases position with
      | nil =>
          cases h
          exact .inl ⟨_, rfl, label_modifyAt_push added _ (j :: path)⟩
      | cons i position =>
          rcases descendant?_cons_eq_some_iff.1 h with ⟨child, hchild, hnode⟩
          rw [children_modifyAt_cons] at hchild
          by_cases hji : j = i
          · subst hji
            rw [List.getElem?_modify_eq, hinner] at hchild
            cases hchild
            rcases ih hhead hnode with ⟨old, hold, hlabel⟩ | ⟨rest, rfl, hrest⟩
            · exact .inl ⟨old, descendant?_cons_eq_some_iff.2 ⟨inner, hinner, hold⟩, hlabel⟩
            · exact .inr ⟨rest, rfl, hrest⟩
          · rw [List.getElem?_modify_ne _ _ hji] at hchild
            exact .inl ⟨node, descendant?_cons_eq_some_iff.2 ⟨child, hchild, hnode⟩, rfl⟩

end Selection

namespace Focused

variable {f g : Focused} {position : List Nat} {node old : Selection}

/-- The nodes of the tree before stay where they are. -/
theorem descendant?_attach_left (h : f.root.descendant? position = some old) (g : Focused)
    (moveHead : Bool) :
    ∃ new, (f.attach g moveHead).root.descendant? position = some new ∧
      Selection.Grown g.root old new :=
  Selection.descendant?_modifyAt_push h g.root f.path

theorem descendant?_attach_eq_some (hf : f.Headed) {moveHead : Bool}
    (h : (f.attach g moveHead).root.descendant? position = some node) :
    (∃ old, f.root.descendant? position = some old ∧ node.label = old.label) ∨
      ∃ rest, position = f.path ++ f.head.children.length :: rest ∧
        g.root.descendant? rest = some node :=
  Selection.descendant?_eq_some_of_modifyAt_push hf h

end Focused

end GraphQuery
