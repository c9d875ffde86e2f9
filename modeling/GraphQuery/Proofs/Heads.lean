import GraphQuery.Proofs.Compiler
import GraphQuery.Proofs.Selection.Positions

/-!
# Heads — the path to the head of a tree stays good

Steps address the head of a tree by the path of child positions to it. They only ever add a tree as
the last child of a head, so a path that was good once leads to the same node from then on, whether
the head moves on or stays, and also when the tree itself is added below the head of another one.

- `Label.canBeHead` : fields, subtypes and definitions of fragments
- `Selection.InBounds` : paths that ask no node for a child that it does not have
- `Focused.PartOf` : what later steps make of a tree
- `Focused.Keeps`, `Focused.Keeps.extend`, `Focused.Keeps.embed` : a head that is where it was,
  after each step
- `Focused.PartOf.keeps` : and after any number of them
- `Compiler.head_of_select` : the heads of compiled trees
-/

set_option autoImplicit false

namespace GraphQuery

/-- Nodes that later steps apply to. Discriminators and spreads are none. -/
def Label.canBeHead : Label → Bool
  | .field _ _ _ _ | .subtype _ | .fragment _ _ => true
  | .typename _ | .spread _ _ => false

namespace Selection

variable {root node added : Selection} {path position : List Nat} {front : List Selection}

/-- On its way, the path asks each node for the position of one of its children. -/
def InBounds (root : Selection) (path : List Nat) : Prop :=
  ∀ before i after, path = before ++ i :: after →
    ∃ node, root.descendant? before = some node ∧ i < node.children.length

theorem inBounds_of_descendant? (h : root.descendant? path = some node) : root.InBounds path := by
  rintro before i after rfl
  rw [descendant?_append] at h
  rcases Option.bind_eq_some_iff.1 h with ⟨inner, hinner, h⟩
  rcases descendant?_cons_eq_some_iff.1 h with ⟨child, hchild, -⟩
  exact ⟨inner, hinner, (List.getElem?_eq_some_iff.1 hchild).1⟩

/-- A node keeps its label and its first children when something is added outside of these. -/
theorem exists_front_of_modifyAt_push (hnode : root.descendant? position = some node)
    (hfront : front <+: node.children)
    (hpath : ∀ i rest, path = position ++ i :: rest → front.length ≤ i) (added : Selection) :
    ∃ new, (root.modifyAt (push added) path).descendant? position = some new ∧
      new.label = node.label ∧ front <+: new.children := by
  by_cases hin : position <+: path
  · rcases hin with ⟨rest, rfl⟩
    refine ⟨node.modifyAt (push added) rest, ?_, label_modifyAt_push added node rest, ?_⟩
    · rw [descendant?_modifyAt_append, hnode, Option.map_some]
    · cases rest with
      | nil =>
          rw [modifyAt, children_push]
          exact hfront.trans (List.prefix_append _ _)
      | cons i rest =>
          rw [children_modifyAt_cons, List.prefix_iff_eq_take, List.take_modify,
            ← List.prefix_iff_eq_take.1 hfront, List.modify_eq_self (hpath i rest rfl)]
  · exact ⟨node, descendant?_modifyAt_push_of_not_prefix hnode hin added, rfl, hfront⟩

end Selection

namespace Focused

variable {f g source added : Focused} {position : List Nat}

/-- A tree has become part of another one, with its root at a position there. Any number of trees
were added below the head, and what was there was added below the heads of others, and each time the
head moved to what was added or stayed. -/
inductive PartOf (f : Focused) : List Nat → Focused → Prop where
  | self : PartOf f [] f
  | extend {position : List Nat} {g added : Focused} (moveHead : Bool) : PartOf f position g →
      added.Headed → PartOf f position (g.attach added moveHead)
  | embed {position : List Nat} {g source : Focused} (moveHead : Bool) : PartOf f position g →
      source.Headed →
      PartOf f (source.path ++ source.head.children.length :: position) (source.attach g moveHead)

/-- The path to the head of a tree still leads there in the tree that it has become part of. The
head of that one is not in any of the children that were there already. -/
structure Keeps (f : Focused) (position : List Nat) (g : Focused) : Prop where
  headed : g.Headed
  node : ∃ node, g.root.descendant? (position ++ f.path) = some node ∧
    node.label = f.head.label ∧ f.head.children <+: node.children
  outside : ∀ i rest, g.path = position ++ f.path ++ i :: rest → f.head.children.length ≤ i

theorem keeps_self (hf : f.Headed) : f.Keeps [] f where
  headed := hf
  node := ⟨f.head, hf, rfl, List.prefix_rfl⟩
  outside := by
    intro i rest hpath
    simp at hpath

/-- A head that moves to what is added below it does not move into what was there. -/
theorem Keeps.outside_move (h : f.Keeps position g) (added : Focused) :
    ∀ i rest, (g.attach added true).path = position ++ f.path ++ i :: rest →
      f.head.children.length ≤ i := by
  intro i rest hpath
  have hpath : g.path ++ g.head.children.length :: added.path = position ++ f.path ++ i :: rest :=
    hpath
  rcases h.node with ⟨node, hnode, -, hfront⟩
  -- Where both heads are one, it has got its children since then.
  have hsame : g.path = position ++ f.path → f.head.children.length ≤ g.head.children.length := by
    intro heq
    rw [← heq, h.headed] at hnode
    cases hnode
    exact hfront.length_le
  rcases List.append_eq_append_iff.1 hpath with ⟨between, hdown, hrest⟩ | ⟨between, hup, hrest⟩
  · cases between with
    | nil =>
        obtain ⟨rfl, -⟩ := List.cons.inj hrest
        exact hsame (by simpa using hdown.symm)
    | cons j between =>
        obtain ⟨rfl, -⟩ := List.cons.inj hrest
        -- A child that is added only now is not on the way to the old head.
        rcases Selection.inBounds_of_descendant? hnode g.path _ between hdown with
          ⟨head, hhead, hbound⟩
        rw [h.headed] at hhead
        cases hhead
        exact absurd hbound (Nat.lt_irrefl _)
  · cases between with
    | nil =>
        obtain ⟨rfl, -⟩ := List.cons.inj hrest
        exact hsame (by simpa using hup)
    | cons j between =>
        obtain ⟨rfl, -⟩ := List.cons.inj hrest
        exact h.outside i between hup

/-- A tree that is added below the head. -/
theorem Keeps.extend (h : f.Keeps position g) (hadded : added.Headed) (moveHead : Bool) :
    f.Keeps position (g.attach added moveHead) where
  headed := h.headed.attach hadded moveHead
  node := by
    rcases h.node with ⟨node, hnode, hlabel, hfront⟩
    rcases Selection.exists_front_of_modifyAt_push hnode hfront h.outside added.root with
      ⟨new, hnew, hnewLabel, hnewFront⟩
    exact ⟨new, hnew, hnewLabel.trans hlabel, hnewFront⟩
  outside := by
    cases moveHead with
    | true => exact h.outside_move added
    | false => exact h.outside

/-- A tree below whose head all is added. -/
theorem Keeps.embed (h : f.Keeps position g) (hsource : source.Headed) (moveHead : Bool) :
    f.Keeps (source.path ++ source.head.children.length :: position)
      (source.attach g moveHead) where
  headed := hsource.attach h.headed moveHead
  node := by
    rcases h.node with ⟨node, hnode, hlabel, hfront⟩
    refine ⟨node, ?_, hlabel, hfront⟩
    rw [List.append_assoc, List.cons_append, descendant?_attach hsource, hnode]
  outside := by
    intro i rest hpath
    cases moveHead with
    | true =>
        have hpath : source.path ++ source.head.children.length :: g.path =
            source.path ++ source.head.children.length :: position ++ f.path ++ i :: rest := hpath
        refine h.outside i rest ?_
        simpa using hpath
    | false =>
        -- The head that stays is above what is added.
        have hlength := congrArg List.length
          (show source.path = source.path ++ source.head.children.length :: position ++ f.path ++
            i :: rest from hpath)
        simp only [List.length_append, List.length_cons] at hlength
        omega

/-- Whatever is added later, the path to the head leads where it led. -/
theorem PartOf.keeps (hf : f.Headed) (h : f.PartOf position g) : f.Keeps position g := by
  induction h with
  | self => exact keeps_self hf
  | extend moveHead _ hadded ih => exact ih.extend hadded moveHead
  | embed moveHead _ hsource ih => exact ih.embed hsource moveHead

end Focused

/-! ## Expressions -/

namespace Compiler

variable {c : Compiler} {e : Expression} {scope : Scope} {f : Focused}

theorem canBeHead_fieldNode {field : Field} {node : Selection}
    (h : c.fieldNode field scope = .ok node) : node.label.canBeHead = true := by
  rcases fieldNode_eq_ok h with ⟨source, -, -, rfl⟩
  rfl

/-- Heads move to fields, subtypes and the heads of selectors. -/
theorem Derives.canBeHead (h : c.Derives e scope f) : f.head.label.canBeHead = true := by
  induction h with
  | root _ _ hnode | elementMember _ _ hnode => exact canBeHead_fieldNode hnode
  | fragment _ => rfl
  | member hsource _ hnode _ =>
      rw [Focused.head_eq (Focused.descendant?_move hsource.headed (Focused.headed_ofRoot _))]
      exact canBeHead_fieldNode hnode
  | project hsource hselector _ ih | projectMany hsource hselector _ ih =>
      rw [Focused.head_eq (Focused.descendant?_move hsource.headed hselector.headed)]
      exact ih
  | filter _ ih => exact ih
  | including hsource _ _ _ ih _ | withFragment hsource _ _ _ _ _ _ _ ih _ =>
      rw [Focused.label_stay hsource.headed]
      exact ih
  | cast hsource _ _ _ =>
      rw [Focused.head_eq (Focused.descendant?_move hsource.headed (Focused.headed_ofRoot _))]
      rfl

/-- Whatever the schema, the scope and the expression are, the path of a compiled tree asks no node
for a child that it does not have. It leads to the head, which is a field, a subtype or the
definition of a fragment, and a change at its end is a change of the head. However many trees are
added below the head later, to whichever trees this one is added itself, and wherever the head goes
then, the paths to the heads are good too, and the old path still leads to the old head: a node of
its label that has its children, unchanged, in front of all others. -/
theorem head_of_select (h : c.select e scope = .ok f) :
    f.root.InBounds f.path ∧ f.root.descendant? f.path = some f.head ∧
      (∀ change, (f.root.modifyAt change f.path).descendant? f.path = some (change f.head)) ∧
      f.head.label.canBeHead = true ∧
      ∀ position g, f.PartOf position g →
        g.root.InBounds g.path ∧ g.root.InBounds (position ++ f.path) ∧
          ∃ node, g.root.descendant? (position ++ f.path) = some node ∧
            node.label = f.head.label ∧ f.head.children <+: node.children := by
  have hderives := derives_of_select h
  have hheaded : f.root.descendant? f.path = some f.head := hderives.headed
  refine ⟨Selection.inBounds_of_descendant? hheaded, hheaded, ?_, hderives.canBeHead, ?_⟩
  · intro change
    rw [Selection.descendant?_modifyAt, hheaded, Option.map_some]
  · intro position g hpart
    have hkeeps := hpart.keeps hheaded
    rcases hkeeps.node with ⟨node, hnode, hlabel, hfront⟩
    exact ⟨Selection.inBounds_of_descendant? hkeeps.headed,
      Selection.inBounds_of_descendant? hnode, node, hnode, hlabel, hfront⟩

/-- The books among the first media. -/
def firstBooks : Expression :=
  .filter (.cast (.root "Media" (some "media")) "Book") (.ofMembers 0 [("first", .null)])

/-- The head of the tree is the fifth child of the media, behind what these bring along. It is still
there when two trees are added, the first of which takes the head away. -/
theorem head_of_firstBooks :
    ∃ f, libraryCompiler.select firstBooks ⟨.unbound, true, none, 0⟩ = .ok f ∧ f.path = [4] ∧
      f.root.InBounds [4] ∧ f.head.label = .subtype (.named .object ⟨4, "Book"⟩) ∧
      ∀ added : Focused, added.Headed →
        ∃ node, ((f.attach added true).attach added false).root.descendant? [4] = some node ∧
          node.label = .subtype (.named .object ⟨4, "Book"⟩) ∧
          f.head.children <+: node.children := by
  obtain ⟨f, h⟩ : ∃ f, libraryCompiler.select firstBooks ⟨.unbound, true, none, 0⟩ = .ok f :=
    ⟨_, rfl⟩
  have hpath : f.path = [4] ∧ f.head.label = .subtype (.named .object ⟨4, "Book"⟩) := by
    cases h
    exact ⟨rfl, rfl⟩
  rcases hpath with ⟨hpath, hlabel⟩
  rcases head_of_select h with ⟨hbounds, -, -, -, hlater⟩
  refine ⟨f, h, hpath, hpath ▸ hbounds, hlabel, fun added hadded => ?_⟩
  rcases hlater [] _ ((Focused.PartOf.self.extend true hadded).extend false hadded) with
    ⟨-, -, node, hnode, hsame, hfront⟩
  refine ⟨node, ?_, hsame.trans hlabel, hfront⟩
  rw [List.nil_append, hpath] at hnode
  exact hnode

end Compiler

end GraphQuery
