import GraphQuery.Proofs.Compiler
import GraphQuery.Proofs.Selection.Reordering

/-!
# Reordering — the order of inclusions

An expression that includes the same in another order has a tree in another order. What is included
does not depend on how deep the expression nests, as long as the recursion limit allows for it.

- `Compiler.select_of_le` : the tree of an expression at less depth
- `Compiler.reordered_of_tree` : trees of expressions that include two things in either order
- `Compiler.prune_ignores_order` : pruning ignores the order of nodes, and so that of inclusions
-/

set_option autoImplicit false

namespace GraphQuery

namespace Selection

/-! ## Changes at the end of a path -/

theorem modifyAt_modifyAt (f g : Selection → Selection) (path : List Nat) (s : Selection) :
    (s.modifyAt f path).modifyAt g path = s.modifyAt (g ∘ f) path := by
  induction path generalizing s with
  | nil => rfl
  | cons i path ih =>
      rcases s with ⟨label, children⟩
      have hbelow : modifyAt g path ∘ modifyAt f path = modifyAt (g ∘ f) path := funext ih
      rw [modifyAt, modifyAt, modifyAt, List.modify_modify_eq, hbelow]

theorem forall₂_modify {R : Selection → Selection → Prop} {f g : Selection → Selection}
    (hR : ∀ s, R s s) (hfg : ∀ s, R (f s) (g s)) (i : Nat) (children : List Selection) :
    List.Forall₂ R (children.modify i f) (children.modify i g) := by
  induction children generalizing i with
  | nil =>
      rw [List.modify_nil, List.modify_nil]
      exact .nil
  | cons child rest ih =>
      cases i with
      | zero =>
          rw [List.modify_zero_cons, List.modify_zero_cons]
          exact .cons (hfg child) (List.forall₂_same.2 fun s _ => hR s)
      | succ i =>
          rw [List.modify_succ_cons, List.modify_succ_cons]
          exact .cons (hR child) (ih i)

/-- Where two changes lead to related nodes, so do they at the end of a path, for a relation that
nodes with related children are in. -/
theorem modifyAt_congr {R : Selection → Selection → Prop} {f g : Selection → Selection}
    (hnode : ∀ label xs ys, List.Forall₂ R xs ys → R (.node label xs) (.node label ys))
    (hfg : ∀ s, R (f s) (g s)) (path : List Nat) (s : Selection) :
    R (s.modifyAt f path) (s.modifyAt g path) := by
  have hrefl : ∀ s, R s s := by
    intro s
    induction s with
    | node label children ih => exact hnode label children children (List.forall₂_same.2 ih)
  induction path generalizing s with
  | nil => exact hfg s
  | cons i path ih =>
      rcases s with ⟨label, children⟩
      rw [modifyAt, modifyAt]
      exact hnode label _ _ (forall₂_modify hrefl ih i children)

theorem reordered_modifyAt {f g : Selection → Selection} (h : ∀ s, Reordered (f s) (g s))
    (path : List Nat) (s : Selection) : Reordered (s.modifyAt f path) (s.modifyAt g path) := by
  refine modifyAt_congr (fun label xs ys hxy => ?_) h path s
  exact .of_children (.refl label) ⟨ys, List.Perm.refl _, hxy⟩

/-- Two children are added in either order. -/
theorem reordered_push_push (a b s : Selection) :
    Reordered (push b (push a s)) (push a (push b s)) := by
  refine .of_children ?_ ?_
  · simp only [label_push]
    exact .refl _
  · simp only [children_push, List.append_assoc]
    refine ⟨_, List.perm_append_left_iff _ |>.2 (List.Perm.swap _ _ _), ?_⟩
    exact List.forall₂_same.2 fun node _ => .refl node

end Selection

namespace Compiler

variable {c : Compiler} {e a b : Expression} {scope : Scope} {f : Focused}

theorem elementOwner?_depth (scope : Scope) (depth : Nat) (target : Expression) :
    { scope with depth := depth }.elementOwner? target = scope.elementOwner? target := by
  cases target <;> rfl

/-- At less depth, the limit allows for whatever it allows for at more, and nothing else depends on
the depth. -/
theorem select_of_le {depth : Nat} (h : c.select e scope = .ok f) (hdepth : depth ≤ scope.depth) :
    c.select e { scope with depth := depth } = .ok f := by
  induction e generalizing scope f depth with
  | root domainType entryPoint | current =>
      rw [select] at h ⊢
      split at h
      · cases h
      · next hlimit =>
          rw [if_neg fun hless => hlimit (Nat.lt_of_lt_of_le hless hdepth)]
          exact h
  | member target member ih =>
      rw [select] at h ⊢
      split at h
      · cases h
      · next hlimit =>
          rw [if_neg fun hless => hlimit (Nat.lt_of_lt_of_le hless hdepth)]
          rw [elementOwner?_depth]
          split at h
          · exact h
          · rcases Outcome.bind_eq_ok_iff.1 h with ⟨source, hsource, h⟩
            have hshallow := ih hsource (Nat.succ_le_succ hdepth)
            exact Outcome.bind_eq_ok_iff.2 ⟨source, hshallow, h⟩
  | project e selector ihSource ihSelector | projectMany e selector ihSource ihSelector
  | including e selector ihSource ihSelector =>
      rw [select] at h ⊢
      split at h
      · cases h
      · next hlimit =>
          rw [if_neg fun hless => hlimit (Nat.lt_of_lt_of_le hless hdepth)]
          rcases Outcome.bind_eq_ok_iff.1 h with ⟨source, hsource, h⟩
          rcases Outcome.bind_eq_ok_iff.1 h with ⟨selected, hselected, h⟩
          have hshallow := ihSource hsource (Nat.succ_le_succ hdepth)
          refine Outcome.bind_eq_ok_iff.2 ⟨source, hshallow, ?_⟩
          have hselector := ihSelector hselected (Nat.succ_le_succ hdepth)
          exact Outcome.bind_eq_ok_iff.2 ⟨selected, hselector, h⟩
  | filter e arguments ih =>
      rw [select] at h ⊢
      split at h
      · cases h
      · next hlimit =>
          rw [if_neg fun hless => hlimit (Nat.lt_of_lt_of_le hless hdepth)]
          exact ih h (Nat.succ_le_succ hdepth)
  | cast e domainType ih =>
      rw [select] at h ⊢
      split at h
      · cases h
      · next hlimit =>
          rw [if_neg fun hless => hlimit (Nat.lt_of_lt_of_le hless hdepth)]
          rcases Outcome.bind_eq_ok_iff.1 h with ⟨source, hsource, h⟩
          have hshallow := ih hsource (Nat.succ_le_succ hdepth)
          exact Outcome.bind_eq_ok_iff.2 ⟨source, hshallow, h⟩
  | withFragment e name domainType selection ihSource ihSelection =>
      rw [select] at h ⊢
      split at h
      · cases h
      · next hlimit =>
          rw [if_neg fun hless => hlimit (Nat.lt_of_lt_of_le hless hdepth)]
          rcases Outcome.bind_eq_ok_iff.1 h with ⟨source, hsource, h⟩
          have hshallow := ihSource hsource (Nat.succ_le_succ hdepth)
          refine Outcome.bind_eq_ok_iff.2 ⟨source, hshallow, ?_⟩
          rcases Outcome.bind_eq_ok_iff.1 h with ⟨type, htype, h⟩
          refine Outcome.bind_eq_ok_iff.2 ⟨type, htype, ?_⟩
          dsimp only at h ⊢
          split at h
          · cases h
          · next hcomposite =>
              rw [if_neg hcomposite]
              split at h
              · cases h
              · next happlicable =>
                  rw [if_neg happlicable]
                  rcases Outcome.bind_eq_ok_iff.1 h with ⟨definition, hdefinition, h⟩
                  have hselection := ihSelection hdefinition (Nat.succ_le_succ hdepth)
                  exact Outcome.bind_eq_ok_iff.2 ⟨definition, hselection, h⟩

/-! ## Inclusions -/

/-- What a selector that is included starts from. -/
def inclusion (c : Compiler) (owner : TypeRef) (depth : Nat) : Scope where
  current := .element owner
  defaultScalars := c.configuration.defaultScalars
  arguments := none
  depth := depth

theorem including_eq_ok (h : c.select (.including e a) scope = .ok f) :
    ∃ source selected, c.select e scope.nested = .ok source ∧
      c.select a (c.inclusion source.owner (scope.depth + 1)) = .ok selected ∧
      f = source.attach selected false := by
  rw [select] at h
  split at h
  · cases h
  · rcases Outcome.bind_eq_ok_iff.1 h with ⟨source, hsource, h⟩
    rcases Outcome.bind_eq_ok_iff.1 h with ⟨selected, hselected, h⟩
    cases h
    exact ⟨source, selected, hsource, hselected, rfl⟩

/-- What is included twice goes below the same head, one behind the other. -/
theorem including_including_eq_ok (h : c.select (.including (.including e a) b) scope = .ok f) :
    ∃ source first second, c.select e scope.nested.nested = .ok source ∧
      c.select a (c.inclusion source.owner (scope.depth + 2)) = .ok first ∧
      c.select b (c.inclusion source.owner (scope.depth + 1)) = .ok second ∧
      f.root = source.root.modifyAt
        (Selection.push second.root ∘ Selection.push first.root) source.path := by
  rcases including_eq_ok h with ⟨mid, second, hmid, hsecond, rfl⟩
  rcases including_eq_ok hmid with ⟨source, first, hsource, hfirst, rfl⟩
  have hheaded : source.Headed := (derives_of_select hsource).headed
  have howner : (source.attach first false).owner = source.owner := by
    unfold Focused.owner
    rw [Focused.label_stay hheaded]
  rw [howner] at hsecond
  exact ⟨source, first, second, hsource, hfirst, hsecond, Selection.modifyAt_modifyAt _ _ _ _⟩

theorem reordered_of_select {f' : Focused}
    (h : c.select (.including (.including e a) b) scope = .ok f)
    (h' : c.select (.including (.including e b) a) scope = .ok f') : f.root.Reordered f'.root := by
  rcases including_including_eq_ok h with ⟨source, first, second, hsource, ha, hb, hroot⟩
  rcases including_including_eq_ok h' with ⟨source', second', first', hsource', hb', ha', hroot'⟩
  cases hsource.symm.trans hsource'
  -- Each of them is selected one level deeper in one of the two.
  cases (select_of_le ha (Nat.le_succ _)).symm.trans ha'
  cases (select_of_le hb' (Nat.le_succ _)).symm.trans hb
  rw [hroot, hroot']
  exact Selection.reordered_modifyAt (Selection.reordered_push_push _ _) _ _

theorem reordered_of_tree {tree other : Selection}
    (h : c.tree (.including (.including e a) b) = .ok tree)
    (h' : c.tree (.including (.including e b) a) = .ok other) : tree.Reordered other := by
  rcases Outcome.bind_eq_ok_iff.1 h with ⟨f, hf, h⟩
  rcases Outcome.bind_eq_ok_iff.1 h' with ⟨f', hf', h'⟩
  cases h
  cases h'
  exact reordered_of_select hf hf'

/-! ## Pruning -/

/-- Pruning does not depend on the order of nodes. On two typed trees in different orders it fails,
or gives queries that differ in the order of nodes and fragments only. So the queries of two
expressions that include the same in either order ask for the same paths. -/
theorem prune_ignores_order :
    (∀ (s : Schema) (owner : TypeRef) (tree other : Unpruned) (limit : Nat),
      Selection.Typed s owner tree.root → Selection.Typed s owner other.root →
      tree.root.Reordered other.root →
        Outcome.Agree (fun _ _ => True) Pruned.Reordered
          (tree.root.prune limit) (other.root.prune limit)) ∧
    ∀ (c : Compiler) (e a b : Expression) (tree other : Selection) (limit : Nat),
      c.tree (.including (.including e a) b) = .ok tree →
      c.tree (.including (.including e b) a) = .ok other →
        Outcome.Agree (fun _ _ => True)
          (fun p q => ∀ path, Selection.Selects c.schema p.fragments [p.root] path ↔
            Selection.Selects c.schema q.fragments [q.root] path)
          (tree.prune limit) (other.prune limit) := by
  refine ⟨?_, ?_⟩
  · intro s owner tree other limit htree hother h
    exact Selection.agree_prune_of_reordered h htree hother
  · intro c e a b tree other limit htree hother
    have hsimilar := Selection.similar_of_reordered (reordered_of_tree htree hother)
    exact (Selection.agree_prune_of_similar hsimilar limit).imp fun p q _ _ hpq => hpq.selects_iff

/-- The first media with two inclusions. -/
def mediaWith (first second : Expression) : Expression :=
  .including (.including (.filter (.root "Media" (some "media"))
    (.ofMembers 0 [("first", .null)])) first) second

def itsMaker : Expression := .member .current ⟨"Media", "maker"⟩

def itsNamedMaker : Expression := .withFragment itsMaker "Named" "Person" .current

/-- The makers are included with and without a fragment, in either order. -/
theorem prune_ignores_order_of_makers :
    ∃ tree other, libraryCompiler.tree (mediaWith itsMaker itsNamedMaker) = .ok tree ∧
      libraryCompiler.tree (mediaWith itsNamedMaker itsMaker) = .ok other ∧ tree.Reordered other ∧
        (tree.prune 8).isOk = true ∧
        Outcome.Agree (fun _ _ => True) Pruned.Reordered (tree.prune 8) (other.prune 8) ∧
        Outcome.Agree (fun _ _ => True)
          (fun p q => ∀ path, Selection.Selects libraryCompiler.schema p.fragments [p.root] path ↔
            Selection.Selects libraryCompiler.schema q.fragments [q.root] path)
          (tree.prune 8) (other.prune 8) := by
  obtain ⟨tree, htree⟩ : ∃ tree,
      libraryCompiler.tree (mediaWith itsMaker itsNamedMaker) = .ok tree := ⟨_, rfl⟩
  obtain ⟨other, hother⟩ : ∃ other,
      libraryCompiler.tree (mediaWith itsNamedMaker itsMaker) = .ok other := ⟨_, rfl⟩
  have hconsistent : libraryCompiler.schema.Consistent :=
    Declarations.consistent_of_build (d := libraryDeclarations) rfl
  have hmaker : itsMaker.StartsAt .element := .member .current
  have hnamed : itsNamedMaker.StartsAt .element := .withFragment hmaker .current
  have htyped := typed_of_tree hconsistent
    ⟨.query, .including (.including (.filter .root) hmaker) hnamed⟩ htree
  have hotherTyped := typed_of_tree hconsistent
    ⟨.query, .including (.including (.filter .root) hnamed) hmaker⟩ hother
  have hreordered := reordered_of_tree htree hother
  have hok : (tree.prune 8).isOk = true := by
    cases htree
    rfl
  have hpaths := prune_ignores_order.2 libraryCompiler _ _ _ tree other 8 htree hother
  rcases exists_unpruned htree with ⟨tree, rfl⟩
  rcases exists_unpruned hother with ⟨other, rfl⟩
  exact ⟨tree.root, other.root, htree, hother, hreordered, hok,
    prune_ignores_order.1 _ _ tree other 8 htyped hotherTyped hreordered, hpaths⟩

end Compiler

end GraphQuery
