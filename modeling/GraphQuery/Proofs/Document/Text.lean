import GraphQuery.Document.Binding
import GraphQuery.Proofs.Document.Outline

/-!
# Document.Text — documents read off their text

Two documents with one text are one document: the text of a document tells its variables with their
types, the tree of the operation and the fragments in their order. All it takes is that names are
names of the language, so that no name looks like anything that is printed around it.

- `Name.append_separator_inj` : names, which end before other characters
- `TypeExpr.text_injective` : types with all their wrappers
- `DocumentNode.parenthesized_injective` : lists of arguments and of variables
- `DocumentNode.WellNamed`, `Document.WellNamed` : documents whose names are names of the language
- `DocumentNode.bare_eq_of_heading`, `DocumentNode.WellNamed.eq_of_outline` : nodes and trees
- `Document.eq_of_text` : documents
-/

set_option autoImplicit false

namespace GraphQuery

/-! ## Names -/

namespace Name

/-- The characters that no name holds. -/
def foreign (c : Char) : Bool := !isContinue c

theorem isContinue_of_isStart {c : Char} (h : isStart c = true) : isContinue c = true := by
  unfold isStart at h
  unfold isContinue
  rcases Bool.or_eq_true_iff.1 h with h | h
  · simp [Char.isAlphanum, h]
  · simp [h]

theorem unmarked_of_valid {name : String} (h : valid name = true) : Unmarked foreign name := by
  intro c hc
  unfold valid at h
  split at h
  · cases h
  · next first rest hname =>
      rcases Bool.and_eq_true_iff.1 h with ⟨hfirst, hrest⟩
      rw [hname] at hc
      have hcontinue : isContinue c = true := by
        rcases List.mem_cons.1 hc with rfl | hc
        · exact isContinue_of_isStart hfirst
        · exact List.all_eq_true.1 hrest c hc
      simp [foreign, hcontinue]

theorem not_mem_of_foreign {name : String} {c : Char} (h : valid name = true)
    (hc : foreign c = true) : c ∉ name.toList := by
  intro hmem
  rw [unmarked_of_valid h c hmem] at hc
  cases hc

/-- A name ends where the text behind it begins with another character. -/
theorem append_separator_inj {name other separator rest rest' : String} {c : Char} {cs : List Char}
    (hname : valid name = true) (hother : valid other = true)
    (hseparator : separator.toList = c :: cs) (hc : foreign c = true)
    (h : name ++ (separator ++ rest) = other ++ (separator ++ rest')) :
    name = other ∧ rest = rest' := by
  have hbegins : ∀ text, BeginsMarked foreign (separator ++ text) := fun text =>
    beginsMarked_of_cons (by rw [String.toList_append, hseparator, List.cons_append]) hc
  obtain ⟨hnames, hrests⟩ := append_inj_of_marks (unmarked_of_valid hname)
    (unmarked_of_valid hother) (hbegins rest) (hbegins rest') h
  exact ⟨hnames, (String.append_right_inj _).1 hrests⟩

theorem toList_ne_nil {name : String} (h : valid name = true) : name.toList ≠ [] := by
  intro hname
  simp [valid, hname] at h

end Name

namespace DocumentNode

/-- The characters that an item in parentheses leaves to what is around it. -/
def ending (c : Char) : Bool := c == ',' || Outline.layout c

theorem foreign_of_ending {c : Char} (h : ending c = true) : Name.foreign c = true := by
  have hcases : c = ',' ∨ c = '\n' ∨ c = '\x7b' := by
    simpa [ending, Outline.layout] using h
  rcases hcases with rfl | rfl | rfl <;> rfl

theorem unmarked_of_valid {name : String} (h : Name.valid name = true) : Unmarked ending name :=
  (Name.unmarked_of_valid h).mono fun _ => foreign_of_ending

theorem unmarked_layout {text : String} (h : Unmarked ending text) :
    Unmarked Outline.layout text :=
  h.mono fun _ hc => Bool.or_eq_true_iff.2 (.inr hc)

end DocumentNode

/-! ## Types -/

namespace TypeExpr

open DocumentNode (ending unmarked_of_valid)

theorem text_list_ne_named {item : TypeExpr} {other : String} (hname : Name.valid other = true) :
    (list item).text ≠ other := by
  rintro rfl
  exact Name.not_mem_of_foreign (c := '[') hname rfl (by simp [text])

theorem text_nonNull_ne_named {type : TypeExpr} {other : String}
    (hname : Name.valid other = true) : (nonNull type).text ≠ other := by
  rintro rfl
  exact Name.not_mem_of_foreign (c := '!') hname rfl (by simp [text])

theorem text_list_ne_nonNull {item type : TypeExpr} : (list item).text ≠ (nonNull type).text := by
  intro h
  have hlast := congrArg (fun text : String => text.toList.getLast?) h
  simp only [text, String.toList_append, List.getLast?_append] at hlast
  simp at hlast

/-- The outermost wrapper shows at the ends of the text. -/
theorem text_injective {a b : TypeExpr} (ha : Name.valid a.name = true)
    (hb : Name.valid b.name = true) (h : a.text = b.text) : a = b := by
  induction a generalizing b with
  | named own =>
      cases b with
      | named other => exact congrArg TypeExpr.named h
      | list item => exact absurd h.symm (text_list_ne_named ha)
      | nonNull type => exact absurd h.symm (text_nonNull_ne_named ha)
  | list item ih =>
      cases b with
      | named other => exact absurd h (text_list_ne_named hb)
      | list item' =>
          have hitems : item.text = item'.text :=
            (String.append_right_inj _).1 ((String.append_left_inj _).1 h)
          exact congrArg TypeExpr.list (ih ha hb hitems)
      | nonNull type => exact absurd h text_list_ne_nonNull
  | nonNull type ih =>
      cases b with
      | named other => exact absurd h (text_nonNull_ne_named hb)
      | list item => exact absurd h.symm text_list_ne_nonNull
      | nonNull type' =>
          have htypes : type.text = type'.text := (String.append_left_inj _).1 h
          exact congrArg TypeExpr.nonNull (ih ha hb htypes)

theorem unmarked_text {type : TypeExpr} (h : Name.valid type.name = true) :
    Unmarked ending type.text := by
  induction type with
  | named name => exact unmarked_of_valid h
  | list item ih =>
      have hopen : Unmarked ending "[" := by simp [Unmarked, ending, Outline.layout]
      have hclose : Unmarked ending "]" := by simp [Unmarked, ending, Outline.layout]
      exact (hopen.append (ih h)).append hclose
  | nonNull type ih =>
      have hmark : Unmarked ending "!" := by simp [Unmarked, ending, Outline.layout]
      exact (ih h).append hmark

end TypeExpr

/-! ## Lists -/

/-- A list is told by what its elements are mapped to, where the elements are. -/
theorem map_inj_of_mem {α β : Type} {f : α → β} {xs ys : List α}
    (hf : ∀ x ∈ xs, ∀ y ∈ ys, f x = f y → x = y) (h : xs.map f = ys.map f) : xs = ys := by
  induction xs generalizing ys with
  | nil => exact (List.map_eq_nil_iff.1 h.symm).symm
  | cons x xs ih =>
      cases ys with
      | nil => cases h
      | cons y ys =>
          rcases List.cons.inj h with ⟨hhead, htail⟩
          have hrest := ih (fun a ha b hb => hf a (List.mem_cons_of_mem _ ha) b
            (List.mem_cons_of_mem _ hb)) htail
          rw [hf x List.mem_cons_self y List.mem_cons_self hhead, hrest]

namespace DocumentNode

theorem unmarked_argumentText {argument : String × String}
    (h : Name.valid argument.1 = true ∧ Name.valid argument.2 = true) :
    Unmarked ending (argumentText argument) := by
  have hcolon : Unmarked ending ": $" := by simp [Unmarked, ending, Outline.layout]
  exact ((unmarked_of_valid h.1).append hcolon).append (unmarked_of_valid h.2)

theorem argumentText_injective {a b : String × String} (ha : Name.valid a.1 = true)
    (hb : Name.valid b.1 = true) (h : argumentText a = argumentText b) : a = b := by
  simp only [argumentText, String.append_assoc] at h
  obtain ⟨hname, hvar⟩ := Name.append_separator_inj ha hb rfl rfl h
  exact Prod.ext hname hvar

theorem unmarked_intercalate {mark : Char → Bool} {items : List String}
    (h : ∀ item ∈ items, Unmarked mark item) (hseparator : Unmarked mark ", ") :
    Unmarked mark (", ".intercalate items) := by
  induction items with
  | nil => simp [Unmarked]
  | cons x xs ih =>
      rcases List.forall_mem_cons.1 h with ⟨hx, hxs⟩
      cases xs with
      | nil => simpa using hx
      | cons y ys =>
          rw [String.intercalate_cons_cons]
          exact (hx.append hseparator).append (ih hxs)

/-- Where no item holds a comma, the items of a list end at the commas. -/
theorem intercalate_injective {x y : String} {xs ys : List String}
    (hxs : ∀ item ∈ x :: xs, Unmarked ending item)
    (hys : ∀ item ∈ y :: ys, Unmarked ending item)
    (h : ", ".intercalate (x :: xs) = ", ".intercalate (y :: ys)) : x :: xs = y :: ys := by
  have hcomma : ∀ {item front rest : String}, Unmarked ending item →
      item ≠ front ++ ", " ++ rest := by
    rintro item front rest hitem rfl
    exact absurd (hitem ',' (by simp)) (by decide)
  induction xs generalizing x y ys with
  | nil =>
      cases ys with
      | nil => simpa using h
      | cons z zs =>
          -- The only item of one list would hold the first comma of the other.
          rw [String.intercalate_singleton, String.intercalate_cons_cons] at h
          exact absurd h (hcomma (hxs x List.mem_cons_self))
  | cons w ws ih =>
      cases ys with
      | nil =>
          rw [String.intercalate_singleton, String.intercalate_cons_cons] at h
          exact absurd h.symm (hcomma (hys y List.mem_cons_self))
      | cons z zs =>
          rcases List.forall_mem_cons.1 hxs with ⟨hx, hws⟩
          rcases List.forall_mem_cons.1 hys with ⟨hy, hzs⟩
          simp only [String.intercalate_cons_cons, String.append_assoc] at h
          obtain ⟨hitem, hrest⟩ := append_inj_of_marks hx hy
            (beginsMarked_of_cons String.toList_append rfl)
            (beginsMarked_of_cons String.toList_append rfl) h
          rw [hitem, ih hws hzs ((String.append_right_inj _).1 hrest)]

theorem parenthesized_cons (item : String) (items : List String) :
    parenthesized (item :: items) = "(" ++ ", ".intercalate (item :: items) ++ ")" :=
  rfl

theorem unmarked_parenthesized {items : List String} (h : ∀ item ∈ items, Unmarked ending item) :
    Unmarked Outline.layout (parenthesized items) := by
  cases items with
  | nil => simp [parenthesized, Unmarked]
  | cons item items =>
      have hitems : Unmarked Outline.layout (", ".intercalate (item :: items)) :=
        unmarked_intercalate (fun i hi => unmarked_layout (h i hi))
          (by simp [Unmarked, Outline.layout])
      rw [parenthesized_cons]
      exact (Unmarked.append (by simp [Unmarked, Outline.layout]) hitems).append
        (by simp [Unmarked, Outline.layout])

theorem beginsMarked_parenthesized {mark : Char → Bool} (hmark : mark '(' = true)
    (items : List String) : BeginsMarked mark (parenthesized items) := by
  cases items with
  | nil => simp [parenthesized, BeginsMarked]
  | cons item items =>
      rw [parenthesized_cons, String.append_assoc]
      exact beginsMarked_of_cons String.toList_append hmark

theorem parenthesized_injective {xs ys : List String} (hxs : ∀ item ∈ xs, Unmarked ending item)
    (hys : ∀ item ∈ ys, Unmarked ending item) (h : parenthesized xs = parenthesized ys) :
    xs = ys := by
  cases xs with
  | nil =>
      cases ys with
      | nil => rfl
      | cons y ys => simp [parenthesized] at h
  | cons x xs =>
      cases ys with
      | nil => simp [parenthesized] at h
      | cons y ys =>
          simp only [parenthesized_cons, String.append_left_inj, String.append_right_inj] at h
          exact intercalate_injective hxs hys h

/-- Lists are told apart by their texts where their items are. -/
theorem eq_of_map_parenthesized {α : Type} {item : α → String} {xs ys : List α}
    (hxs : ∀ x ∈ xs, Unmarked ending (item x)) (hys : ∀ y ∈ ys, Unmarked ending (item y))
    (hitem : ∀ x ∈ xs, ∀ y ∈ ys, item x = item y → x = y)
    (h : parenthesized (xs.map item) = parenthesized (ys.map item)) : xs = ys :=
  map_inj_of_mem hitem
    (parenthesized_injective (List.forall_mem_map.2 hxs) (List.forall_mem_map.2 hys) h)

/-! ## Nodes -/

/-- What a node prints on its own line. -/
def heading : DocumentNode → String
  | .field name arguments _ => name ++ parenthesized (arguments.map argumentText)
  | .spread name => "... " ++ name
  | .subtype typeName _ => "... on " ++ typeName

def children : DocumentNode → List DocumentNode
  | .field _ _ children => children
  | .spread _ => []
  | .subtype _ children => children

/-- The node without what is below it. -/
def bare : DocumentNode → DocumentNode
  | .field name arguments _ => .field name arguments []
  | .spread name => .spread name
  | .subtype typeName _ => .subtype typeName []

/-- The names that a node itself prints. -/
def names : DocumentNode → List String
  | .field name arguments _ => name :: arguments.flatMap fun argument => [argument.1, argument.2]
  | .spread name => [name]
  | .subtype typeName _ => [typeName]

/-- All names that are printed of a tree are names of the language. -/
inductive WellNamed : DocumentNode → Prop where
  | node {node : DocumentNode} : (∀ name ∈ node.names, Name.valid name = true) →
      (∀ child ∈ node.children, WellNamed child) → WellNamed node

theorem outlines_eq_map (nodes : List DocumentNode) : outlines nodes = nodes.map outline := by
  induction nodes with
  | nil => rfl
  | cons node rest ih => rw [outlines, ih, List.map_cons]

theorem outline_eq (node : DocumentNode) :
    node.outline = entry node.heading (node.children.map outline) := by
  rw [← outlines_eq_map]
  cases node <;> rfl

theorem entry_injective {heading heading' : String} {body body' : List Outline}
    (h : entry heading body = entry heading' body') : heading = heading' ∧ body = body' := by
  cases body with
  | nil =>
      cases body' with
      | nil => exact ⟨by simpa [entry] using h, rfl⟩
      | cons first rest => simp [entry] at h
  | cons first rest =>
      cases body' with
      | nil => simp [entry] at h
      | cons first' rest' => simpa [entry] using h

theorem plain_entry {heading : String} {body : List Outline}
    (hheading : Unmarked Outline.layout heading) (hbody : ∀ o ∈ body, o.Plain) :
    (entry heading body).Plain := by
  cases body with
  | nil => exact .line hheading
  | cons first rest => exact .block hheading hbody

theorem eq_of_bare {a b : DocumentNode} (hbare : a.bare = b.bare)
    (hchildren : a.children = b.children) : a = b := by
  cases a <;> cases b <;> simp_all [bare, children]

theorem valid_of_arguments {name : String} {arguments : List (String × String)}
    {children : List DocumentNode}
    (h : ∀ n ∈ (field name arguments children).names, Name.valid n = true) :
    Name.valid name = true ∧
      ∀ argument ∈ arguments, Name.valid argument.1 = true ∧ Name.valid argument.2 = true := by
  rcases List.forall_mem_cons.1 h with ⟨hname, harguments⟩
  refine ⟨hname, fun argument hargument => ⟨?_, ?_⟩⟩
  · exact harguments _ (List.mem_flatMap.2 ⟨argument, hargument, by simp⟩)
  · exact harguments _ (List.mem_flatMap.2 ⟨argument, hargument, by simp⟩)

theorem unmarked_heading {node : DocumentNode} (h : ∀ name ∈ node.names, Name.valid name = true) :
    Unmarked Outline.layout node.heading := by
  cases node with
  | field name arguments children =>
      rcases valid_of_arguments h with ⟨hname, harguments⟩
      refine (unmarked_layout (unmarked_of_valid hname)).append (unmarked_parenthesized ?_)
      exact List.forall_mem_map.2 fun argument hargument =>
        unmarked_argumentText (harguments argument hargument)
  | spread name =>
      exact Unmarked.append (by simp [Unmarked, Outline.layout])
        (unmarked_layout (unmarked_of_valid (h name (by simp [names]))))
  | subtype typeName children =>
      exact Unmarked.append (by simp [Unmarked, Outline.layout])
        (unmarked_layout (unmarked_of_valid (h typeName (by simp [names]))))

/-- The name of a field does not begin with dots. -/
theorem field_ne_dots {name dots rest rest' : String} (hname : Name.valid name = true)
    (hdots : ∃ cs, dots.toList = '.' :: cs) : name ++ rest ≠ dots ++ rest' := by
  intro h
  rcases hdots with ⟨cs, hdots⟩
  have hchars := congrArg String.toList h
  rw [String.toList_append, String.toList_append, hdots] at hchars
  cases hcs : name.toList with
  | nil => exact Name.toList_ne_nil hname hcs
  | cons c tail =>
      rw [hcs] at hchars
      obtain rfl : c = '.' := (List.cons.inj hchars).1
      exact Name.not_mem_of_foreign (c := '.') hname rfl (by simp [hcs])

/-- A spread, be it of a fragment called on, is not an inline fragment: no name holds a blank. -/
theorem spread_ne_subtype {name typeName : String} (hname : Name.valid name = true) :
    "... " ++ name ≠ "... on " ++ typeName := by
  intro h
  have hon : "... on " ++ typeName = "... " ++ ("on " ++ typeName) := by
    rw [← String.append_assoc]
    rfl
  rw [hon, String.append_right_inj] at h
  subst h
  exact Name.not_mem_of_foreign (c := ' ') hname rfl (by simp)

/-- What a node prints on its own line tells its kind, its name and its arguments. -/
theorem bare_eq_of_heading {a b : DocumentNode} (ha : ∀ name ∈ a.names, Name.valid name = true)
    (hb : ∀ name ∈ b.names, Name.valid name = true) (h : a.heading = b.heading) :
    a.bare = b.bare := by
  cases a with
  | field name arguments children =>
      rcases valid_of_arguments ha with ⟨hname, harguments⟩
      cases b with
      | field name' arguments' children' =>
          -- Both names end where the arguments begin, or at the end of the line.
          rcases valid_of_arguments hb with ⟨hname', harguments'⟩
          obtain ⟨rfl, hlists⟩ := append_inj_of_marks (Name.unmarked_of_valid hname)
            (Name.unmarked_of_valid hname') (beginsMarked_parenthesized rfl _)
            (beginsMarked_parenthesized rfl _) h
          obtain rfl : arguments = arguments' := eq_of_map_parenthesized
            (fun x hx => unmarked_argumentText (harguments x hx))
            (fun y hy => unmarked_argumentText (harguments' y hy))
            (fun x hx y hy => argumentText_injective (harguments x hx).1 (harguments' y hy).1)
            hlists
          rfl
      | spread other => exact absurd h (field_ne_dots hname ⟨_, rfl⟩)
      | subtype other children' => exact absurd h (field_ne_dots hname ⟨_, rfl⟩)
  | spread name =>
      cases b with
      | field name' arguments' children' =>
          exact absurd h.symm (field_ne_dots (valid_of_arguments hb).1 ⟨_, rfl⟩)
      | spread other => exact congrArg spread ((String.append_right_inj _).1 h)
      | subtype other children' => exact absurd h (spread_ne_subtype (ha name (by simp [names])))
  | subtype typeName children =>
      cases b with
      | field name' arguments' children' =>
          exact absurd h.symm (field_ne_dots (valid_of_arguments hb).1 ⟨_, rfl⟩)
      | spread other => exact absurd h.symm (spread_ne_subtype (hb other (by simp [names])))
      | subtype other children' =>
          obtain rfl : typeName = other := (String.append_right_inj _).1 h
          rfl

/-! ## Trees -/

theorem WellNamed.plain {node : DocumentNode} (h : node.WellNamed) : node.outline.Plain := by
  induction h with
  | node hnames _ ih =>
      rw [outline_eq]
      exact plain_entry (unmarked_heading hnames) (List.forall_mem_map.2 ih)

/-- The outline of a tree tells the tree. -/
theorem WellNamed.eq_of_outline {a b : DocumentNode} (ha : a.WellNamed) (hb : b.WellNamed)
    (h : a.outline = b.outline) : a = b := by
  induction ha generalizing b with
  | @node a hnames _ ih =>
      cases hb with
      | node hnames' hbelow' =>
          -- The heading tells the node but for its children, and the body tells these.
          rw [outline_eq, outline_eq] at h
          rcases entry_injective h with ⟨hheading, hbodies⟩
          have hchildren : a.children = b.children := map_inj_of_mem
            (fun x hx y hy hxy => ih x hx (hbelow' y hy) hxy) hbodies
          exact eq_of_bare (bare_eq_of_heading hnames hnames' hheading) hchildren

end DocumentNode

/-! ## Documents -/

structure FragmentBlock.WellNamed (fragment : FragmentBlock) : Prop where
  name : Name.valid fragment.name = true
  typeName : Name.valid fragment.typeName = true
  children : ∀ child ∈ fragment.children, child.WellNamed

namespace Document

open DocumentNode

/-- All names that are printed of a document are names of the language. -/
structure WellNamed (document : Document) : Prop where
  declared : ∀ v ∈ document.declared, Name.valid v.1 = true ∧ Name.valid v.2.name = true
  root : document.root.WellNamed
  fragments : ∀ fragment ∈ document.fragments, fragment.WellNamed

theorem declarationText_injective {a b : String × TypeExpr}
    (ha : Name.valid a.1 = true ∧ Name.valid a.2.name = true)
    (hb : Name.valid b.1 = true ∧ Name.valid b.2.name = true)
    (h : declarationText a = declarationText b) : a = b := by
  simp only [declarationText, String.append_assoc, String.append_right_inj] at h
  obtain ⟨hname, htype⟩ := Name.append_separator_inj ha.1 hb.1 rfl rfl h
  exact Prod.ext hname (TypeExpr.text_injective ha.2 hb.2 htype)

theorem unmarked_declarationText {v : String × TypeExpr}
    (h : Name.valid v.1 = true ∧ Name.valid v.2.name = true) :
    Unmarked ending (declarationText v) := by
  have hdollar : Unmarked ending "$" := by simp [Unmarked, ending, Outline.layout]
  have hcolon : Unmarked ending ": " := by simp [Unmarked, ending, Outline.layout]
  exact ((hdollar.append (unmarked_of_valid h.1)).append hcolon).append
    (TypeExpr.unmarked_text h.2)

/-! ## Outlines of a document -/

section Outlines

variable {a b : Document} {f g : FragmentBlock}

theorem WellNamed.plain_operation (ha : a.WellNamed) : a.operationOutline.Plain := by
  have hitems : ∀ item ∈ a.declared.map declarationText, Unmarked ending item :=
    List.forall_mem_map.2 fun v hv => unmarked_declarationText (ha.declared v hv)
  refine .block (Unmarked.append ?_ (unmarked_parenthesized hitems)) ?_
  · simp [Unmarked, Outline.layout]
  · simpa using ha.root.plain

theorem WellNamed.eq_of_operation (ha : a.WellNamed) (hb : b.WellNamed)
    (h : a.operationOutline = b.operationOutline) : a.declared = b.declared ∧ a.root = b.root := by
  obtain ⟨hheading, hbody⟩ := Outline.block.inj h
  constructor
  · exact eq_of_map_parenthesized
      (fun v hv => unmarked_declarationText (ha.declared v hv))
      (fun w hw => unmarked_declarationText (hb.declared w hw))
      (fun v hv w hw => declarationText_injective (ha.declared v hv) (hb.declared w hw))
      ((String.append_right_inj _).1 hheading)
  · exact ha.root.eq_of_outline hb.root (List.cons.inj hbody).1

theorem plain_fragment (hf : f.WellNamed) : (fragmentOutline f).Plain := by
  have hword : Unmarked ending "fragment " := by simp [Unmarked, ending, Outline.layout]
  have hon : Unmarked ending " on " := by simp [Unmarked, ending, Outline.layout]
  refine .block (unmarked_layout ?_) ?_
  · exact ((hword.append (unmarked_of_valid hf.name)).append hon).append
      (unmarked_of_valid hf.typeName)
  · rw [outlines_eq_map]
    exact List.forall_mem_map.2 fun child hchild => (hf.children child hchild).plain

theorem eq_of_fragment (hf : f.WellNamed) (hg : g.WellNamed)
    (h : fragmentOutline f = fragmentOutline g) : f = g := by
  obtain ⟨hheading, hbody⟩ := Outline.block.inj h
  simp only [String.append_assoc, String.append_right_inj] at hheading
  obtain ⟨hname, htypeName⟩ := Name.append_separator_inj hf.name hg.name rfl rfl hheading
  have hchildren : f.children = g.children := by
    rw [outlines_eq_map, outlines_eq_map] at hbody
    exact map_inj_of_mem
      (fun x hx y hy => (hf.children x hx).eq_of_outline (hg.children y hy)) hbody
  cases f
  cases g
  simp_all

end Outlines

/-- The outlines behind each other, each behind an empty line, are read one by one. -/
theorem join_injective {xs ys : List Outline} (hxs : ∀ o ∈ xs, o.Plain) (hys : ∀ o ∈ ys, o.Plain)
    (h : String.join (xs.map fun o => "\n" ++ o.text 0) =
      String.join (ys.map fun o => "\n" ++ o.text 0)) : xs = ys := by
  induction xs generalizing ys with
  | nil =>
      cases ys with
      | nil => rfl
      | cons y ys => simp at h
  | cons x xs ih =>
      cases ys with
      | nil => simp at h
      | cons y ys =>
          rcases List.forall_mem_cons.1 hxs with ⟨hx, hxs'⟩
          rcases List.forall_mem_cons.1 hys with ⟨hy, hys'⟩
          simp only [List.map_cons, String.join_cons, String.append_assoc,
            String.append_right_inj] at h
          obtain ⟨hfirst, hrest⟩ := hx.endsItself hy h
          rw [hfirst, ih hxs' hys' hrest]

theorem text_eq (document : Document) :
    document.text = document.operationOutline.text 0 ++
      String.join ((document.fragments.map fragmentOutline).map fun o => "\n" ++ o.text 0) := by
  rw [text, List.map_map]
  rfl

/-- Documents with one text are one document: they declare the same variables with the same types,
select the same tree and define the same fragments, all in the same order. -/
theorem eq_of_text {a b : Document} (ha : a.WellNamed) (hb : b.WellNamed)
    (h : a.text = b.text) : a = b := by
  -- The operation shows where it ends, and what follows it are the fragments.
  rw [text_eq, text_eq] at h
  obtain ⟨hoperations, hjoined⟩ := ha.plain_operation.endsItself hb.plain_operation h
  rcases ha.eq_of_operation hb hoperations with ⟨hdeclared, hroot⟩
  have hfragments : a.fragments = b.fragments := by
    refine map_inj_of_mem
      (fun f hf g hg => eq_of_fragment (ha.fragments f hf) (hb.fragments g hg))
      (join_injective ?_ ?_ hjoined)
    · exact List.forall_mem_map.2 fun f hf => plain_fragment (ha.fragments f hf)
    · exact List.forall_mem_map.2 fun g hg => plain_fragment (hb.fragments g hg)
  cases a
  cases b
  simp_all

/-! ## Products -/

/-- A query of a product: what is selected of it, below its field. -/
def productsTree (children : List Selection) : Pruned where
  root := .node (.field "products" (.list (.named .interface ⟨2, "Product"⟩))
    [⟨"productId", .nonNull (.named .scalar ⟨0, "Int"⟩)⟩]
    (some ⟨0, ["productId"], fun _ => some (.number (.integer 3))⟩)) children
  fragments := [⟨"BookFields", .named .object ⟨3, "Book"⟩,
    [.node (.field "id" (.named .scalar ⟨1, "ID"⟩) [] none) []]⟩]

/-- What is selected of films only. -/
def filmSelection : Selection :=
  .node (.subtype (.named .object ⟨4, "Film"⟩))
    [.node (.field "minutes" (.named .scalar ⟨0, "Int"⟩) [] none) []]

def bookSpread : Selection := .node (.spread "BookFields" (.named .object ⟨3, "Book"⟩)) []

def discriminatorOfProducts : Selection := .node (.typename (.named .interface ⟨2, "Product"⟩)) []

def productsDocument : Document where
  declared := [("var_0", .nonNull (.named "Int"))]
  root := .field "products" [("productId", "var_0")]
    [.field "__typename" [] [], .spread "BookFields", .subtype "Film" [.field "minutes" [] []]]
  fragments := [⟨"BookFields", "Book", [.field "id" [] []]⟩]

theorem wellNamed_products : productsDocument.WellNamed where
  declared := by decide
  root := by
    have hminutes : (DocumentNode.field "minutes" [] []).WellNamed := .node (by decide) nofun
    refine .node (by decide) fun child hchild => ?_
    rcases List.mem_cons.1 hchild with rfl | hchild
    · exact .node (by decide) nofun
    · rcases List.mem_cons.1 hchild with rfl | hchild
      · exact .node (by decide) nofun
      · obtain rfl := List.mem_singleton.1 hchild
        exact .node (by decide) (List.forall_mem_singleton.2 hminutes)
  fragments := List.forall_mem_singleton.2
    ⟨by decide, by decide, List.forall_mem_singleton.2 (.node (by decide) nofun)⟩

/-- A tree in which subtypes come first is bound to this document. -/
theorem products_eq_of_text :
    ∃ bound, (productsTree [filmSelection, discriminatorOfProducts, bookSpread]).bind "var_" =
        .ok bound ∧ bound.1.WellNamed ∧ productsDocument.WellNamed ∧
      bound.1.text = productsDocument.text ∧ bound.1 = productsDocument := by
  obtain ⟨bound, hbound, hdocument⟩ : ∃ bound,
      (productsTree [filmSelection, discriminatorOfProducts, bookSpread]).bind "var_" =
        .ok bound ∧ bound.1 = productsDocument := ⟨_, rfl, rfl⟩
  have hnamed : bound.1.WellNamed := hdocument ▸ wellNamed_products
  have htext : bound.1.text = productsDocument.text := congrArg text hdocument
  exact ⟨bound, hbound, hnamed, wellNamed_products, htext,
    eq_of_text hnamed wellNamed_products htext⟩

/-- The text of the document, line by line. -/
example : productsDocument.text = "\n".intercalate [
    "query($var_0: Int!) \x7b",
    "  products(productId: $var_0) \x7b",
    "    __typename",
    "    ... BookFields",
    "    ... on Film \x7b",
    "      minutes",
    "    \x7d",
    "  \x7d",
    "\x7d",
    "",
    "fragment BookFields on Book \x7b",
    "  id",
    "\x7d",
    ""] := by
  decide +kernel

end Document

end GraphQuery
