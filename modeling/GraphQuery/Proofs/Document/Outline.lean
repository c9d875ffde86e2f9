import GraphQuery.Document.Outline

/-!
# Document.Outline — outlines read off their text

The text of an outline shows where it ends: whatever follows, the outline and what follows it can be
told from the text. Only its headings must not look like its layout, so they hold no line break and
no opening brace.

- `Unmarked`, `BeginsMarked` : texts without marks, and texts that begin with one
- `append_inj_of_marks` : two texts part where the first mark stands
- `Outline.Plain` : outlines whose headings hold no layout
- `Outline.EndsItself`, `Outline.Plain.endsItself` : outlines are read off the front of a text
-/

set_option autoImplicit false

namespace GraphQuery

/-! ## Marks -/

/-- None of the characters is a mark. -/
def Unmarked (mark : Char → Bool) (text : String) : Prop :=
  ∀ c ∈ text.toList, mark c = false

/-- The first character is a mark, where there is any. -/
def BeginsMarked (mark : Char → Bool) (text : String) : Prop :=
  ∀ c ∈ text.toList.head?, mark c = true

section Marks

variable {mark other : Char → Bool} {s t before before' after after' : String}

theorem Unmarked.append (hs : Unmarked mark s) (ht : Unmarked mark t) :
    Unmarked mark (s ++ t) := by
  intro c hc
  rw [String.toList_append] at hc
  rcases List.mem_append.1 hc with hc | hc
  · exact hs c hc
  · exact ht c hc

/-- What holds no mark holds none of fewer marks. -/
theorem Unmarked.mono (hs : Unmarked mark s) (hle : ∀ c, other c = true → mark c = true) :
    Unmarked other s := by
  intro c hc
  exact Bool.eq_false_iff.2 fun hother => Bool.eq_false_iff.1 (hs c hc) (hle c hother)

theorem beginsMarked_of_cons {c : Char} {cs : List Char} (htext : s.toList = c :: cs)
    (hc : mark c = true) : BeginsMarked mark s := by
  simp [BeginsMarked, htext, hc]

theorem append_inj_of_head? {α : Type} {mark : α → Bool} {xs ys rest rest' : List α}
    (hxs : ∀ x ∈ xs, mark x = false) (hys : ∀ y ∈ ys, mark y = false)
    (hrest : ∀ c ∈ rest.head?, mark c = true) (hrest' : ∀ c ∈ rest'.head?, mark c = true)
    (h : xs ++ rest = ys ++ rest') : xs = ys ∧ rest = rest' := by
  induction xs generalizing ys with
  | nil =>
      cases ys with
      | nil => exact ⟨rfl, h⟩
      | cons y ys =>
          -- The first character behind one of the texts is inside of the other.
          have hmark : mark y = true := hrest y (by simp [show rest = y :: (ys ++ rest') from h])
          simp [hys y List.mem_cons_self] at hmark
  | cons x xs ih =>
      cases ys with
      | nil =>
          have hmark : mark x = true :=
            hrest' x (by simp [show rest' = x :: (xs ++ rest) from h.symm])
          simp [hxs x List.mem_cons_self] at hmark
      | cons y ys =>
          obtain ⟨rfl, htail⟩ : x = y ∧ xs ++ rest = ys ++ rest' := List.cons.inj h
          obtain ⟨rfl, hrests⟩ := ih (fun z hz => hxs z (List.mem_cons_of_mem _ hz))
            (fun z hz => hys z (List.mem_cons_of_mem _ hz)) htail
          exact ⟨rfl, hrests⟩

/-- Texts without marks end where the first mark stands. -/
theorem append_inj_of_marks (hbefore : Unmarked mark before) (hbefore' : Unmarked mark before')
    (hafter : BeginsMarked mark after) (hafter' : BeginsMarked mark after')
    (h : before ++ after = before' ++ after') : before = before' ∧ after = after' := by
  have hchars : before.toList ++ after.toList = before'.toList ++ after'.toList := by
    simpa only [String.toList_append] using congrArg String.toList h
  rcases append_inj_of_head? hbefore hbefore' hafter hafter' hchars with ⟨hfront, hback⟩
  exact ⟨String.toList_inj.1 hfront, String.toList_inj.1 hback⟩

end Marks

namespace Outline

/-- The characters that a heading leaves to the layout. -/
def layout (c : Char) : Bool := c == '\n' || c == '\x7b'

/-- No heading holds layout. -/
inductive Plain : Outline → Prop where
  | line {text : String} : Unmarked layout text → Plain (.line text)
  | block {heading : String} {body : List Outline} :
      Unmarked layout heading → (∀ o ∈ body, Plain o) → Plain (.block heading body)

theorem unmarked_append_blank {heading : String} (h : Unmarked layout heading) :
    Unmarked layout (heading ++ " ") :=
  h.append (by simp [Unmarked, layout])

/-! ## Texts -/

/-- What follows the opening brace of a block. -/
def opened (level : Nat) : List Outline → String
  | [] => "\x7d\n"
  | first :: rest =>
      "\n" ++ (textAll (level + 1) (first :: rest) ++ (indentation level ++ "\x7d\n"))

theorem text_line_append (level : Nat) (heading after : String) :
    text level (.line heading) ++ after = indentation level ++ (heading ++ ("\n" ++ after)) := by
  simp only [text, String.append_assoc]

theorem text_block_append (level : Nat) (heading : String) (body : List Outline)
    (after : String) : text level (.block heading body) ++ after =
      indentation level ++ (heading ++ " " ++ ("\x7b" ++ (opened level body ++ after))) := by
  have hempty : " \x7b\x7d\n" = " " ++ ("\x7b" ++ "\x7d\n") := rfl
  have hopen : " \x7b\n" = " " ++ ("\x7b" ++ "\n") := rfl
  cases body with
  | nil => simp only [text, opened, hempty, String.append_assoc]
  | cons first rest => simp only [text, opened, textAll, hopen, String.append_assoc]

theorem indentation_succ (level : Nat) : indentation (level + 1) = indentation level ++ "  " := by
  calc indentation (level + 1)
      = String.ofList (List.replicate (2 * level) ' ' ++ List.replicate 2 ' ') := by
        rw [List.replicate_append_replicate]
        rfl
    _ = indentation level ++ "  " := String.ofList_append

/-- Everything at a level is indented. -/
theorem exists_text_succ (level : Nat) (o : Outline) (after : String) :
    ∃ rest, text (level + 1) o ++ after = indentation level ++ ("  " ++ rest) := by
  cases o with
  | line heading =>
      exact ⟨_, by rw [text_line_append, indentation_succ, String.append_assoc]⟩
  | block heading body =>
      exact ⟨_, by rw [text_block_append, indentation_succ, String.append_assoc]⟩

/-! ## Reading -/

/-- Whatever follows the text of the outline, both can be told from the text. -/
def EndsItself (o : Outline) : Prop :=
  ∀ {other : Outline} {level : Nat} {after after' : String}, other.Plain →
    text level o ++ after = text level other ++ after' → o = other ∧ after = after'

/-- The closing brace of a block stands further to the left than what is in the block. -/
theorem closing_ne_text {level : Nat} {o : Outline} {after after' : String} :
    indentation level ++ ("\x7d\n" ++ after) ≠ text (level + 1) o ++ after' := by
  intro h
  obtain ⟨rest, hrest⟩ := exists_text_succ level o after'
  rw [hrest, String.append_right_inj] at h
  have hchars := congrArg String.toList h
  simp [String.toList_append] at hchars

/-- The outlines in a block are read up to its closing brace. -/
theorem textAll_append_inj {level : Nat} {xs ys : List Outline} {after after' : String}
    (hxs : ∀ o ∈ xs, o.EndsItself) (hys : ∀ o ∈ ys, o.Plain)
    (h : textAll (level + 1) xs ++ (indentation level ++ ("\x7d\n" ++ after)) =
      textAll (level + 1) ys ++ (indentation level ++ ("\x7d\n" ++ after'))) :
    xs = ys ∧ after = after' := by
  induction xs generalizing ys with
  | nil =>
      cases ys with
      | nil => simpa [textAll] using h
      | cons y ys =>
          -- One block is closed where the other goes on.
          simp only [textAll, String.empty_append, String.append_assoc] at h
          exact absurd h closing_ne_text
  | cons x xs ih =>
      cases ys with
      | nil =>
          simp only [textAll, String.empty_append, String.append_assoc] at h
          exact absurd h.symm closing_ne_text
      | cons y ys =>
          rcases List.forall_mem_cons.1 hxs with ⟨hx, hxs'⟩
          rcases List.forall_mem_cons.1 hys with ⟨hy, hys'⟩
          simp only [textAll, String.append_assoc] at h
          obtain ⟨rfl, hrest⟩ := hx hy h
          obtain ⟨rfl, hafter⟩ := ih hxs' hys' hrest
          exact ⟨rfl, hafter⟩

theorem opened_append_inj {level : Nat} {xs ys : List Outline} {after after' : String}
    (hxs : ∀ o ∈ xs, o.EndsItself) (hys : ∀ o ∈ ys, o.Plain)
    (h : opened level xs ++ after = opened level ys ++ after') : xs = ys ∧ after = after' := by
  cases xs with
  | nil =>
      cases ys with
      | nil => simpa [opened] using h
      | cons y ys =>
          have hchars := congrArg String.toList h
          simp [opened, String.toList_append] at hchars
  | cons x xs =>
      cases ys with
      | nil =>
          have hchars := congrArg String.toList h
          simp [opened, String.toList_append] at hchars
      | cons y ys =>
          simp only [opened, String.append_assoc, String.append_right_inj] at h
          exact textAll_append_inj hxs hys h

/-- A line is not the front of a block: the first layout is another. -/
theorem line_ne_block {level : Nat} {heading heading' : String} {body : List Outline}
    {after after' : String} (hheading : Unmarked layout heading)
    (hheading' : Unmarked layout heading') :
    text level (.line heading) ++ after ≠ text level (.block heading' body) ++ after' := by
  intro h
  rw [text_line_append, text_block_append, String.append_right_inj] at h
  have hrests := (append_inj_of_marks hheading (unmarked_append_blank hheading')
    (beginsMarked_of_cons String.toList_append rfl)
    (beginsMarked_of_cons String.toList_append rfl) h).2
  have hchars := congrArg String.toList hrests
  simp [String.toList_append] at hchars

/-- A plain outline is read off the front of a text. -/
theorem Plain.endsItself {o : Outline} (ho : o.Plain) : o.EndsItself := by
  induction ho with
  | @line heading hheading =>
      intro other level after after' hother h
      cases hother with
      | @line heading' hheading' =>
          -- Both headings end at the first layout, which is the end of the line.
          rw [text_line_append, text_line_append, String.append_right_inj] at h
          obtain ⟨rfl, hafter⟩ := append_inj_of_marks hheading hheading'
            (beginsMarked_of_cons String.toList_append rfl)
            (beginsMarked_of_cons String.toList_append rfl) h
          exact ⟨rfl, (String.append_right_inj _).1 hafter⟩
      | @block heading' body' hheading' hbody' => exact absurd h (line_ne_block hheading hheading')
  | @block heading body hheading hbody ih =>
      intro other level after after' hother h
      cases hother with
      | @line heading' hheading' => exact absurd h.symm (line_ne_block hheading' hheading)
      | @block heading' body' hheading' hbody' =>
          -- Both headings end at the brace; the bodies are read by the hypothesis on the outlines
          -- in the first of them.
          rw [text_block_append, text_block_append, String.append_right_inj] at h
          obtain ⟨hheadings, hrests⟩ := append_inj_of_marks (unmarked_append_blank hheading)
            (unmarked_append_blank hheading') (beginsMarked_of_cons String.toList_append rfl)
            (beginsMarked_of_cons String.toList_append rfl) h
          obtain rfl := (String.append_left_inj _).1 hheadings
          obtain ⟨rfl, hafter⟩ := opened_append_inj ih hbody' ((String.append_right_inj _).1 hrests)
          exact ⟨rfl, hafter⟩

end Outline

end GraphQuery
