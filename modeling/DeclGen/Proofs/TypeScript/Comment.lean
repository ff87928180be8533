import DeclGen.Proofs.TypeScript.Documentation
import DeclGen.Proofs.Xml.Pieces

/-!
# Comments that stay closed

A documentation comment is put together from lines, each between a star and a line feed. Neither the lines nor the
seams between them make an end of a comment, so that it is closed where it ends and nowhere before.

* `Inside` : the texts that can stand in a comment, behind any other such text;
* `inside_docLine`, `inside_flatMap` : the lines of a comment are such texts;
* `docBlock_enclosed` : a written comment has one end.
-/

namespace DeclGen.TypeScript
open Text (Blank)

variable {doc indent line s t : Text}

/-! ## Texts in comments -/

/-- No end of a comment stands in the text, and the text completes none that starts before it. -/
structure Inside (t : Text) : Prop where
  closed : ¬ commentEnd <:+: t
  first : t.head? ≠ some '/'

theorem inside_of_notMem (h : '/' ∉ t) : Inside t where
  closed := fun found => h (found.subset (by decide))
  first := fun slash => h (List.mem_of_mem_head? slash)

theorem not_infix_append_inside (hs : ¬ commentEnd <:+: s) (ht : Inside t) : ¬ commentEnd <:+: s ++ t := by
  induction s with
  | nil => exact ht.closed
  | cons c s ih =>
    rw [List.infix_cons_iff, not_or] at hs
    rw [List.cons_append, List.infix_cons_iff, not_or]
    refine ⟨fun start => hs.1 ?_, ih hs.2⟩
    rw [commentEnd_prefix_iff] at start ⊢
    cases s with
    | nil => exact absurd start.2 ht.first
    | cons d s => exact start

theorem Inside.append (hs : Inside s) (ht : Inside t) : Inside (s ++ t) where
  closed := not_infix_append_inside hs.closed ht
  first := by
    cases s with
    | nil => exact ht.first
    | cons c s => exact hs.first

theorem inside_flatMap {α : Type} {f : α → Text} (h : ∀ a, Inside (f a)) (l : List α) : Inside (l.flatMap f) := by
  induction l with
  | nil => exact inside_of_notMem List.not_mem_nil
  | cons a l ih => exact (h a).append ih

/-- In front of a text, a character other than a star makes no end of a comment. -/
theorem not_infix_cons_of_ne {c : Char} (hc : c ≠ '*') (h : ¬ commentEnd <:+: t) : ¬ commentEnd <:+: c :: t := by
  rw [List.infix_cons_iff, not_or, commentEnd_prefix_iff]
  exact ⟨fun start => hc start.1, h⟩

theorem not_infix_blank_append (blank : Blank indent) (h : ¬ commentEnd <:+: t) : ¬ commentEnd <:+: indent ++ t := by
  induction indent with
  | nil => exact h
  | cons c indent ih =>
    rw [Blank, List.forall_mem_cons] at blank
    refine not_infix_cons_of_ne (fun star => ?_) (ih blank.2)
    rw [star] at blank
    exact absurd blank.1 (by decide)

theorem inside_of_blank (blank : Blank indent) : Inside indent :=
  inside_of_notMem fun slash => absurd (blank '/' slash) (by decide)

/-! ## The comment -/

/-- A space keeps the star of a line from what the line starts with. -/
theorem inside_docLine (blank : Blank indent) (line : Text) : Inside (docLine indent line) := by
  rw [docLine]
  split
  · exact (inside_of_blank blank).append (inside_of_notMem (by decide))
  · have content : Inside (' ' :: escapeEnds line) :=
      ⟨not_infix_cons_of_ne (by decide) (not_infix_escapeEnds line), by simp⟩
    have parts : indent ++ " * ".toList ++ escapeEnds line ++ ['\n'] =
        indent ++ " *".toList ++ (' ' :: escapeEnds line) ++ ['\n'] := by simp
    rw [parts]
    exact (((inside_of_blank blank).append (inside_of_notMem (by decide))).append content).append
      (inside_of_notMem (by decide))

/-- What stands between the start and the end of the comment. -/
def commentBody (doc indent : Text) : Text :=
  '\n' :: (Text.lines doc).flatMap (docLine indent) ++ indent ++ [' ']

theorem docBlock_eq (doc indent : Text) :
    docBlock doc indent = indent ++ "/**".toList ++ commentBody doc indent ++ commentEnd ++ ['\n'] := by
  simp [docBlock, commentBody, commentEnd]

theorem inside_commentBody (doc : Text) (blank : Blank indent) : Inside (commentBody doc indent) := by
  have lines : Inside ('\n' :: (Text.lines doc).flatMap (docLine indent)) :=
    ⟨not_infix_cons_of_ne (by decide) (inside_flatMap (inside_docLine blank) _).closed, by simp⟩
  exact (lines.append (inside_of_blank blank)).append (inside_of_notMem (by decide))

/-- Two ends of comments do not overlap. -/
theorem commentEnd_append_eq {between : Text} (h : commentEnd ++ s = between ++ (commentEnd ++ t)) :
    between = [] ∧ s = t ∨ ∃ rest, between = commentEnd ++ rest ∧ s = rest ++ commentEnd ++ t := by
  rcases between with _ | ⟨c, _ | ⟨d, rest⟩⟩
  · exact .inl ⟨rfl, List.append_cancel_left h⟩
  · exact absurd h (by simp [commentEnd])
  · refine .inr ⟨rest, ?_⟩
    simpa [commentEnd, eq_comm, and_assoc] using h

/-- An end of a comment stands alone if none ends in front of it and no slash stands behind it. -/
theorem eq_of_append_commentEnd {before after before' after' : Text} (front : ¬ commentEnd <:+: before)
    (back : '/' ∉ after) (h : before ++ commentEnd ++ after = before' ++ commentEnd ++ after') :
    before' = before ∧ after' = after := by
  rw [List.append_assoc, List.append_assoc, List.append_eq_append_iff] at h
  rcases h with ⟨between, rfl, behind⟩ | ⟨between, rfl, behind⟩
  · rcases commentEnd_append_eq behind with ⟨rfl, rfl⟩ | ⟨rest, -, rfl⟩
    · exact ⟨List.append_nil before, rfl⟩
    · exact absurd (by simp [commentEnd]) back
  · rcases commentEnd_append_eq behind with ⟨rfl, rfl⟩ | ⟨rest, rfl, -⟩
    · exact ⟨(List.append_nil before').symm, rfl⟩
    · rw [← List.append_assoc] at front
      exact absurd (List.infix_append before' commentEnd rest) front

/-- **Documentation stays in its comment.** A comment opens behind the indentation, and of the ends of comments in it
the last one alone is one: whoever looks for the end finds it there, whatever follows. -/
theorem docBlock_enclosed (doc : Text) (blank : Blank indent) : ∃ body,
    docBlock doc indent = indent ++ "/**".toList ++ body ++ commentEnd ++ ['\n'] ∧
    (∀ before after, docBlock doc indent = before ++ commentEnd ++ after →
      before = indent ++ "/**".toList ++ body ∧ after = ['\n']) ∧
    ∀ rest, Text.cut? commentEnd ('*' :: body ++ commentEnd ++ '\n' :: rest) = some ('*' :: body, '\n' :: rest) := by
  have inside := inside_commentBody doc blank
  refine ⟨commentBody doc indent, docBlock_eq doc indent, fun before after parts => ?_, fun rest => ?_⟩
  · have opened : Inside ("**".toList ++ commentBody doc indent) := (inside_of_notMem (by decide)).append inside
    have front : ¬ commentEnd <:+: indent ++ "/**".toList ++ commentBody doc indent := by
      rw [List.append_assoc]
      exact not_infix_blank_append blank (not_infix_cons_of_ne (by decide) opened.closed)
    rw [docBlock_eq] at parts
    exact eq_of_append_commentEnd front (by decide) parts
  · refine (Text.cut?_eq_some_iff (by decide)).2 ⟨rfl, ?_⟩
    have star : Inside ['*'] := inside_of_notMem (by decide)
    exact ((star.append inside).append star).closed

/-- Ends of comments at both ends of lines, over the end of a line and in a row. -/
theorem docBlock_enclosed_marks : Blank "\t ".toList ∧ ∃ body,
    docBlock "*/ */\n/ *\n/*/*/\r\n*".toList "\t ".toList = "\t /**".toList ++ body ++ "*/\n".toList ∧
    ∀ before after, docBlock "*/ */\n/ *\n/*/*/\r\n*".toList "\t ".toList = before ++ commentEnd ++ after →
      after = ['\n'] := by
  have blank : Blank "\t ".toList := by decide
  obtain ⟨body, parts, alone, -⟩ := docBlock_enclosed "*/ */\n/ *\n/*/*/\r\n*".toList blank
  refine ⟨blank, body, ?_, fun before after found => (alone before after found).2⟩
  simpa [commentEnd] using parts

end DeclGen.TypeScript
