import DeclGen.Proofs.Docblock.Prose
import DeclGen.TypeScript.Declaration

/-!
# Documentation comments

The prose of a documentation block is written as a comment, with a star in front of each line and a backslash in
each end of a comment. Its prose is what was written, up to these backslashes.

* `escapeEnds_append` : texts are escaped part by part, unless an end is put together from two of them;
* `escapeEnds_eq_self_iff`, `exists_pieces` : what escaping does to a text;
* `proseLines_docBlock` : the lines of a written comment;
* `clean_docBlock` : documentation survives.
-/

namespace DeclGen.TypeScript
open Docblock (ProseLine Prose clean cleanLine dropEnd dropStart preservedTags proseLines)
open Text (Blank isBlank trim)

variable {d indent line s t : Text}

/-! ## Ends of comments -/

/-- The end of a comment. -/
def commentEnd : Text := ['*', '/']

/-- The end of a comment with a backslash in it. -/
def escapedEnd : Text := ['*', '\\', '/']

theorem commentEnd_prefix_iff {c : Char} : commentEnd <+: c :: t ↔ c = '*' ∧ t.head? = some '/' := by
  rw [commentEnd, List.cons_prefix_cons, eq_comm]
  cases t with
  | nil => simp
  | cons d t => simp [List.cons_prefix_cons, eq_comm]

theorem escapeEnds_commentEnd (t : Text) : escapeEnds (commentEnd ++ t) = escapedEnd ++ escapeEnds t := rfl

theorem escapeEnds_cons {c : Char} (h : ¬ commentEnd <+: c :: t) : escapeEnds (c :: t) = c :: escapeEnds t := by
  rw [escapeEnds]
  rintro t rfl rfl
  exact h (List.prefix_append commentEnd t)

/-- A text is empty, starts with the end of a comment, or with another character. -/
@[elab_as_elim]
theorem ends_induction {P : Text → Prop} (nil : P []) (ending : ∀ t, P t → P (commentEnd ++ t))
    (cons : ∀ c t, ¬ commentEnd <+: c :: t → P t → P (c :: t)) (t : Text) : P t := by
  induction t using escapeEnds.induct with
  | case1 t ih => exact ending t ih
  | case2 c t other ih =>
    refine cons c t (fun start => ?_) ih
    obtain ⟨rfl, slash⟩ := commentEnd_prefix_iff.1 start
    obtain ⟨rest, rfl⟩ := List.head?_eq_some_iff.1 slash
    exact other rest rfl rfl
  | case3 => exact nil

theorem escapeEnds_append (h : t.head? ≠ some '/') : escapeEnds (s ++ t) = escapeEnds s ++ escapeEnds t := by
  induction s using ends_induction with
  | nil => rfl
  | ending s ih => rw [List.append_assoc, escapeEnds_commentEnd, escapeEnds_commentEnd, ih, List.append_assoc]
  | cons c s other ih =>
    have apart : ¬ commentEnd <+: c :: (s ++ t) := by
      rw [commentEnd_prefix_iff] at other ⊢
      cases s with
      | nil => exact fun both => h both.2
      | cons d s => exact other
    rw [List.cons_append, escapeEnds_cons apart, escapeEnds_cons other, ih, List.cons_append]

theorem head?_escapeEnds (t : Text) : (escapeEnds t).head? = t.head? := by
  cases t using ends_induction with
  | nil => rfl
  | ending t => rfl
  | cons c t other => rw [escapeEnds_cons other, List.head?_cons, List.head?_cons]

theorem getLast?_escapeEnds (t : Text) : (escapeEnds t).getLast? = t.getLast? := by
  induction t using ends_induction with
  | nil => rfl
  | ending t ih =>
    rw [escapeEnds_commentEnd, List.getLast?_append, List.getLast?_append, ih]
    rfl
  | cons c t other ih => rw [escapeEnds_cons other, List.getLast?_cons, List.getLast?_cons, ih]

theorem notMem_escapeEnds {c : Char} (hc : c ≠ '\\') (h : c ∉ t) : c ∉ escapeEnds t := by
  induction t using ends_induction with
  | nil => exact h
  | ending t ih =>
    have marks : c ∉ commentEnd → c ∉ escapedEnd := by simp [commentEnd, escapedEnd, hc]
    rw [List.mem_append, not_or] at h
    rw [escapeEnds_commentEnd, List.mem_append, not_or]
    exact ⟨marks h.1, ih h.2⟩
  | cons d t other ih =>
    rw [List.mem_cons, not_or] at h
    rw [escapeEnds_cons other, List.mem_cons, not_or]
    exact ⟨h.1, ih h.2⟩

/-- Neither the backslashes nor what stands around them make an end. -/
theorem not_infix_escapeEnds (t : Text) : ¬ commentEnd <:+: escapeEnds t := by
  induction t using ends_induction with
  | nil => decide
  | ending t ih =>
    show ¬ commentEnd <:+: '*' :: '\\' :: '/' :: escapeEnds t
    simp [List.infix_cons_iff, commentEnd_prefix_iff, ih]
  | cons c t other ih =>
    rw [escapeEnds_cons other, List.infix_cons_iff, not_or, commentEnd_prefix_iff, head?_escapeEnds,
      ← commentEnd_prefix_iff]
    exact ⟨other, ih⟩

theorem escapeEnds_eq_self_iff : escapeEnds t = t ↔ ¬ commentEnd <:+: t := by
  constructor
  · intro same
    exact same ▸ not_infix_escapeEnds t
  · intro h
    induction t using ends_induction with
    | nil => rfl
    | ending t => exact absurd (List.prefix_append commentEnd t).isInfix h
    | cons c t other ih =>
      rw [List.infix_cons_iff, not_or] at h
      rw [escapeEnds_cons other, ih h.2]

/-- A text is made of pieces without an end of a comment, with ends between them; these are escaped. -/
theorem exists_pieces (t : Text) : ∃ pieces : List Text, pieces ≠ [] ∧ (∀ piece ∈ pieces, ¬ commentEnd <:+: piece) ∧
    t = List.intercalate commentEnd pieces ∧ escapeEnds t = List.intercalate escapedEnd pieces := by
  induction t using ends_induction with
  | nil => exact ⟨[[]], by simp, by decide, rfl, rfl⟩
  | ending t ih =>
    obtain ⟨pieces, nonempty, plain, whole, escaped⟩ := ih
    obtain ⟨piece, pieces, rfl⟩ := List.exists_cons_of_ne_nil nonempty
    refine ⟨[] :: piece :: pieces, by simp, List.forall_mem_cons.2 ⟨by decide, plain⟩, ?_, ?_⟩
    · rw [List.intercalate_cons_cons, ← whole, List.nil_append]
    · rw [escapeEnds_commentEnd, List.intercalate_cons_cons, ← escaped, List.nil_append]
  | cons c t other ih =>
    obtain ⟨pieces, nonempty, plain, whole, escaped⟩ := ih
    obtain ⟨piece, pieces, rfl⟩ := List.exists_cons_of_ne_nil nonempty
    have longer (separator : Text) : List.intercalate separator ((c :: piece) :: pieces) =
        c :: List.intercalate separator (piece :: pieces) := by
      cases pieces with
      | nil => simp
      | cons => simp [List.intercalate_cons_cons]
    rw [List.forall_mem_cons] at plain
    refine ⟨(c :: piece) :: pieces, by simp, List.forall_mem_cons.2 ⟨?_, plain.2⟩, ?_, ?_⟩
    · rw [List.infix_cons_iff, not_or]
      refine ⟨fun start => other ?_, plain.1⟩
      obtain ⟨rfl, slash⟩ := commentEnd_prefix_iff.1 start
      refine commentEnd_prefix_iff.2 ⟨rfl, ?_⟩
      obtain ⟨rest, rfl⟩ := List.head?_eq_some_iff.1 slash
      rw [whole]
      cases pieces <;> rfl
    · rw [longer, ← whole]
    · rw [longer, escapeEnds_cons other, escaped]

/-! ## Lines of comments -/

/-- A preserved tag stays what it is. -/
theorem escapeEnds_tag : ∀ tag ∈ preservedTags, escapeEnds tag = tag := by decide

theorem proseLine_escapeEnds (h : ProseLine line) : ProseLine (escapeEnds line) where
  ne_nil := by
    rw [← List.isSome_head?, head?_escapeEnds, List.isSome_head?]
    exact h.ne_nil
  trimmed := by
    rw [Text.trim_eq_self_iff, head?_escapeEnds, getLast?_escapeEnds, ← Text.trim_eq_self_iff]
    exact h.trimmed
  single := notMem_escapeEnds (by decide) h.single
  tag := by
    rw [head?_escapeEnds]
    intro head
    obtain ⟨tag, preserved, rest, rfl, blank⟩ := h.tag head
    refine ⟨tag, preserved, escapeEnds rest, ?_, by rwa [head?_escapeEnds]⟩
    rw [escapeEnds_append, escapeEnds_tag tag preserved]
    intro slash
    exact absurd (blank '/' slash) (by decide)

/-- Behind a star and a space, a line without ends of comments is found as it is. -/
theorem cleanLine_starred (h : ProseLine line) (plain : ¬ commentEnd <:+: line) :
    cleanLine (' ' :: '*' :: ' ' :: line) = line := by
  obtain ⟨first, rest, rfl⟩ := List.exists_cons_of_ne_nil h.ne_nil
  obtain ⟨-, last⟩ := Text.trim_eq_self_iff.1 h.trimmed
  have trimmed : trim (' ' :: '*' :: ' ' :: first :: rest) = '*' :: ' ' :: first :: rest := by
    rw [Text.trim_cons (by decide), Text.trim_eq_self_iff]
    refine ⟨fun c hc => ?_, last⟩
    obtain rfl := Option.some.inj hc
    decide
  have starts : dropStart "/**".toList ('*' :: ' ' :: first :: rest) = '*' :: ' ' :: first :: rest := rfl
  have ends : dropEnd "*/".toList ('*' :: ' ' :: first :: rest) = '*' :: ' ' :: first :: rest := by
    refine if_neg fun suffix => plain ?_
    have suffix : commentEnd <:+ '*' :: ' ' :: first :: rest := List.isSuffixOf_iff_suffix.1 suffix
    rw [List.suffix_cons_iff, List.suffix_cons_iff] at suffix
    rcases suffix with same | same | suffix
    · exact absurd same (by simp [commentEnd])
    · exact absurd same (by simp [commentEnd])
    · exact suffix.isInfix
  rw [cleanLine, trimmed, starts, ends]
  exact (Text.trim_cons (by decide) _).trans h.trimmed

theorem proseLines_docLine (blank : Blank indent) (h : ProseLine line) (rest : Text) :
    proseLines (docLine indent line ++ rest) = escapeEnds line :: proseLines rest := by
  have written : docLine indent line ++ rest = indent ++ (' ' :: '*' :: ' ' :: escapeEnds line) ++ '\n' :: rest := by
    rw [docLine, if_neg h.ne_nil]
    simp
  have escaped := proseLine_escapeEnds h
  have single : '\n' ∉ ' ' :: '*' :: ' ' :: escapeEnds line := by simpa using escaped.single
  rw [written, Docblock.proseLines_append, Docblock.proseLines_blank_append blank, Docblock.proseLines_of_single single,
    cleanLine_starred escaped (not_infix_escapeEnds line), List.filter_cons_of_pos escaped.isProse]
  rfl

theorem proseLines_docBlock (blank : Blank indent) {lines : List Text} (nonempty : lines ≠ [])
    (h : ∀ line ∈ lines, ProseLine line) :
    proseLines (docBlock (List.intercalate ['\n'] lines) indent) = lines.map escapeEnds := by
  have block : docBlock (List.intercalate ['\n'] lines) indent =
      indent ++ "/**".toList ++ '\n' :: (lines.flatMap (docLine indent) ++ (indent ++ " */\n".toList)) := by
    rw [docBlock, Docblock.lines_intercalate nonempty h]
    simp
  have first : proseLines (indent ++ "/**".toList) = [] := by
    rw [Docblock.proseLines_blank_append blank]
    rfl
  have last : proseLines (indent ++ " */\n".toList) = [] := by
    rw [Docblock.proseLines_blank_append blank]
    rfl
  rw [block, Docblock.proseLines_append, first, List.nil_append]
  clear block nonempty
  induction lines with
  | nil => exact last
  | cons line lines ih =>
    rw [List.forall_mem_cons] at h
    rw [List.flatMap_cons, List.append_assoc, proseLines_docLine blank h.1, ih h.2, List.map_cons]

/-- Lines are escaped one by one. -/
theorem escapeEnds_intercalate (lines : List Text) :
    escapeEnds (List.intercalate ['\n'] lines) = List.intercalate ['\n'] (lines.map escapeEnds) := by
  induction lines with
  | nil => rfl
  | cons line lines ih =>
    cases lines with
    | nil => rw [List.map_singleton, List.intercalate_singleton, List.intercalate_singleton]
    | cons next lines =>
      have feed (rest : Text) : escapeEnds ('\n' :: rest) = '\n' :: escapeEnds rest :=
        escapeEnds_cons fun start => absurd (commentEnd_prefix_iff.1 start).1 (by decide)
      rw [List.map_cons] at ih
      rw [List.intercalate_cons_cons, List.append_assoc, List.singleton_append, escapeEnds_append (by simp), feed, ih,
        List.map_cons, List.map_cons, List.intercalate_cons_cons, List.append_assoc, List.singleton_append]

/-- **Documentation survives.** The prose of a documentation block is written as a comment whose prose is the same, but
for a backslash in each end of a comment: between these stand the same texts. The prose is the same iff it has no
end of a comment in it. -/
theorem clean_docBlock {raw : Text} (h : clean raw = some d) (blank : Blank indent) :
    clean (docBlock d indent) = some (escapeEnds d) ∧
    (∃ pieces : List Text, (∀ piece ∈ pieces, ¬ commentEnd <:+: piece) ∧ d = List.intercalate commentEnd pieces ∧
      escapeEnds d = List.intercalate escapedEnd pieces) ∧
    (clean (docBlock d indent) = some d ↔ ¬ commentEnd <:+: d) := by
  have cleaned : clean (docBlock d indent) = some (escapeEnds d) := by
    obtain ⟨lines, nonempty, prose, rfl⟩ := Docblock.prose_of_clean h
    rw [Docblock.clean_eq_some_iff, proseLines_docBlock blank nonempty prose, escapeEnds_intercalate]
    exact ⟨mt List.map_eq_nil_iff.1 nonempty, rfl⟩
  obtain ⟨pieces, -, plain, whole, escaped⟩ := exists_pieces d
  refine ⟨cleaned, ⟨pieces, plain, whole, escaped⟩, ?_⟩
  rw [cleaned, Option.some_inj, escapeEnds_eq_self_iff]

/-- Lines that start with a star, with the start of a comment and with a tag, and an end of a comment. -/
theorem clean_docBlock_marks :
    clean "/**\n * * a */ b\n\t/**\t/** c\n * @see d/ */ */".toList = some "* a */ b\n/** c\n@see d/ */".toList ∧
    clean (docBlock "* a */ b\n/** c\n@see d/ */".toList "\t ".toList) =
      some "* a *\\/ b\n/** c\n@see d/ *\\/".toList := by
  have prose : clean "/**\n * * a */ b\n\t/**\t/** c\n * @see d/ */ */".toList =
      some "* a */ b\n/** c\n@see d/ */".toList := by decide +kernel
  have escaped : escapeEnds "* a */ b\n/** c\n@see d/ */".toList = "* a *\\/ b\n/** c\n@see d/ *\\/".toList := by
    decide +kernel
  rw [← escaped]
  exact ⟨prose, (clean_docBlock prose (by decide)).1⟩

end DeclGen.TypeScript
