import DeclGen.Docblock
import DeclGen.Proofs.Text

/-!
# Prose of documentation blocks

The prose of a block is what its lines say, one by one. Each line is trimmed and cut where a line feed stands, so that
neither blanks at the ends of lines nor the kind of a line's end make a difference.

* `proseLines_eq`, `proseLines_append`, `proseLines_blank_append` : the lines of the prose, from the pieces between
  line feeds;
* `ProseLine`, `Prose` : what a line of the prose, and the prose, look like; `prose_of_clean`;
* `lines_intercalate` : the lines of the prose are found in it again.
-/

namespace DeclGen.Docblock
open Text (Blank isBlank split trim)

variable {line raw d s t : Text}

/-! ## Lines -/

theorem trim_dropReturn (t : Text) : trim (Text.dropReturn t) = trim t := by
  unfold Text.dropReturn
  split
  · next last =>
    obtain ⟨front, rfl⟩ := List.getLast?_eq_some_iff.1 last
    rw [List.dropLast_concat, Text.trim_concat (by decide)]
  · rfl

theorem cleanLine_congr (same : trim s = trim t) : cleanLine s = cleanLine t := by
  rw [cleanLine, cleanLine, same]

theorem filter_cleanLine_linesOf (pieces : List Text) :
    ((Text.linesOf pieces).map cleanLine).filter isProse = (pieces.map cleanLine).filter isProse := by
  induction pieces using Text.linesOf.induct with
  | case1 => rfl
  | case2 => rfl
  | case3 last nonempty => rw [Text.linesOf, if_neg nonempty]
  | case4 piece next pieces ih =>
    rw [Text.linesOf, List.map_cons, List.map_cons, List.filter_cons, List.filter_cons, ih,
      cleanLine_congr (trim_dropReturn piece)]

/-- The lines of the prose come from the pieces between line feeds. -/
theorem proseLines_eq (raw : Text) : proseLines raw = ((split (· = '\n') raw).map cleanLine).filter isProse :=
  filter_cleanLine_linesOf _

theorem proseLines_append (s t : Text) : proseLines (s ++ '\n' :: t) = proseLines s ++ proseLines t := by
  rw [proseLines_eq, Text.split_append_cons (by decide), List.map_append, List.filter_append, ← proseLines_eq,
    ← proseLines_eq]

theorem proseLines_cons {c : Char} (hc : isBlank c = true) (t : Text) : proseLines (c :: t) = proseLines t := by
  obtain ⟨piece, pieces, hs⟩ := List.exists_cons_of_ne_nil (Text.split_ne_nil (· = '\n') t)
  rw [proseLines_eq, proseLines_eq, split, hs]
  split
  · rfl
  · rw [List.map_cons, List.map_cons, cleanLine_congr (Text.trim_cons hc piece)]

theorem proseLines_blank_append {indent : Text} (blank : Blank indent) (t : Text) :
    proseLines (indent ++ t) = proseLines t := by
  induction indent with
  | nil => rfl
  | cons c indent ih =>
    rw [Blank, List.forall_mem_cons] at blank
    rw [List.cons_append, proseLines_cons blank.1, ih blank.2]

/-- A text without line feeds has at most one line of prose. -/
theorem proseLines_of_single (single : '\n' ∉ line) : proseLines line = [cleanLine line].filter isProse := by
  rw [proseLines_eq, Text.split_of_notMem single, List.map_singleton]

/-! ## What prose looks like -/

theorem cleanLine_subset (line : Text) : cleanLine line ⊆ line := by
  have starts : dropStart "/**".toList (trim line) ⊆ trim line := by
    unfold dropStart
    cases found : Text.after? "/**".toList (trim line) with
    | none => exact List.Subset.refl _
    | some rest =>
      rw [Text.after?_eq_some_iff.1 found]
      exact List.subset_append_right _ _
  have ends (t : Text) : dropEnd "*/".toList t ⊆ t := by
    unfold dropEnd
    split
    · exact List.take_subset _ _
    · exact List.Subset.refl _
  have stars := (List.dropWhile_suffix (l := dropEnd "*/".toList (dropStart "/**".toList (trim line)))
    (· = '*')).subset
  intro c hc
  have kept := starts (ends _ (stars ((Text.isInfix_trim _).subset hc)))
  exact (Text.isInfix_trim line).subset kept

theorem trim_cleanLine (line : Text) : trim (cleanLine line) = cleanLine line := Text.trim_trim _

theorem isPreserved_iff : isPreserved line = true ↔
    ∃ tag ∈ preservedTags, ∃ rest, line = tag ++ rest ∧ ∀ c ∈ rest.head?, isBlank c = true := by
  rw [isPreserved, List.any_eq_true]
  refine exists_congr fun tag => and_congr_right fun _ => ?_
  simp only [← Text.after?_eq_some_iff]
  rcases Text.after? tag line with _ | _ | ⟨c, rest⟩
  · simp
  · simp
  · simp

theorem isProse_iff : isProse line = true ↔ line ≠ [] ∧ (line.head? = some '@' → isPreserved line = true) := by
  unfold isProse
  split
  · simp
  · simp
  · next nonempty other =>
    refine iff_of_true rfl ⟨nonempty, fun head => ?_⟩
    obtain ⟨rest, rfl⟩ := List.head?_eq_some_iff.1 head
    exact absurd rfl (other rest)

/-- A line of the prose: it starts with an at sign only if it starts with a preserved tag. -/
structure ProseLine (line : Text) : Prop where
  ne_nil : line ≠ []
  trimmed : trim line = line
  single : '\n' ∉ line
  tag : line.head? = some '@' →
    ∃ tag ∈ preservedTags, ∃ rest, line = tag ++ rest ∧ ∀ c ∈ rest.head?, isBlank c = true

/-- One or more lines of prose. -/
def Prose (d : Text) : Prop :=
  ∃ lines, lines ≠ [] ∧ (∀ line ∈ lines, ProseLine line) ∧ d = List.intercalate ['\n'] lines

theorem ProseLine.isProse (h : ProseLine line) : isProse line = true :=
  isProse_iff.2 ⟨h.ne_nil, fun head => isPreserved_iff.2 (h.tag head)⟩

theorem proseLine_of_mem (h : line ∈ proseLines raw) : ProseLine line := by
  rw [proseLines_eq, List.mem_filter] at h
  obtain ⟨cleaned, prose⟩ := h
  obtain ⟨piece, hp, rfl⟩ := List.mem_map.1 cleaned
  obtain ⟨nonempty, preserved⟩ := isProse_iff.1 prose
  refine ⟨nonempty, trim_cleanLine piece, fun feed => ?_, fun head => isPreserved_iff.1 (preserved head)⟩
  exact absurd (Text.eq_false_of_mem_split hp '\n' (cleanLine_subset piece feed)) (by decide)

theorem clean_eq_some_iff : clean raw = some d ↔ proseLines raw ≠ [] ∧ d = List.intercalate ['\n'] (proseLines raw) := by
  rw [clean]
  cases proseLines raw with
  | nil => simp
  | cons line lines => simp [eq_comm]

theorem prose_of_clean (h : clean raw = some d) : Prose d := by
  obtain ⟨nonempty, rfl⟩ := clean_eq_some_iff.1 h
  exact ⟨proseLines raw, nonempty, fun line => proseLine_of_mem, rfl⟩

theorem linesOf_eq_self {lines : List Text} (h : ∀ line ∈ lines, line ≠ [] ∧ line.getLast? ≠ some '\r') :
    Text.linesOf lines = lines := by
  induction lines using Text.linesOf.induct with
  | case1 => rfl
  | case2 => exact absurd rfl (h [] List.mem_cons_self).1
  | case3 last nonempty => rw [Text.linesOf, if_neg nonempty]
  | case4 piece next pieces ih =>
    rw [List.forall_mem_cons] at h
    rw [Text.linesOf, ih h.2, Text.dropReturn, if_neg h.1.2]

theorem lines_intercalate {lines : List Text} (nonempty : lines ≠ []) (h : ∀ line ∈ lines, ProseLine line) :
    Text.lines (List.intercalate ['\n'] lines) = lines := by
  rw [Text.lines, Text.split_intercalate nonempty fun line hl => (h line hl).single]
  refine linesOf_eq_self fun line hl => ⟨(h line hl).ne_nil, fun last => ?_⟩
  obtain ⟨-, solid⟩ := Text.trim_eq_self_iff.1 (h line hl).trimmed
  exact absurd (solid '\r' last) (by decide)

end DeclGen.Docblock
