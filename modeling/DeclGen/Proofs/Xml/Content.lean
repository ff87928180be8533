import DeclGen.Proofs.Outcome
import DeclGen.Proofs.Xml.Escape
import DeclGen.Proofs.Xml.Pieces

/-!
# Mixed content

The content of an element is escaped text with CDATA sections in it. Reading takes turns: references are resolved
up to the next start of a section, and what follows is copied up to the next end.

* `Text.cut?_eq_none_iff`, `Text.cut?_append_of_notMem` : where a part is cut out;
* `decodeText_of_section`, `decodeText_of_unterminated` : one turn;
* `Piece` : a piece of mixed content; `decodeText_append_pieces` : mixed content is read back;
* `cdataEnd_of_decodeText` : in content with a text, each start of a section has an end behind it;
* `decodeText_mixed` : both.
-/

namespace DeclGen

/-! ## Cutting parts out -/

namespace Text
variable {c : Char} {part word s t tail before rest : Text}

theorem cut?_eq_none_iff : cut? part t = none ↔ ¬ part <:+: t := by
  induction t with
  | nil => simp [cut?]
  | cons c t ih =>
    rw [List.infix_cons_iff, not_or, ← after?_eq_none_iff, ← ih, cut?]
    cases after? part (c :: t) with
    | some rest => simp
    | none => simp

theorem length_of_cut? (h : cut? part t = some (before, rest)) :
    t.length = before.length + part.length + rest.length := by
  rw [eq_append_of_cut? h, List.length_append, List.length_append]

/-- The part stands first behind a text without its first character. -/
theorem cut?_append_of_notMem (h : c ∉ before) (rest : Text) :
    cut? (c :: word) (before ++ (c :: word ++ rest)) = some (before, rest) := by
  induction before with
  | nil =>
    have found : after? (c :: word) (c :: word ++ rest) = some rest := after?_eq_some_iff.2 rfl
    rw [List.nil_append, List.cons_append, cut?, ← List.cons_append, found]
  | cons d before ih =>
    rw [List.mem_cons, not_or] at h
    rw [List.cons_append, cut?, after?, if_neg h.1, ih h.2]
    rfl

/-- A part is not made longer by what has not its last character. -/
theorem not_infix_append (h : ¬ word ++ [c] <:+: s) (hc : c ∉ tail) : ¬ word ++ [c] <:+: s ++ tail := by
  rintro ⟨before, after, whole⟩
  rcases List.append_eq_append_iff.1 whole with ⟨behind, inside, -⟩ | ⟨behind, longer, ends⟩
  · exact h ⟨before, behind, inside.symm⟩
  · rcases List.eq_nil_or_concat behind with rfl | ⟨front, d, rfl⟩
    · exact h ⟨before, [], by rw [longer, List.append_nil, List.append_nil]⟩
    · rw [← List.append_assoc, List.concat_eq_append, ← List.append_assoc] at longer
      obtain ⟨-, same⟩ := List.append_inj' longer rfl
      obtain rfl := (List.cons.inj same).1
      exact hc (ends ▸ by simp)

/-- Texts that end in different words without a common character are different. -/
theorem append_ne_append {u v : Text} (hu : u ≠ []) (hv : v ≠ []) (apart : u.Disjoint v) (s t : Text) :
    s ++ u ≠ t ++ v := by
  intro same
  have last := congrArg List.getLast? same
  rw [List.getLast?_append_of_ne_nil _ hu, List.getLast?_append_of_ne_nil _ hv,
    List.getLast?_eq_some_getLast hu] at last
  exact apart (List.getLast_mem hu) (List.mem_of_getLast? last.symm)

/-- A word at the end of a text that another one stands in, without a common character, stands behind it. -/
theorem exists_append_of_disjoint {u v y : Text} (hv : v ≠ []) (apart : u.Disjoint v)
    (same : s ++ u = t ++ v ++ y) : ∃ z, y = z ++ u := by
  rcases List.append_eq_append_iff.1 same with ⟨front, longer, word⟩ | ⟨z, -, behind⟩
  · rcases eq_or_ne front [] with rfl | hne
    · exact ⟨[], word.symm⟩
    · have inside : front ⊆ u := word ▸ List.subset_append_left front y
      exact absurd longer (append_ne_append hv hne (fun c hc hf => apart (inside hf) hc) t s)
  · exact ⟨z, behind⟩

end Text

namespace Xml
open Text (cut?)

variable {t u before body inside rest after : Text}

/-! ## One turn of reading -/

theorem length_lt_of_section (start : cut? cdataStart t = some (before, body))
    (stop : cut? cdataEnd body = some (inside, rest)) : rest.length < t.length := by
  have whole := Text.length_of_cut? start
  have inner := Text.length_of_cut? stop
  have positive : 0 < cdataStart.length := by decide
  omega

/-- The number of sections is no bound that matters. -/
theorem decodeFrom_eq {fuel : Nat} : ∀ {fuel' : Nat} {t : Text}, t.length ≤ fuel → t.length ≤ fuel' →
    decodeFrom fuel t = decodeFrom fuel' t := by
  induction fuel with
  | zero =>
    intro fuel' t h _
    obtain rfl := List.eq_nil_of_length_eq_zero (Nat.le_zero.1 h)
    cases fuel' <;> rfl
  | succ fuel ih =>
    intro fuel' t h h'
    cases t with
    | nil => cases fuel' <;> rfl
    | cons c t =>
      obtain ⟨fuel', rfl⟩ := Nat.exists_eq_succ_of_ne_zero (Nat.ne_zero_of_lt h')
      rw [decodeFrom, decodeFrom]
      cases start : cut? cdataStart (c :: t) with
      | none => rfl
      | some found =>
        obtain ⟨before, body⟩ := found
        cases stop : cut? cdataEnd body with
        | none => simp only [stop]
        | some found =>
          obtain ⟨inside, rest⟩ := found
          have shorter := length_lt_of_section start stop
          have enough : rest.length ≤ fuel := by omega
          have enough' : rest.length ≤ fuel' := by omega
          simp only [stop, ih enough enough']

/-- Reading goes on behind the first section. -/
theorem decodeText_of_section (start : cut? cdataStart t = some (before, body))
    (stop : cut? cdataEnd body = some (inside, rest)) : decodeText t =
      unescapePiece before >>= fun before => decodeText rest >>= fun rest => .ok (before ++ inside ++ rest) := by
  have shorter := length_lt_of_section start stop
  obtain ⟨fuel, hfuel⟩ := Nat.exists_eq_succ_of_ne_zero (n := t.length) (by omega)
  have enough : rest.length ≤ fuel := by omega
  unfold decodeText
  rw [hfuel]
  simp only [decodeFrom, start, stop, decodeFrom_eq enough (Nat.le_refl _)]
  rfl

theorem decodeText_of_unterminated (start : cut? cdataStart t = some (before, body))
    (stop : cut? cdataEnd body = none) : decodeText t = unescapePiece before >>= fun _ => .error .unterminatedCData := by
  have whole := Text.length_of_cut? start
  have positive : 0 < cdataStart.length := by decide
  obtain ⟨fuel, hfuel⟩ := Nat.exists_eq_succ_of_ne_zero (n := t.length) (by omega)
  unfold decodeText
  rw [hfuel]
  simp only [decodeFrom, start, stop]

/-! ## Reading what was written -/

/-- A piece of mixed content. -/
inductive Piece where
  /-- Text that is written with references. -/
  | escaped (t : Text)
  /-- Text that is written as a CDATA section. -/
  | verbatim (t : Text)
  deriving DecidableEq, Repr

namespace Piece

/-- How a piece is written. -/
def source : Piece → Text
  | escaped t => escape t
  | verbatim t => cdataStart ++ t ++ cdataEnd

/-- What a piece says. -/
def text : Piece → Text
  | escaped t => t
  | verbatim t => t

/-- A section ends at its first end. -/
def WellFormed : Piece → Prop
  | escaped _ => True
  | verbatim t => ¬ cdataEnd <:+: t

instance : DecidablePred WellFormed
  | escaped _ => inferInstanceAs (Decidable True)
  | verbatim t => inferInstanceAs (Decidable (¬ cdataEnd <:+: t))

end Piece

theorem cut?_cdataEnd (h : ¬ cdataEnd <:+: inside) (rest : Text) :
    cut? cdataEnd (inside ++ cdataEnd ++ rest) = some (inside, rest) := by
  have endless : ¬ [']', ']'] ++ ['>'] <:+: inside := h
  exact (Text.cut?_eq_some_iff (by decide)).2 ⟨rfl, Text.not_infix_append endless (by decide)⟩

/-- What is escaped in front of the pieces is read together with them. -/
theorem decodeText_append_pieces {ps : List Piece} (h : ∀ p ∈ ps, p.WellFormed) (u : Text) :
    decodeText (escape u ++ ps.flatMap Piece.source) = .ok (u ++ ps.flatMap Piece.text) := by
  induction ps generalizing u with
  | nil => simpa using decodeText_escape u
  | cons p ps ih =>
    rw [List.forall_mem_cons] at h
    rw [List.flatMap_cons, List.flatMap_cons]
    cases p with
    | escaped t =>
      have joined : escape u ++ escape t = escape (u ++ t) := List.flatMap_append.symm
      rw [Piece.source, ← List.append_assoc, joined, ih h.2, Piece.text, List.append_assoc]
    | verbatim t =>
      have start : cut? cdataStart (escape u ++ (cdataStart ++ (t ++ cdataEnd ++ ps.flatMap Piece.source))) =
          some (escape u, t ++ cdataEnd ++ ps.flatMap Piece.source) :=
        Text.cut?_append_of_notMem (escaped_escape u).notMem _
      have piece : unescapePiece (escape u) = .ok u := by rw [unescapePiece, unescape_escape]
      have others : decodeText (ps.flatMap Piece.source) = .ok (ps.flatMap Piece.text) := ih h.2 []
      have read := decodeText_of_section start (cut?_cdataEnd h.1 _)
      rw [piece, others, ok_bind, ok_bind] at read
      rw [Piece.source, Piece.text, List.append_assoc cdataStart, List.append_assoc cdataStart, read,
        List.append_assoc]

/-! ## Sections without an end -/

/-- Behind each start of a section in content that has a text, there is an end. -/
theorem cdataEnd_of_decodeText (h : decodeText t = .ok u) (parts : t = before ++ cdataStart ++ after) :
    cdataEnd <:+: after := by
  have differ : ∀ c ∈ cdataStart, c ∉ cdataEnd := Text.forall_mem_of_all (by decide)
  have apart : cdataStart.Disjoint cdataEnd := fun c => differ c
  induction hn : t.length using Nat.strongRecOn generalizing t u before with
  | ind n ih =>
    cases start : cut? cdataStart t with
    | none => exact absurd ⟨before, after, parts.symm⟩ (Text.cut?_eq_none_iff.1 start)
    | some found =>
      obtain ⟨front, body⟩ := found
      cases stop : cut? cdataEnd body with
      | none =>
        rw [decodeText_of_unterminated start stop, bind_eq_ok_iff] at h
        obtain ⟨_, -, h⟩ := h
        exact absurd h (by simp)
      | some found =>
        obtain ⟨inside, rest⟩ := found
        rw [decodeText_of_section start stop, bind_eq_ok_iff] at h
        obtain ⟨_, -, h⟩ := h
        obtain ⟨others, read, -⟩ := bind_eq_ok_iff.1 h
        have first := Text.eq_append_of_cut? start
        rw [Text.eq_append_of_cut? stop, parts, ← List.append_assoc, ← List.append_assoc, List.append_assoc _ cdataEnd]
          at first
        -- The start stands before the first end, or behind it.
        rcases List.append_eq_append_iff.1 first with ⟨more, -, ends⟩ | ⟨more, begins, ends⟩
        · exact ⟨more, rest, by rw [ends, List.append_assoc]⟩
        · rcases List.append_eq_append_iff.1 ends with ⟨behind, rfl, same⟩ | ⟨behind, same, rfl⟩
          · rw [← List.append_assoc] at begins
            obtain ⟨between, rfl⟩ := Text.exists_append_of_disjoint (by decide) apart begins
            exact ih rest.length (hn ▸ length_lt_of_section start stop) read same rfl
          · rcases eq_or_ne more [] with rfl | hne
            · exact ⟨[], rest, by rw [same]; rfl⟩
            · have part : more ⊆ cdataEnd := same ▸ List.subset_append_left more behind
              exact absurd begins (Text.append_ne_append (by decide) hne (fun c hc hm => apart hc (part hm)) _ _)

/-- **Mixed content.** Escaped texts and CDATA sections without the end of a section in them, in any order, are read
back as what they say. Content in which a section has no end gives an error. -/
theorem decodeText_mixed :
    (∀ ps : List Piece, (∀ p ∈ ps, p.WellFormed) → decodeText (ps.flatMap Piece.source) = .ok (ps.flatMap Piece.text)) ∧
    ∀ before after, ¬ cdataEnd <:+: after → ∃ fault, decodeText (before ++ cdataStart ++ after) = .error fault := by
  refine ⟨fun ps h => decodeText_append_pieces h [], fun before after endless => ?_⟩
  cases read : decodeText (before ++ cdataStart ++ after) with
  | ok text => exact absurd (cdataEnd_of_decodeText read rfl) endless
  | error fault => exact ⟨fault, rfl⟩

/-- The marks of a section inside of escaped text and of another section, and brackets in front of an end. -/
theorem decodeText_mixed_marks :
    decodeText "&lt;![CDATA[ &amp; ]]&gt;<![CDATA[<b> &amp; <![CDATA[ ]]]]><![CDATA[]]]>".toList =
      .ok "<![CDATA[ & ]]><b> &amp; <![CDATA[ ]]]".toList ∧
    ∃ fault, decodeText "<![CDATA[a]]> <![CDATA[b]]".toList = .error fault := by
  have pieces : ∃ ps : List Piece, (∀ p ∈ ps, p.WellFormed) ∧
      ps.flatMap Piece.source = "&lt;![CDATA[ &amp; ]]&gt;<![CDATA[<b> &amp; <![CDATA[ ]]]]><![CDATA[]]]>".toList ∧
      ps.flatMap Piece.text = "<![CDATA[ & ]]><b> &amp; <![CDATA[ ]]]".toList :=
    ⟨[.escaped "<![CDATA[ & ]]>".toList, .verbatim "<b> &amp; <![CDATA[ ]]".toList, .verbatim "]".toList],
      by decide +kernel⟩
  obtain ⟨ps, wellFormed, source, text⟩ := pieces
  rw [← source, ← text]
  exact ⟨decodeText_mixed.1 ps wellFormed, decodeText_mixed.2 "<![CDATA[a]]> ".toList "b]]".toList (by decide +kernel)⟩

end Xml

end DeclGen
