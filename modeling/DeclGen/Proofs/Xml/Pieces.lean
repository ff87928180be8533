import DeclGen.Proofs.Xml.Markup
import Mathlib.Data.List.Chain

/-!
# Texts made of whole pieces

* `Text.cut?_eq_some_iff` : a part is cut out where it stands first;
* `next_append` : a piece is read the same whatever follows it, unless it is a run of text that goes on;
* `Sequence` : pieces that can stand one behind the other; `readIn_sequence` : they are read as they are,
  `sequence_readIn`, `exists_sequence` : a text starts with such pieces, and without a fault consists of them;
* `opened?` : the elements that are open behind a text of whole pieces.
-/

namespace DeclGen

/-! ## First occurrences -/

namespace Text

theorem isPrefixOf_append_cons {word : Text} {c : Char} (hc : c ∉ word) (front rest rest' : Text) :
    word.isPrefixOf (front ++ c :: rest) = word.isPrefixOf (front ++ c :: rest') := by
  induction word generalizing front with
  | nil => rfl
  | cons d word ih =>
    rw [List.mem_cons, not_or] at hc
    cases front with
    | nil =>
      have other : (d == c) = false := beq_eq_false_iff_ne.2 (Ne.symm hc.1)
      simp only [List.nil_append, List.isPrefixOf, other, Bool.false_and]
    | cons e front =>
      show (d == e && word.isPrefixOf (front ++ c :: rest)) = (d == e && word.isPrefixOf (front ++ c :: rest'))
      rw [ih hc.2 front]

theorem after?_eq_none_iff {start t : Text} : after? start t = none ↔ ¬ start <+: t := by
  rw [Option.eq_none_iff_forall_ne_some, List.IsPrefix, not_exists]
  refine forall_congr' fun rest => not_congr ?_
  rw [after?_eq_some_iff]
  exact eq_comm

/-- The part stands first where no occurrence of it ends before. -/
theorem cut?_eq_some_iff {part t before rest : Text} (hne : part ≠ []) :
    cut? part t = some (before, rest) ↔ t = before ++ part ++ rest ∧ ¬ part <:+: before ++ part.dropLast := by
  have shorter : part.dropLast.length < part.length := by
    have positive := List.length_pos_iff.2 hne
    rw [List.length_dropLast]
    omega
  constructor
  · intro h
    refine ⟨eq_append_of_cut? h, ?_⟩
    induction t generalizing before with
    | nil => simp [cut?, hne] at h
    | cons c t ih =>
      rw [cut?] at h
      split at h
      · next found =>
        obtain ⟨rfl, rfl⟩ := Prod.mk.inj (Option.some.inj h)
        intro inside
        have := inside.length_le
        rw [List.nil_append] at this
        omega
      · next missing =>
        obtain ⟨⟨inner, after⟩, found, same⟩ := Option.map_eq_some_iff.1 h
        obtain ⟨rfl, rfl⟩ := Prod.mk.inj same
        rw [List.cons_append, List.infix_cons_iff, not_or]
        refine ⟨fun start => after?_eq_none_iff.1 missing (start.trans ?_), ih found⟩
        rw [eq_append_of_cut? found, List.append_assoc, ← List.cons_append]
        exact (List.prefix_append_right_inj _).2 ((List.dropLast_prefix part).trans (List.prefix_append _ _))
  · rintro ⟨rfl, first⟩
    induction before with
    | nil =>
      obtain ⟨c, word, rfl⟩ := List.exists_cons_of_ne_nil hne
      have found : after? (c :: word) (c :: (word ++ rest)) = some rest := after?_eq_some_iff.2 rfl
      simp only [List.nil_append, List.cons_append, cut?, found]
    | cons c before ih =>
      rw [List.cons_append, List.infix_cons_iff, not_or] at first
      have missing : after? part (c :: (before ++ part ++ rest)) = none := by
        rw [after?_eq_none_iff]
        intro start
        refine first.1 (List.prefix_of_prefix_length_le start ?_ ?_)
        · rw [List.append_assoc, ← List.cons_append, ← List.cons_append]
          exact (List.prefix_append_right_inj _).2 ((List.dropLast_prefix part).trans (List.prefix_append _ _))
        · rw [List.length_cons, List.length_append, List.length_dropLast]
          omega
      rw [List.cons_append, List.cons_append, cut?, missing, ih first.2]
      rfl

/-- What follows the part makes no difference. -/
theorem cut?_append {part t before rest : Text} (hne : part ≠ []) (h : cut? part t = some (before, rest))
    (rest' : Text) : cut? part (before ++ part ++ rest') = some (before, rest') :=
  (cut?_eq_some_iff hne).2 ⟨rfl, ((cut?_eq_some_iff hne).1 h).2⟩

end Text

/-! ## Document types -/

namespace Xml.Doctype

theorem enter_append_angle (front rest rest' : Text) :
    enter (front ++ '>' :: rest) = enter (front ++ '>' :: rest') := by
  have same (word : Text) (h : '>' ∉ word) := Text.isPrefixOf_append_cons h front rest rest'
  have first : (front ++ '>' :: rest).head? = (front ++ '>' :: rest').head? := by cases front <;> rfl
  simp only [enter, first, same "!--".toList (by decide), same "!ENTITY".toList (by decide),
    same "!ATTLIST".toList (by decide), same "!NOTATION".toList (by decide)]

/-- Nothing behind an angle is looked at. -/
theorem step_append_angle (place : Place) (c : Char) (front rest rest' : Text) :
    step place c (front ++ '>' :: rest) = step place c (front ++ '>' :: rest') := by
  unfold step
  rw [enter_append_angle front rest rest']

theorem step_eq_none {place : Place} {c : Char} {t : Text} (h : step place c t = none) (t' : Text) :
    step place c t' = none := by
  unfold step at h ⊢
  split at h <;> grind

theorem close?_append {place : Place} {t content rest : Text} (h : close? place t = some (content, rest))
    (rest' : Text) : close? place (content ++ '>' :: rest') = some (content, rest') := by
  induction t generalizing place content with
  | nil => simp [close?] at h
  | cons c t ih =>
    rw [close?] at h
    split at h
    · next closed =>
      obtain ⟨rfl, rfl⟩ := Prod.mk.inj (Option.some.inj h)
      obtain rfl := eq_angle_of_step closed
      rw [List.nil_append, close?, step_eq_none closed rest']
    · next inner hstep =>
      obtain ⟨⟨inside, after⟩, found, same⟩ := Option.map_eq_some_iff.1 h
      obtain ⟨rfl, rfl⟩ := Prod.mk.inj same
      rw [eq_append_of_close? found, step_append_angle _ _ _ _ rest'] at hstep
      rw [List.cons_append, close?, hstep]
      show (close? inner (inside ++ '>' :: rest')).map _ = _
      rw [ih found]
      rfl

end Xml.Doctype

namespace Xml.Markup
variable {t rest : Text} {piece : Markup}

/-! ## One piece -/

theorem closeTag_append {quote : Option Char} {content : Text} (h : closeTag quote t = .ok (content, rest))
    (rest' : Text) : closeTag quote (content ++ '>' :: rest') = .ok (content, rest') := by
  induction t generalizing quote content with
  | nil => unfold closeTag at h; split at h <;> simp at h
  | cons c t ih =>
    rw [closeTag] at h
    split at h
    · next closes =>
      obtain ⟨rfl, rfl⟩ := Prod.mk.inj (Except.ok.inj h)
      obtain ⟨rfl, rfl⟩ : quote = none ∧ c = '>' := by simpa using closes
      rfl
    · next goes =>
      obtain ⟨⟨inside, after⟩, found, same⟩ := bind_eq_ok_iff.1 h
      obtain ⟨rfl, rfl⟩ := Prod.mk.inj (Except.ok.inj same)
      rw [List.cons_append, closeTag, if_neg goes, ih found]
      rfl

/-- A tag starts with none of the characters of other markup. -/
def StartsTag (t : Text) : Prop := t ≠ [] ∧ ∀ c ∈ t.head?, c ≠ '!' ∧ c ≠ '/' ∧ c ≠ '?'

theorem next_of_startsTag (h : StartsTag t) : next ('<' :: t) = tag t := by
  obtain ⟨hne, first⟩ := h
  obtain ⟨c, t, rfl⟩ := List.exists_cons_of_ne_nil hne
  obtain ⟨bang, slash, mark⟩ := first c rfl
  simp [next, bang, slash, mark]

theorem tag_append (h : tag t = .ok (piece, rest)) : ∃ content, t = content ++ '>' :: rest ∧
    piece.source = '<' :: content ++ ['>'] ∧ ∀ rest', tag (content ++ '>' :: rest') = .ok (piece, rest') := by
  unfold tag at h
  obtain ⟨⟨content, after⟩, closed, h⟩ := bind_eq_ok_iff.1 h
  have goes (rest' : Text) : tag (content ++ '>' :: rest') = if content.getLast? = some '/' then
      .ok (selfClosing content.dropLast, rest') else .ok (opening content, rest') := by
    rw [tag, closeTag_append closed]
    rfl
  dsimp only at h
  split at h
  · next slash =>
    obtain ⟨rfl, rfl⟩ := Prod.mk.inj (Except.ok.inj h)
    refine ⟨content, eq_append_of_closeTag closed, ?_, fun rest' => (goes rest').trans (if_pos slash)⟩
    obtain ⟨front, rfl⟩ := List.getLast?_eq_some_iff.1 slash
    simp [source]
  · next plain =>
    obtain ⟨rfl, rfl⟩ := Prod.mk.inj (Except.ok.inj h)
    exact ⟨content, eq_append_of_closeTag closed, rfl, fun rest' => (goes rest').trans (if_neg plain)⟩

theorem closingTag_append (h : closingTag t = .ok (piece, rest)) : ∃ content, piece = closing content ∧
    ∀ rest', closingTag (content ++ '>' :: rest') = .ok (piece, rest') := by
  unfold closingTag at h
  obtain ⟨⟨content, after⟩, closed, h⟩ := bind_eq_ok_iff.1 h
  obtain ⟨rfl, rfl⟩ := Prod.mk.inj (Except.ok.inj h)
  refine ⟨content, rfl, fun rest' => ?_⟩
  rw [closingTag, closeTag_append closed]
  rfl

/-- The reader takes, behind `lead`, a piece without meaning, and does not look at what follows it. -/
def InertBehind (reader : Text → Step) (lead : Text) (piece : Markup) : Prop :=
  ∃ content, piece = inert (lead ++ content) ∧ ∀ rest', reader (content ++ rest') = .ok (piece, rest')

theorem inertBehind_of_eq {reader : Text → Step} {lead : Text} (content : Text)
    (h : ∀ rest', reader (content ++ rest') = .ok (inertUpTo (lead ++ (content ++ rest')) rest', rest')) :
    InertBehind reader lead (inertUpTo (lead ++ (content ++ rest)) rest) := by
  have taken (rest : Text) : inertUpTo (lead ++ (content ++ rest)) rest = inert (lead ++ content) := by
    rw [← List.append_assoc, inertUpTo_append]
  exact ⟨content, taken rest, fun rest' => by rw [h, taken, taken]⟩

theorem instruction_append (h : instruction t = .ok (piece, rest)) : InertBehind instruction ['<', '?'] piece := by
  unfold instruction at h
  split at h
  · simp at h
  · next before after hne cut =>
    obtain ⟨rfl, rfl⟩ := Prod.mk.inj (Except.ok.inj h)
    obtain ⟨c, before, rfl⟩ := List.exists_cons_of_ne_nil hne
    obtain ⟨rfl, rfl⟩ := List.cons.inj (Text.eq_append_of_cut? cut)
    refine inertBehind_of_eq (before ++ "?>".toList) fun rest' => ?_
    have found : Text.cut? "?>".toList ('?' :: (before ++ "?>".toList ++ rest')) = some ('?' :: before, rest') :=
      Text.cut?_append (by decide) cut rest'
    rw [instruction, found]
    rfl
  · split at h <;> simp at h

theorem cdata_append (h : cdata t = .ok (piece, rest)) : InertBehind cdata ['<', '!'] piece := by
  unfold cdata at h
  split at h
  · next before after cut =>
    split at h
    · next starts =>
      obtain ⟨rfl, rfl⟩ := Prod.mk.inj (Except.ok.inj h)
      obtain rfl := Text.eq_append_of_cut? cut
      refine inertBehind_of_eq (before ++ "]]>".toList) fun rest' => ?_
      have still : "[CDATA[".toList.isPrefixOf (before ++ "]]>".toList ++ rest') = true := by
        rw [← starts, List.append_assoc, List.append_assoc]
        exact Text.isPrefixOf_append_cons (by decide) before _ _
      rw [cdata, Text.cut?_append (by decide) cut]
      exact if_pos still
    · simp at h
  · simp at h

theorem comment_append (h : comment t = .ok (piece, rest)) : InertBehind comment ['<', '!'] piece := by
  unfold comment at h
  split at h
  · next before after cut =>
    split at h
    · next starts =>
      obtain ⟨rfl, rfl⟩ := Prod.mk.inj (Except.ok.inj h)
      obtain ⟨t, rfl⟩ := List.isPrefixOf_iff_prefix.1 starts
      obtain rfl : t = before ++ "-->".toList ++ after := Text.eq_append_of_cut? cut
      refine inertBehind_of_eq ("--".toList ++ (before ++ "-->".toList)) fun rest' => ?_
      have found : Text.cut? "-->".toList ((before ++ "-->".toList) ++ rest') = some (before, rest') :=
        Text.cut?_append (by decide) cut rest'
      show comment ('-' :: '-' :: (before ++ "-->".toList ++ rest')) = _
      simp only [comment, List.drop_succ_cons, List.drop_zero, found]
      rfl
    · simp at h
  · simp at h

theorem doctype_append (h : doctype t = .ok (piece, rest)) : InertBehind doctype ['<', '!'] piece := by
  unfold doctype at h
  split at h
  · simp at h
  · next content after closed =>
    split at h
    · next word =>
      split at h
      · simp at h
      · next named =>
        obtain ⟨rfl, rfl⟩ := Prod.mk.inj (Except.ok.inj h)
        obtain rfl := Doctype.eq_append_of_close? closed
        have shape (rest : Text) : content ++ '>' :: rest = (content ++ ['>']) ++ rest := by simp
        rw [shape]
        refine inertBehind_of_eq _ fun rest' => ?_
        rw [← shape, doctype, Doctype.close?_append closed]
        simp only [if_pos word, if_neg named]
        rfl
    · simp at h

theorem InertBehind.dispatch {reader reader' : Text → Step} {lead : Text} {c : Char}
    (taken : InertBehind reader lead piece) (starts : piece.source ++ rest = lead ++ c :: t)
    (stuck : ∀ found, reader [] ≠ .ok found) (same : ∀ t, reader' (c :: t) = reader (c :: t)) :
    InertBehind reader' lead piece := by
  obtain ⟨content, rfl, all⟩ := taken
  have whole : content ++ rest = c :: t := by
    rw [source, List.append_assoc] at starts
    exact List.append_cancel_left starts
  cases content with
  | nil => exact absurd (all []) (stuck _)
  | cons d content =>
    obtain ⟨rfl, -⟩ := List.cons.inj whole
    exact ⟨d :: content, rfl, fun rest' => (same _).trans (all rest')⟩

/-- Behind a bang, the first character tells what markup this is. -/
theorem declaration_append (h : declaration t = .ok (piece, rest)) : InertBehind declaration ['<', '!'] piece := by
  have starts := (starts_of_declaration h).1
  unfold declaration at h
  split at h
  · exact (cdata_append h).dispatch starts (by simp [cdata, Text.cut?]) fun _ => rfl
  · exact (comment_append h).dispatch starts (by simp [comment, Text.cut?]) fun _ => rfl
  · exact (doctype_append h).dispatch starts (by simp [doctype, Doctype.close?]) fun _ => rfl
  · exact (doctype_append h).dispatch starts (by simp [doctype, Doctype.close?]) fun _ => rfl
  · simp at h

theorem reference_append (h : reference t = .ok (piece, rest)) : InertBehind reference ['&'] piece := by
  unfold reference at h
  split at h
  · next after found =>
    obtain ⟨rfl, rfl⟩ := Prod.mk.inj (Except.ok.inj h)
    have parts := List.takeWhile_append_dropWhile (p := (!endsReference ·)) (l := t)
    have name : ∀ c ∈ t.takeWhile (!endsReference ·), (!endsReference c) = true :=
      List.all_eq_true.1 List.all_takeWhile
    rw [found] at parts
    generalize t.takeWhile (!endsReference ·) = word at parts name
    subst parts
    have shape (rest : Text) : word ++ ';' :: rest = (word ++ [';']) ++ rest := by simp
    rw [shape]
    refine inertBehind_of_eq _ fun rest' => ?_
    rw [← shape, reference, Text.dropWhile_append_of_head? name (by simp [endsReference])]
    rfl
  · simp at h

/-! ## Whole pieces -/

/-- A run of text: what follows it may lengthen it, if it does not start another piece. -/
def isText : Markup → Bool
  | inert (c :: _) => !endsText c
  | _ => false

/-- The piece ends where the text goes on. -/
def Ends (piece : Markup) (rest : Text) : Prop := piece.isText = true → ∀ c ∈ rest.head?, endsText c = true

theorem Ends.of_not_isText (h : piece.isText = false) (rest : Text) : piece.Ends rest :=
  fun text => absurd (h.symm.trans text) (by simp)

theorem endsText_eq_false_of_ne {c : Char} (angle : c ≠ '<') (ampersand : c ≠ '&') : endsText c = false := by
  simp [endsText, angle, ampersand]

/-- **Pieces stand on their own.** A piece that is read before something is read before anything else. -/
theorem next_append {c : Char} (h : next (c :: t) = .ok (piece, rest)) {rest' : Text} (ends : piece.Ends rest') :
    next (piece.source ++ rest') = .ok (piece, rest') := by
  unfold next at h
  split at h
  · split at h
    · simp at h
    · obtain ⟨content, rfl, taken⟩ := declaration_append h
      exact taken rest'
    · obtain ⟨content, rfl, taken⟩ := closingTag_append h
      show closingTag (content ++ ['>'] ++ rest') = _
      rw [List.append_assoc]
      exact taken rest'
    · obtain ⟨content, rfl, taken⟩ := instruction_append h
      exact taken rest'
    · next t _ bang slash mark =>
      obtain ⟨content, rfl, shape, taken⟩ := tag_append h
      have starts : StartsTag (content ++ '>' :: rest') := by
        refine ⟨by simp, ?_⟩
        cases content with
        | nil => simp
        | cons d content =>
          intro e he
          obtain rfl := Option.some.inj he
          refine ⟨?_, ?_, ?_⟩
          · rintro rfl
            exact bang _ rfl
          · rintro rfl
            exact slash _ rfl
          · rintro rfl
            exact mark _ rfl
      rw [shape, List.append_assoc, List.singleton_append, List.cons_append, next_of_startsTag starts, taken]
  · obtain ⟨content, rfl, taken⟩ := reference_append h
    exact taken rest'
  · next noAngle noAmpersand =>
    have plain : endsText c = false := endsText_eq_false_of_ne
      (fun hc => noAngle t (by rw [hc])) (fun hc => noAmpersand t (by rw [hc]))
    rw [List.takeWhile_cons_of_pos (by rw [plain]; rfl)] at h
    obtain ⟨rfl, rfl⟩ := Prod.mk.inj (Except.ok.inj h)
    have word : ∀ d ∈ t.takeWhile (!endsText ·), (!endsText d) = true := List.all_eq_true.1 List.all_takeWhile
    have stop : ∀ d ∈ rest'.head?, (!endsText d) = false := by
      intro d hd
      rw [ends (by rw [isText, plain]; rfl) d hd]
      rfl
    show next (c :: (t.takeWhile (!endsText ·) ++ rest')) = _
    rw [next_text plain, Text.takeWhile_append_of_head? word stop, Text.dropWhile_append_of_head? word stop]

/-- The piece is read as it stands. -/
def Whole (piece : Markup) : Prop := piece.source ≠ [] ∧ next piece.source = .ok (piece, [])

instance (piece : Markup) : Decidable piece.Whole :=
  inferInstanceAs (Decidable (piece.source ≠ [] ∧ next piece.source = .ok (piece, [])))

theorem whole_of_next {c : Char} (h : next (c :: t) = .ok (piece, rest)) : piece.Whole := by
  obtain ⟨starts, shorter⟩ := starts_of_next h
  refine ⟨?_, ?_⟩
  · intro empty
    rw [empty, List.nil_append] at starts
    subst starts
    exact absurd shorter (Nat.lt_irrefl _)
  · have alone : next (piece.source ++ []) = .ok (piece, []) := next_append h fun _ d hd => absurd hd (by simp)
    rwa [List.append_nil] at alone

theorem Whole.next_append (h : piece.Whole) (ends : piece.Ends rest) :
    next (piece.source ++ rest) = .ok (piece, rest) := by
  obtain ⟨hne, alone⟩ := h
  obtain ⟨c, source, hs⟩ := List.exists_cons_of_ne_nil hne
  rw [hs] at alone
  exact Markup.next_append alone ends

/-- The first character tells a run of text from other markup. -/
theorem isText_eq {c : Char} {text : Text} (h : piece.source = c :: text) : piece.isText = !endsText c := by
  cases piece with
  | inert run =>
    obtain rfl : run = c :: text := h
    rfl
  | opening tag =>
    obtain ⟨rfl, -⟩ := List.cons.inj h
    rfl
  | selfClosing tag =>
    obtain ⟨rfl, -⟩ := List.cons.inj h
    rfl
  | closing ending =>
    obtain ⟨rfl, -⟩ := List.cons.inj h
    rfl

theorem isText_eq_false_iff (hne : piece.source ≠ []) (rest : Text) :
    piece.isText = false ↔ ∀ c ∈ (piece.source ++ rest).head?, endsText c = true := by
  obtain ⟨c, text, hs⟩ := List.exists_cons_of_ne_nil hne
  rw [isText_eq hs, hs]
  simp

theorem isText_of_next {c : Char} (h : next (c :: t) = .ok (piece, rest)) : piece.isText = !endsText c := by
  obtain ⟨d, text, hs⟩ := List.exists_cons_of_ne_nil (whole_of_next h).1
  have starts := (starts_of_next h).1
  rw [hs] at starts
  obtain ⟨rfl, -⟩ := List.cons.inj starts
  exact isText_eq hs

/-- A run of text goes up to the next piece. -/
theorem ends_of_next {c : Char} (h : next (c :: t) = .ok (piece, rest)) : piece.Ends rest := by
  intro text
  rw [isText_of_next h] at text
  have plain : endsText c = false := by simpa using text
  rw [next_text plain] at h
  obtain ⟨-, rfl⟩ := Prod.mk.inj (Except.ok.inj h)
  intro d hd
  simpa using Text.head?_dropWhile t d hd

/-- A run of text is text throughout. -/
theorem exists_plain (whole : piece.Whole) (text : piece.isText = true) :
    ∃ source, piece = inert source ∧ ∀ c ∈ source, (!endsText c) = true := by
  obtain ⟨c, source, hs⟩ := List.exists_cons_of_ne_nil whole.1
  have alone := whole.2
  rw [isText_eq hs] at text
  rw [hs, next_text (by simpa using text)] at alone
  obtain ⟨rfl, stop⟩ := Prod.mk.inj (Except.ok.inj alone)
  refine ⟨_, rfl, List.forall_mem_cons.2 ⟨text, fun d hd => ?_⟩⟩
  exact List.all_eq_true.1 List.all_takeWhile d hd

/-- A comment goes up to the first end of a comment. -/
theorem whole_comment {body : Text} (closed : ¬ "-->".toList <:+: body ++ "--".toList) :
    (inert ("<!--".toList ++ body ++ "-->".toList)).Whole := by
  have found : Text.cut? "-->".toList (body ++ "-->".toList) = some (body, []) :=
    (Text.cut?_eq_some_iff (by decide)).2 ⟨(List.append_nil _).symm, closed⟩
  refine ⟨by simp [source], ?_⟩
  have shape : (inert ("<!--".toList ++ body ++ "-->".toList)).source =
      '<' :: '!' :: '-' :: '-' :: (body ++ "-->".toList) := by
    simp [source]
  rw [shape]
  show comment ('-' :: '-' :: (body ++ "-->".toList)) = _
  simp only [comment, List.drop_succ_cons, List.drop_zero, found]
  show Except.ok (inertUpTo _ [], []) = _
  rw [inertUpTo, List.length_nil, Nat.sub_zero, List.take_length]
  exact congrArg (fun text => Except.ok (inert text, [])) shape.symm

/-! ## Pieces one behind the other -/

/-- The pieces are whole, and no run of text stands behind another. -/
structure Sequence (pieces : List Markup) : Prop where
  whole : ∀ piece ∈ pieces, piece.Whole
  apart : pieces.IsChain fun before after => before.isText = true → after.isText = false

theorem sequence_nil : Sequence [] := ⟨fun _ h => absurd h List.not_mem_nil, List.isChain_nil⟩

theorem sequence_singleton (h : piece.Whole) : Sequence [piece] := ⟨by simpa using h, List.isChain_singleton piece⟩

variable {pieces pieces' : List Markup} {opened opened' opened'' : List Text}

theorem Sequence.append (h : Sequence pieces) (h' : Sequence pieces')
    (apart : ∀ before ∈ pieces.getLast?, ∀ after ∈ pieces'.head?, before.isText = true → after.isText = false) :
    Sequence (pieces ++ pieces') :=
  ⟨List.forall_mem_append.2 ⟨h.whole, h'.whole⟩, List.isChain_append.2 ⟨h.apart, h'.apart, apart⟩⟩

theorem Sequence.of_append (h : Sequence (pieces ++ pieces')) : Sequence pieces ∧ Sequence pieces' := by
  obtain ⟨whole, apart⟩ := h
  rw [List.forall_mem_append] at whole
  obtain ⟨front, back, -⟩ := List.isChain_append.1 apart
  exact ⟨⟨whole.1, front⟩, whole.2, back⟩

theorem Sequence.of_cons (h : Sequence (piece :: pieces)) : piece.Whole ∧ Sequence pieces :=
  ⟨h.whole piece List.mem_cons_self, fun other ho => h.whole other (List.mem_cons_of_mem piece ho), h.apart.tail⟩

/-- What stands behind the pieces does not lengthen the last of them. -/
def EndsAll (pieces : List Markup) (rest : Text) : Prop := ∀ piece ∈ pieces.getLast?, piece.Ends rest

/-- **Pieces are read as they are.** -/
theorem readIn_sequence (h : Sequence pieces) {rest : Text} (ends : EndsAll pieces rest)
    (nests : pieces.foldlM nest opened = .ok opened') :
    readIn opened (pieces.flatMap source ++ rest) = (readIn opened' rest).prepend pieces := by
  induction pieces generalizing opened with
  | nil =>
    obtain rfl := Except.ok.inj nests
    rfl
  | cons piece pieces ih =>
    obtain ⟨whole, apart⟩ := h
    rw [List.forall_mem_cons] at whole
    rw [List.foldlM_cons] at nests
    obtain ⟨inner, hnest, nests⟩ := bind_eq_ok_iff.1 nests
    have here : piece.Ends (pieces.flatMap source ++ rest) := by
      cases pieces with
      | nil => exact ends piece rfl
      | cons after pieces =>
        intro text
        have other := (List.isChain_cons_cons.1 apart).1 text
        rw [List.flatMap_cons, List.append_assoc]
        exact (isText_eq_false_iff (whole.2 after List.mem_cons_self).1 _).1 other
    have behind : EndsAll pieces rest := by
      intro last hl
      refine ends last ?_
      rw [Option.mem_def] at hl ⊢
      rw [List.getLast?_cons, hl]
      rfl
    have found := whole.1.next_append here
    obtain ⟨c, text, hs⟩ := List.exists_cons_of_ne_nil whole.1.1
    rw [hs, List.cons_append] at found
    rw [List.flatMap_cons, List.append_assoc, hs, List.cons_append, readIn_of_next found hnest,
      ih ⟨whole.2, (List.isChain_cons.1 apart).2⟩ behind nests, ← Reading.prepend_append]
    rfl

/-- Nothing is wrong with a sequence of pieces. -/
theorem read_flatMap (h : Sequence pieces) (nests : pieces.foldlM nest [] = .ok opened) :
    read (pieces.flatMap source) = ⟨pieces, none⟩ := by
  have ends : EndsAll pieces [] := fun _ _ _ c hc => absurd hc (by simp)
  have found := readIn_sequence h ends nests
  rw [List.append_nil] at found
  show readIn [] _ = _
  rw [found]
  exact congrArg (fun all => Reading.mk all none) (List.append_nil pieces)

/-- A text starts with a sequence of pieces, up to what is wrong with it. -/
theorem sequence_readIn (opened : List Text) (t : Text) :
    Sequence (readIn opened t).pieces ∧
      (∃ rest, (readIn opened t).pieces.flatMap source ++ rest = t ∧ ((readIn opened t).fault = none → rest = [])) ∧
      ∃ opened', (readIn opened t).pieces.foldlM nest opened = .ok opened' := by
  induction hn : t.length using Nat.strong_induction_on generalizing opened t with
  | _ n ih =>
    subst hn
    cases t with
    | nil => exact ⟨sequence_nil, ⟨[], rfl, fun _ => rfl⟩, opened, rfl⟩
    | cons c t =>
      cases found : next (c :: t) with
      | error fault =>
        have stops : readIn opened (c :: t) = ⟨[], some fault⟩ := by simp [readIn, readFrom, found]
        rw [stops]
        exact ⟨sequence_nil, ⟨c :: t, rfl, by simp⟩, opened, rfl⟩
      | ok step =>
        obtain ⟨piece, behind⟩ := step
        cases nested : nest opened piece with
        | error fault =>
          have stops : readIn opened (c :: t) = ⟨[], some fault⟩ := by simp [readIn, readFrom, found, nested]
          rw [stops]
          exact ⟨sequence_nil, ⟨c :: t, rfl, by simp⟩, opened, rfl⟩
        | ok inner =>
          rw [readIn_of_next found nested]
          have starts := starts_of_next found
          obtain ⟨sequence, ⟨rest, whole, faultless⟩, final, nests⟩ := ih behind.length starts.2 inner behind rfl
          refine ⟨?_, ⟨rest, ?_, faultless⟩, final, ?_⟩
          · refine (sequence_singleton (whole_of_next found)).append sequence ?_
            intro before hb after ha text
            obtain rfl := Option.some.inj hb
            have stops := ends_of_next found text
            obtain ⟨pieces, hp⟩ : ∃ pieces, (readIn inner behind).pieces = after :: pieces :=
              List.head?_eq_some_iff.1 ha
            rw [← whole, hp, List.flatMap_cons, List.append_assoc] at stops
            exact (isText_eq_false_iff (sequence.whole after (List.mem_of_mem_head? ha)).1 _).2 stops
          · show List.flatMap source (piece :: (readIn inner behind).pieces) ++ rest = _
            rw [List.flatMap_cons, List.append_assoc, whole, starts.1]
          · show List.foldlM nest opened (piece :: _) = _
            rw [List.foldlM_cons, nested]
            exact nests

/-- A text in which nothing is wrong is a sequence of pieces. -/
theorem exists_sequence {t : Text} (h : (readIn opened t).fault = none) :
    Sequence (readIn opened t).pieces ∧ (readIn opened t).pieces.flatMap source = t ∧
      ∃ opened', (readIn opened t).pieces.foldlM nest opened = .ok opened' := by
  obtain ⟨sequence, ⟨rest, whole, faultless⟩, nests⟩ := sequence_readIn opened t
  rw [faultless h, List.append_nil] at whole
  exact ⟨sequence, whole, nests⟩

theorem exists_sequence_read {t : Text} (h : (read t).fault = none) :
    Sequence (read t).pieces ∧ (read t).pieces.flatMap source = t := by
  obtain ⟨sequence, whole, -⟩ := exists_sequence (show (readIn [] t).fault = none from h)
  exact ⟨sequence, whole⟩

/-! ## Open elements -/

theorem nest_closing_eq_ok_iff {ending : Text} :
    nest opened (closing ending) = .ok opened' ↔ opened = endName ending :: opened' := by
  cases opened with
  | nil => simp [nest]
  | cons name outer =>
    simp only [nest, List.cons.injEq]
    split
    · next same => simp [same]
    · next other => simp [Ne.symm other]

/-- The names of the elements that are open behind a text of whole pieces, the innermost first. -/
def opened? (t : Text) : Option (List Text) :=
  match (read t).fault with
  | some _ => none
  | none => ((read t).pieces.foldlM nest []).toOption

theorem opened?_eq_some_iff {t : Text} :
    opened? t = some opened ↔ (read t).fault = none ∧ (read t).pieces.foldlM nest [] = .ok opened := by
  unfold opened?
  split
  · next fault found => simp [found]
  · next found =>
    refine ⟨fun h => ⟨found, eq_ok_of_toOption h⟩, fun h => ?_⟩
    rw [h.2]
    rfl

theorem opened?_flatMap (sequence : Sequence pieces) (nests : pieces.foldlM nest [] = .ok opened) :
    opened? (pieces.flatMap source) = some opened := by
  rw [opened?_eq_some_iff, read_flatMap sequence nests]
  exact ⟨rfl, nests⟩

example : opened? "<a><b x='>'>text &amp; <!-- </b> --><c/></b> <d>".toList = some ["d".toList, "a".toList] := by
  decide +kernel

end Xml.Markup

end DeclGen
