import DeclGen.Proofs.Xml.Pieces

/-!
# Elements as trees

* `Element`, `Contents` : an element as it is written, and what stands between its tags;
* `WellFormed` : the tags are tags, each end tag has the name of its start tag, and between elements
  stands nothing with a meaning;
* `Balanced` : pieces that make up a text and close what they open; `Element.balanced` : those of an element;
* `opened?_eq_nil_iff` : a text in which nothing is wrong and nothing is left open is content.
-/

namespace DeclGen.Xml

mutual

/-- An element as it is written. -/
inductive Element where
  /-- The content of its only tag, up to the slash. -/
  | selfClosing (tag : Text)
  /-- The contents of its two tags, and what stands between them. -/
  | around (tag : Text) (content : Contents) (ending : Text)

/-- Elements one behind the other, with text, comments and the like before, between and behind them. -/
inductive Contents where
  | gap (text : Text)
  | child (before : Text) (first : Element) (rest : Contents)

end

/-! ## Texts of elements -/

def Element.tag : Element → Text
  | .selfClosing tag => tag
  | .around tag _ _ => tag

/-- The elements that are not inside another one. -/
def Contents.elements : Contents → List Element
  | .gap _ => []
  | .child _ first rest => first :: rest.elements

/-- The elements directly inside an element. -/
def Element.children : Element → List Element
  | .selfClosing _ => []
  | .around _ content _ => content.elements

mutual

def Element.source : Element → Text
  | .selfClosing tag => (Markup.selfClosing tag).source
  | .around tag content ending => (Markup.opening tag).source ++ (content.source ++ (Markup.closing ending).source)

def Contents.source : Contents → Text
  | .gap text => text
  | .child before first rest => before ++ (first.source ++ rest.source)

end

mutual

/-- The pieces that the element is read as. -/
def Element.pieces : Element → List Markup
  | .selfClosing tag => [.selfClosing tag]
  | .around tag content ending => .opening tag :: (content.pieces ++ [.closing ending])

def Contents.pieces : Contents → List Markup
  | .gap text => (Markup.read text).pieces
  | .child before first rest => (Markup.read before).pieces ++ (first.pieces ++ rest.pieces)

end

namespace Markup

def isInert : Markup → Bool
  | inert _ => true
  | _ => false

/-- Nothing with a meaning: text, references, comments, instructions, CDATA sections. -/
def IsGap (t : Text) : Prop := (read t).fault = none ∧ ∀ piece ∈ (read t).pieces, piece.isInert = true

instance (t : Text) : Decidable (IsGap t) :=
  have : Decidable (∀ piece ∈ (read t).pieces, piece.isInert = true) := List.decidableBAll _ _
  inferInstanceAs (Decidable (_ ∧ _))

end Markup

open Markup (IsGap Whole Sequence)

mutual

def Element.WellFormed : Element → Prop
  | .selfClosing tag => Whole (.selfClosing tag)
  | .around tag content ending => Whole (.opening tag) ∧ content.WellFormed ∧ Whole (.closing ending) ∧
      Markup.endName ending = tagName tag

def Contents.WellFormed : Contents → Prop
  | .gap text => IsGap text
  | .child before first rest => IsGap before ∧ first.WellFormed ∧ rest.WellFormed

end

mutual

def Element.decidableWellFormed : (x : Element) → Decidable x.WellFormed
  | .selfClosing tag => inferInstanceAs (Decidable (Whole (.selfClosing tag)))
  | .around tag content ending =>
    have := content.decidableWellFormed
    inferInstanceAs (Decidable (Whole (.opening tag) ∧ content.WellFormed ∧ Whole (.closing ending) ∧
      Markup.endName ending = tagName tag))

def Contents.decidableWellFormed : (content : Contents) → Decidable content.WellFormed
  | .gap text => inferInstanceAs (Decidable (IsGap text))
  | .child before first rest =>
    have := first.decidableWellFormed
    have := rest.decidableWellFormed
    inferInstanceAs (Decidable (IsGap before ∧ first.WellFormed ∧ rest.WellFormed))

end

instance : (x : Element) → Decidable x.WellFormed := Element.decidableWellFormed

instance : (content : Contents) → Decidable content.WellFormed := Contents.decidableWellFormed

/-! ## Balanced pieces -/

/-- The pieces make up the text and close what they open. -/
structure Balanced (t : Text) (pieces : List Markup) : Prop where
  sequence : Sequence pieces
  source : pieces.flatMap Markup.source = t
  nests : ∀ opened, pieces.foldlM Markup.nest opened = .ok opened

variable {t t' : Text} {pieces pieces' : List Markup} {opened : List Text}

theorem Balanced.append (h : Balanced t pieces) (h' : Balanced t' pieces')
    (apart : ∀ before ∈ pieces.getLast?, ∀ after ∈ pieces'.head?, before.isText = true → after.isText = false) :
    Balanced (t ++ t') (pieces ++ pieces') := by
  refine ⟨h.sequence.append h'.sequence apart, ?_, fun opened => ?_⟩
  · rw [List.flatMap_append, h.source, h'.source]
  · rw [List.foldlM_append, h.nests opened, ok_bind, h'.nests opened]

/-- Nothing is wrong with a balanced text. -/
theorem Balanced.read_eq (h : Balanced t pieces) : Markup.read t = ⟨pieces, none⟩ := by
  have read := Markup.read_flatMap h.sequence (h.nests [])
  rwa [h.source] at read

theorem foldlM_nest_inert (h : ∀ piece ∈ pieces, piece.isInert = true) :
    pieces.foldlM Markup.nest opened = .ok opened := by
  induction pieces with
  | nil => rfl
  | cons piece pieces ih =>
    rw [List.forall_mem_cons] at h
    cases piece with
    | inert source => exact ih h.2
    | opening tag => exact absurd h.1 (by simp [Markup.isInert])
    | selfClosing tag => exact absurd h.1 (by simp [Markup.isInert])
    | closing ending => exact absurd h.1 (by simp [Markup.isInert])

theorem balanced_gap (h : IsGap t) : Balanced t (Markup.read t).pieces := by
  obtain ⟨sequence, whole⟩ := Markup.exists_sequence_read h.1
  exact ⟨sequence, whole, fun opened => foldlM_nest_inert h.2⟩

/-- A gap is what pieces without meaning make up. -/
theorem isGap_of_inert (sequence : Sequence pieces) (h : ∀ piece ∈ pieces, piece.isInert = true) :
    IsGap (pieces.flatMap Markup.source) ∧ (Markup.read (pieces.flatMap Markup.source)).pieces = pieces := by
  have balanced : Balanced (pieces.flatMap Markup.source) pieces :=
    ⟨sequence, rfl, fun opened => foldlM_nest_inert h⟩
  rw [IsGap, balanced.read_eq]
  exact ⟨⟨rfl, h⟩, rfl⟩

/-! ## Elements -/

/-- An element starts with a tag. -/
theorem Element.exists_head (x : Element) : ∃ piece pieces, x.pieces = piece :: pieces ∧ piece.isText = false := by
  cases x with
  | selfClosing tag => exact ⟨_, _, rfl, rfl⟩
  | around tag content ending => exact ⟨_, _, rfl, rfl⟩

/-- An element ends with a tag. -/
theorem Element.exists_last (x : Element) : ∃ pieces piece, x.pieces = pieces ++ [piece] ∧ piece.isText = false := by
  cases x with
  | selfClosing tag => exact ⟨[], _, rfl, rfl⟩
  | around tag content ending => exact ⟨.opening tag :: content.pieces, _, rfl, rfl⟩

theorem Element.exists_source (x : Element) (rest : Text) : ∃ text, x.source ++ rest = '<' :: text := by
  cases x with
  | selfClosing tag => exact ⟨_, rfl⟩
  | around tag content ending => exact ⟨_, rfl⟩

/-- Nothing lengthens the last tag of an element. -/
theorem Element.endsAll (x : Element) (rest : Text) : Markup.EndsAll x.pieces rest := by
  obtain ⟨pieces, piece, hp, other⟩ := x.exists_last
  intro last hl
  rw [hp, List.getLast?_concat] at hl
  obtain rfl := Option.some.inj hl
  exact .of_not_isText other rest

theorem Balanced.element_append {x : Element} (hx : Balanced x.source x.pieces) (h : Balanced t pieces) :
    Balanced (x.source ++ t) (x.pieces ++ pieces) := by
  obtain ⟨others, last, hp, other⟩ := x.exists_last
  refine hx.append h fun before hb _ _ text => ?_
  rw [hp, List.getLast?_concat] at hb
  obtain rfl := Option.some.inj hb
  exact absurd (other.symm.trans text) (by simp)

theorem Balanced.append_element {x : Element} (h : Balanced t pieces)
    (hx : Balanced (x.source ++ t') (x.pieces ++ pieces')) :
    Balanced (t ++ (x.source ++ t')) (pieces ++ (x.pieces ++ pieces')) := by
  obtain ⟨first, others, hp, other⟩ := x.exists_head
  refine h.append hx fun _ _ after ha _ => ?_
  rw [hp] at ha
  obtain rfl := Option.some.inj ha
  exact other

theorem balanced_around {tag ending : Text} (start : Whole (.opening tag)) (h : Balanced t pieces)
    (stop : Whole (.closing ending)) (name : Markup.endName ending = tagName tag) :
    Balanced ((Markup.opening tag).source ++ (t ++ (Markup.closing ending).source))
      (.opening tag :: (pieces ++ [.closing ending])) := by
  have closed : Sequence (pieces ++ [.closing ending]) := by
    refine h.sequence.append (Markup.sequence_singleton stop) fun _ _ after ha _ => ?_
    obtain rfl := Option.some.inj ha
    rfl
  refine ⟨?_, ?_, fun opened => ?_⟩
  · refine (Markup.sequence_singleton start).append closed fun before hb _ _ text => ?_
    obtain rfl := Option.some.inj hb
    exact absurd text (by simp [Markup.isText])
  · rw [List.flatMap_cons, List.flatMap_append, h.source, List.flatMap_singleton]
  · rw [List.foldlM_cons]
    show List.foldlM Markup.nest (tagName tag :: opened) _ = _
    rw [List.foldlM_append, h.nests, ok_bind, List.foldlM_cons, Markup.nest]
    simp only [name, if_true]
    rfl

mutual

/-- **Elements are balanced**, by induction over the tree. -/
theorem Element.balanced (x : Element) (h : x.WellFormed) : Balanced x.source x.pieces := by
  cases x with
  | selfClosing tag =>
    have tag : Whole (.selfClosing tag) := h
    exact ⟨Markup.sequence_singleton tag, List.append_nil _, fun _ => rfl⟩
  | around tag content ending =>
    obtain ⟨start, inside, stop, name⟩ := h
    exact balanced_around start (content.balanced inside) stop name

theorem Contents.balanced (content : Contents) (h : content.WellFormed) : Balanced content.source content.pieces := by
  cases content with
  | gap text => exact balanced_gap h
  | child before first rest =>
    obtain ⟨gap, element, others⟩ := h
    exact (balanced_gap gap).append_element ((first.balanced element).element_append (rest.balanced others))

end

/-! ## Every text is content -/

theorem exists_gap (h : Sequence pieces) : ∃ before rest, pieces = (Markup.read before).pieces ++ rest ∧
    IsGap before ∧ Sequence rest ∧ ∀ piece ∈ rest.head?, piece.isInert = false := by
  have parts := List.takeWhile_append_dropWhile (p := Markup.isInert) (l := pieces)
  have inert : ∀ piece ∈ pieces.takeWhile Markup.isInert, piece.isInert = true :=
    List.all_eq_true.1 List.all_takeWhile
  obtain ⟨front, back⟩ := Markup.Sequence.of_append (parts.symm ▸ h)
  obtain ⟨gap, same⟩ := isGap_of_inert front inert
  refine ⟨_, _, ?_, gap, back, fun piece hp => ?_⟩
  · rw [same, parts]
  · have := List.head?_dropWhile_not Markup.isInert pieces
    rw [Option.mem_def] at hp
    rwa [hp] at this

/-- Contents goes on up to the end of the text, or up to the end tag of the element around it. -/
inductive Stops : List Text → List Markup → Prop
  | finished : Stops [] []
  | closing {ending : Text} {outer : List Text} {rest : List Markup}
    (nests : rest.foldlM Markup.nest outer = .ok []) : Stops (Markup.endName ending :: outer) (.closing ending :: rest)

theorem exists_content_from : ∀ (n : Nat) (pieces : List Markup) (opened : List Text), pieces.length ≤ n →
    Sequence pieces → pieces.foldlM Markup.nest opened = .ok [] →
    ∃ (content : Contents) (rest : List Markup), content.WellFormed ∧ pieces = content.pieces ++ rest ∧
      Sequence rest ∧ Stops opened rest := by
  -- Behind the start tag of a child its content comes first, then what follows its end tag, so the
  -- induction is on a bound for the number of pieces.
  intro n
  induction n with
  | zero =>
    intro pieces opened bound _ nests
    obtain rfl := List.eq_nil_of_length_eq_zero (Nat.le_zero.1 bound)
    obtain rfl := Except.ok.inj nests
    exact ⟨.gap [], [], ⟨rfl, fun _ h => absurd h List.not_mem_nil⟩, rfl, Markup.sequence_nil, .finished⟩
  | succ n ih =>
    intro pieces opened bound sequence nests
    obtain ⟨before, behind, rfl, gap, sequence, other⟩ := exists_gap sequence
    rw [List.foldlM_append, foldlM_nest_inert gap.2, ok_bind] at nests
    rw [List.length_append] at bound
    cases behind with
    | nil =>
      obtain rfl := Except.ok.inj nests
      exact ⟨.gap before, [], gap, rfl, sequence, .finished⟩
    | cons piece more =>
      have shorter : more.length ≤ n := by
        rw [List.length_cons] at bound
        omega
      obtain ⟨whole, behind⟩ := sequence.of_cons
      rw [List.foldlM_cons] at nests
      obtain ⟨inner, nest, nestsMore⟩ := bind_eq_ok_iff.1 nests
      cases piece with
      | inert source => exact absurd (other _ rfl) (by simp [Markup.isInert])
      | selfClosing tag =>
        obtain rfl := Except.ok.inj nest
        obtain ⟨content, rest, inside, rfl, sequence, stops⟩ := ih more _ shorter behind nestsMore
        refine ⟨.child before (.selfClosing tag) content, rest, ⟨gap, whole, inside⟩, ?_, sequence, stops⟩
        simp [Contents.pieces, Element.pieces]
      | closing ending =>
        refine ⟨.gap before, .closing ending :: more, gap, rfl, sequence, ?_⟩
        obtain rfl := Markup.nest_closing_eq_ok_iff.1 nest
        exact .closing nestsMore
      | opening tag =>
        obtain rfl := Except.ok.inj nest
        obtain ⟨content, rest, inside, rfl, sequence, stops⟩ := ih more _ shorter behind nestsMore
        generalize names : tagName tag :: opened = around at stops
        cases stops with
        | finished => exact absurd names (by simp)
        | @closing ending outer rest nests =>
          obtain ⟨name, rfl⟩ := List.cons.inj names
          obtain ⟨stop, behind⟩ := sequence.of_cons
          have shorter : rest.length ≤ n := by
            rw [List.length_append, List.length_cons] at shorter
            omega
          obtain ⟨others, last, outside, rfl, sequence, stops⟩ := ih rest _ shorter behind nests
          refine ⟨.child before (.around tag content ending) others, last,
            ⟨gap, ⟨whole, inside, stop, name.symm⟩, outside⟩, ?_, sequence, stops⟩
          simp [Contents.pieces, Element.pieces]

/-- Pieces that close what they open are content. -/
theorem exists_content_of_pieces (sequence : Sequence pieces) (nests : pieces.foldlM Markup.nest [] = .ok []) :
    ∃ content : Contents, content.WellFormed ∧ content.pieces = pieces ∧
      content.source = pieces.flatMap Markup.source := by
  obtain ⟨content, rest, inside, rfl, -, stops⟩ := exists_content_from _ pieces [] (Nat.le_refl _) sequence nests
  cases stops
  rw [List.append_nil]
  exact ⟨content, inside, rfl, (content.balanced inside).source.symm⟩

/-- **A text in which nothing is wrong and nothing is left open is content**, and the other way round. -/
theorem opened?_eq_nil_iff :
    Markup.opened? t = some [] ↔ ∃ content : Contents, content.WellFormed ∧ content.source = t := by
  rw [Markup.opened?_eq_some_iff]
  constructor
  · rintro ⟨faultless, nests⟩
    obtain ⟨sequence, whole⟩ := Markup.exists_sequence_read faultless
    obtain ⟨content, inside, -, source⟩ := exists_content_of_pieces sequence nests
    exact ⟨content, inside, source.trans whole⟩
  · rintro ⟨content, inside, rfl⟩
    have balanced := content.balanced inside
    rw [balanced.read_eq]
    exact ⟨rfl, balanced.nests []⟩

end DeclGen.Xml
