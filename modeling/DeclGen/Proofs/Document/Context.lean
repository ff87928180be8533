import DeclGen.Proofs.Document.Position

/-!
# Parts of a document

A document is read up to a part of it, then the part, then what follows.

* `OutsideEntities`, `InEntity`, `InField`, `InUnknown` : where a part of a document stands, told by what stands
  before it;
* `readUpTo`, `parse_append` : a document is read up to a position and then goes on from there;
* `parse_element` : an element is read from the state before it;
* `Grows` : what reading keeps.
-/

namespace DeclGen.Document
open Xml (Markup Element)

variable {s s' : State} {ps : List Markup} {opened opened' : List Text} {piece : Markup} {e : OpenEntity}
  {f : OpenField} {x : Element}

/-! ## Reading on from a state -/

/-- The pieces lead on, and make no difference to what is read behind them. -/
def Ignores (s : State) (ps : List Markup) : Prop :=
  ∃ s', ps.foldlM step s = .ok s' ∧ ∀ opened t, resume opened s' t = resume opened s t

theorem Ignores.of_eq (h : ps.foldlM step s = .ok s) : Ignores s ps := ⟨s, h, fun _ _ => rfl⟩

/-- Text means nothing where the state stands. -/
def Deaf (s : State) : Prop := ∀ source, Ignores s [.inert source]

theorem resume_text (deaf : Deaf s) (t : Text) :
    resume opened s t = resume opened s (t.dropWhile (!Markup.endsText ·)) := by
  cases t with
  | nil => rfl
  | cons c t =>
    cases ends : Markup.endsText c with
    | true => rw [List.dropWhile_cons_of_neg (by simp [ends])]
    | false =>
      obtain ⟨s', moves, same⟩ := deaf (c :: t.takeWhile (!Markup.endsText ·))
      have nest : Markup.nest opened (.inert (c :: t.takeWhile (!Markup.endsText ·))) = .ok opened := rfl
      have read := Markup.readIn_of_next (Markup.next_text ends t) nest
      rw [List.dropWhile_cons_of_pos (by simp [ends])]
      exact (resume_of_readIn read moves).trans (same _ _)

section Resume
variable (sequence : Markup.Sequence ps) (nests : ps.foldlM Markup.nest opened = .ok opened') {rest : Text}
include sequence nests

theorem resume_of_endsAll (ends : Markup.EndsAll ps rest) :
    resume opened s (ps.flatMap Markup.source ++ rest) = ps.foldlM step s >>= fun s' => resume opened' s' rest := by
  have read := Markup.readIn_sequence sequence ends nests
  cases moves : ps.foldlM step s with
  | ok s' => exact resume_of_readIn read moves
  | error error =>
    rw [resume, read, Markup.Reading.prepend]
    simp only [List.foldlM_append, moves, error_bind]

/-- A run of text may go on behind the pieces if it means nothing there. -/
theorem resume_of_deaf (deaf : ∀ (qs : List Markup) (s' : State), qs.foldlM step s = .ok s' →
      qs.foldlM Markup.nest opened = .ok opened' → Deaf s') :
    resume opened s (ps.flatMap Markup.source ++ rest) = ps.foldlM step s >>= fun s' => resume opened' s' rest := by
  rcases List.eq_nil_or_concat ps with rfl | ⟨front, last, rfl⟩
  · obtain rfl := Except.ok.inj nests
    rfl
  rw [List.concat_eq_append] at sequence nests ⊢
  cases text : last.isText with
  | false =>
    refine resume_of_endsAll sequence nests fun piece hp => ?_
    rw [List.getLast?_concat] at hp
    obtain rfl := Option.some.inj hp
    exact .of_not_isText text rest
  | true =>
    obtain ⟨source, rfl, plain⟩ := Markup.exists_plain (sequence.whole last (by simp)) text
    obtain ⟨whole, -⟩ := Markup.Sequence.of_append sequence
    obtain ⟨-, -, apart⟩ := List.isChain_append.1 sequence.apart
    rw [List.foldlM_append] at nests
    obtain ⟨inner, nestsFront, nest⟩ := bind_eq_ok_iff.1 nests
    obtain rfl := Except.ok.inj nest
    have ends : Markup.EndsAll front (source ++ rest) := fun piece hp text' =>
      absurd ((apart piece hp (.inert source) rfl text').symm.trans text) (by decide)
    rw [List.flatMap_append, List.flatMap_singleton, List.append_assoc]
    show resume opened s (front.flatMap Markup.source ++ (source ++ rest)) = _
    rw [resume_of_endsAll whole nestsFront ends, List.foldlM_append]
    cases moves : front.foldlM step s with
    | error error => rfl
    | ok t =>
      have here := deaf front t moves nestsFront
      obtain ⟨t', moves', same⟩ := here source
      rw [ok_bind, ok_bind, moves', resume_text here, List.dropWhile_append_of_pos plain, ← resume_text here, ← same]
      rfl

end Resume

theorem resume_element (h : x.WellFormed) (rest : Text) :
    resume opened s (x.source ++ rest) = x.pieces.foldlM step s >>= fun s' => resume opened s' rest := by
  have balanced := x.balanced h
  have read := resume_of_endsAll (s := s) balanced.sequence (balanced.nests opened) (x.endsAll rest)
  rwa [balanced.source] at read

/-! ## Documents -/

def isMarked (t : Text) : Bool := t.head? = some '\uFEFF'

/-- A document without the byte order mark in front of it. -/
def unmarked (t : Text) : Text := if isMarked t then t.tail else t

theorem unmarked_eq {t : Text} (h : isMarked t = false) : unmarked t = t := if_neg (by simp [h])

theorem parse_eq (t : Text) : parse t = parseText (isMarked t) (unmarked t) := by
  unfold parse
  split
  · rfl
  · next other =>
    have absent : isMarked t = false := by
      rw [isMarked, decide_eq_false_iff_not]
      intro head
      obtain ⟨rest, rfl⟩ := List.head?_eq_some_iff.1 head
      exact other rest rfl
    rw [unmarked, absent]
    rfl

theorem isMarked_append {before rest : Text} (h : before ≠ [] ∨ rest.head? ≠ some '\uFEFF') :
    isMarked (before ++ rest) = isMarked before ∧ unmarked (before ++ rest) = unmarked before ++ rest := by
  cases before with
  | nil =>
    have absent : isMarked rest = false := decide_eq_false (h.resolve_left fun hne => hne rfl)
    rw [List.nil_append, unmarked, absent]
    exact ⟨rfl, rfl⟩
  | cons c before =>
    refine ⟨rfl, ?_⟩
    show (if isMarked (c :: before) then _ else _) = (if isMarked (c :: before) then _ else _) ++ rest
    split <;> rfl

theorem isMarked_of_append {before rest : Text} (h : isMarked (before ++ rest) = false) : isMarked before = false := by
  cases before with
  | nil => rfl
  | cons c before => exact h

/-- How far a document is read that goes on behind a part of it. -/
def readUpTo (before : Text) : Except DocumentError State :=
  (Markup.read (unmarked before)).pieces.foldlM step (start (isMarked before))

/-- The elements that are open behind the text have a property. -/
def At (position : List Text → Prop) (before : Text) : Prop :=
  ∃ opened, Markup.opened? (unmarked before) = some opened ∧ position opened

/-- What follows the text is outside entities. -/
def OutsideEntities (before : Text) : Prop := At OutsideOf before

/-- What follows the text is a child of an entity. An entity inside another one is no more than a child
without a meaning. -/
def InEntity (before : Text) : Prop := At InEntityOf before

/-- What follows the text is a child of a field of an entity. -/
def InField (before : Text) : Prop := At InFieldOf before

/-- What follows the text is somewhere inside a child of an entity or of a field that has no meaning there. -/
def InUnknown (before : Text) : Prop := At InUnknownOf before

theorem At.ne_nil {position : List Text → Prop} {before : Text} (h : At position before) (some : ¬ position []) :
    before ≠ [] := by
  rintro rfl
  obtain ⟨opened, known, here⟩ := h
  obtain rfl := Option.some.inj known
  exact some here

section Documents
variable {before : Text} (known : Markup.opened? (unmarked before) = some opened)
include known

theorem reached_readUpTo (hs : readUpTo before = .ok s) : Reached (Markup.read (unmarked before)).pieces s.place :=
  .of_start (Markup.opened?_eq_some_iff.1 known).2 hs

theorem parse_append (rest : Text) (h : (∀ c ∈ rest.head?, Markup.endsText c = true) ∨ before ≠ [] ∧
      ∀ ps s, Reached ps s.place → ps.foldlM Markup.nest [] = .ok opened → Deaf s) :
    parse (before ++ rest) = readUpTo before >>= fun s => resume opened s rest := by
  obtain ⟨faultless, nests⟩ := Markup.opened?_eq_some_iff.1 known
  obtain ⟨sequence, whole⟩ := Markup.exists_sequence_read faultless
  have marks := isMarked_append (h.symm.imp And.left fun tag => show rest.head? ≠ some '\uFEFF' from
    fun head => absurd (tag _ head) (by decide))
  have read : resume [] (start (isMarked before)) (unmarked before ++ rest) =
      readUpTo before >>= fun s => resume opened s rest := by
    have shape : unmarked before = (Markup.read (unmarked before)).pieces.flatMap Markup.source := whole.symm
    rw [shape]
    rcases h with tag | ⟨-, deaf⟩
    · exact resume_of_endsAll sequence nests fun _ _ _ => tag
    · exact resume_of_deaf sequence nests fun qs s moves nests => deaf qs s (.of_start nests moves) nests
  rw [parse_eq, marks.1, marks.2, parseText_eq, read]

theorem parse_element (h : x.WellFormed) (after : Text) :
    parse (before ++ (x.source ++ after)) =
      readUpTo before >>= fun s => x.pieces.foldlM step s >>= fun s' => resume opened s' after := by
  have tag : ∀ c ∈ (x.source ++ after).head?, Markup.endsText c = true := by
    intro c hc
    obtain ⟨text, starts⟩ := x.exists_source after
    rw [starts] at hc
    obtain rfl := Option.some.inj hc
    decide
  rw [parse_append known _ (Or.inl tag)]
  simp only [resume_element h]

end Documents

/-! ## What reading keeps -/

/-- Entities are only added, and a mark stays a mark. -/
structure Grows (s s' : State) : Prop where
  marked : s'.marked = s.marked
  entities : s.entities <+: s'.entities

theorem Grows.refl (s : State) : Grows s s := ⟨rfl, List.prefix_rfl⟩

theorem Grows.trans {s'' : State} (h : Grows s s') (h' : Grows s' s'') : Grows s s'' :=
  ⟨h'.marked.trans h.marked, h.entities.trans h'.entities⟩

theorem Grows.toPlace (s : State) (place : Place) : Grows s (s.atPlace place) := ⟨rfl, List.prefix_rfl⟩

theorem Grows.of_step (moves : step s piece = .ok s') : Grows s s' := by
  have moves := moves_of_step moves
  generalize s.place = place at moves
  cases moves with
  | outside other => exact .refl s
  | scope scope name => exact ⟨rfl, List.prefix_rfl⟩
  | entity name read => exact .toPlace s _
  | emptyEntity read => exact ⟨rfl, List.prefix_append _ _⟩
  | inEntity idle => exact .refl s
  | field name read => exact .toPlace s _
  | child other => exact .toPlace s _
  | emptyField read => exact .toPlace s _
  | emptyCase read => exact .toPlace s _
  | endEntity => exact ⟨rfl, List.prefix_append _ _⟩
  | inField idle => exact .refl s
  | fieldChild => exact .toPlace s _
  | endField => exact .toPlace s _
  | inEntityChild more => exact .toPlace s _
  | endEntityChild last closed => exact .toPlace s _
  | inFieldChild more => exact .toPlace s _
  | endFieldChild last closed => exact .toPlace s _

theorem Grows.of_foldlM (moves : ps.foldlM step s = .ok s') : Grows s s' :=
  foldlM_invariant (P := Grows s) (fun h moves => h.trans (.of_step moves)) ps moves (.refl s)

theorem marked_of_readUpTo {before : Text} (hs : readUpTo before = .ok s) : s.marked = isMarked before :=
  (Grows.of_foldlM hs).marked

/-- What was read stays at the front of the answer. -/
theorem entities_of_resume {t : Text} {es : List Entity} (h : resume opened s t = .ok es) :
    s.entities <+: es := by
  obtain ⟨final, moves, h⟩ := bind_eq_ok_iff.1 h
  have grows := (Grows.of_foldlM moves).entities
  split at h
  · exact absurd h (by simp)
  · obtain ⟨-, -, rfl⟩ := finish_eq_ok_iff.1 h
    exact grows

/-! ## Elements at a position -/

section Positions
variable {before : Text}

theorem OutsideEntities.place_eq (h : OutsideEntities before) (hs : readUpTo before = .ok s) :
    s.atPlace .outside = s := by
  obtain ⟨opened, known, position⟩ := h
  have here := (reached_readUpTo known hs).eq_outside (Markup.opened?_eq_some_iff.1 known).2 position
  rw [State.atPlace, ← here]

theorem InEntity.exists_place (h : InEntity before) (hs : readUpTo before = .ok s) :
    ∃ e, s.atPlace (.inEntity e) = s := by
  obtain ⟨opened, known, position⟩ := h
  obtain ⟨e, here⟩ := (reached_readUpTo known hs).exists_inEntity (Markup.opened?_eq_some_iff.1 known).2 position
  exact ⟨e, by rw [State.atPlace, ← here]⟩

theorem InField.exists_place (h : InField before) (hs : readUpTo before = .ok s) :
    ∃ e f, s.atPlace (.inField e f) = s := by
  obtain ⟨opened, known, position⟩ := h
  obtain ⟨e, f, here⟩ := (reached_readUpTo known hs).exists_inField (Markup.opened?_eq_some_iff.1 known).2 position
  exact ⟨e, f, by rw [State.atPlace, ← here]⟩

end Positions

section Replacing
variable {x' : Element} {before after : Text} {es : List Entity} (hx : x.WellFormed) (hx' : x'.WellFormed)
include hx hx'

/-- What leads to the same state gives the same answer. -/
theorem parse_replace (known : Markup.opened? (unmarked before) = some opened)
    (same : ∀ s s', readUpTo before = .ok s → x.pieces.foldlM step s = .ok s' → x'.pieces.foldlM step s = .ok s')
    (accepted : parse (before ++ (x.source ++ after)) = .ok es) :
    parse (before ++ (x'.source ++ after)) = .ok es := by
  rw [parse_element known hx] at accepted
  obtain ⟨s, hs, accepted⟩ := bind_eq_ok_iff.1 accepted
  obtain ⟨s', moves, accepted⟩ := bind_eq_ok_iff.1 accepted
  rw [parse_element known hx', hs, ok_bind, same s s' hs moves]
  exact accepted

/-- An entity element may be replaced by another one that describes the same entity. -/
theorem OutsideEntities.parse_replace (h : OutsideEntities before) (name : elementName x.tag = "entity".toList)
    (name' : elementName x'.tag = "entity".toList)
    (same : ∀ scope e, entityOf (isMarked before) scope x = .ok e → entityOf (isMarked before) scope x' = .ok e)
    (accepted : parse (before ++ (x.source ++ after)) = .ok es) :
    parse (before ++ (x'.source ++ after)) = .ok es := by
  have ⟨opened, known, _⟩ := h
  refine Document.parse_replace hx hx' known (fun s s' hs moves => ?_) accepted
  rw [← h.place_eq hs, foldlM_entity hx name, map_eq_ok_iff, marked_of_readUpTo hs] at moves
  obtain ⟨e, described, rfl⟩ := moves
  rw [← h.place_eq hs, foldlM_entity hx' name', map_eq_ok_iff, marked_of_readUpTo hs]
  exact ⟨e, same _ e described, rfl⟩

/-- A child of an entity may be replaced by another one that does the same. -/
theorem InEntity.parse_replace (h : InEntity before)
    (same : ∀ e e', entityChild (isMarked before) e x = .ok e' → entityChild (isMarked before) e x' = .ok e')
    (accepted : parse (before ++ (x.source ++ after)) = .ok es) :
    parse (before ++ (x'.source ++ after)) = .ok es := by
  have ⟨opened, known, _⟩ := h
  refine Document.parse_replace hx hx' known (fun s s' hs moves => ?_) accepted
  obtain ⟨e, here⟩ := h.exists_place hs
  rw [← here, foldlM_entityChild hx, map_eq_ok_iff, marked_of_readUpTo hs] at moves
  obtain ⟨e', does, rfl⟩ := moves
  rw [← here, foldlM_entityChild hx', map_eq_ok_iff, marked_of_readUpTo hs]
  exact ⟨e', same e e' does, rfl⟩

end Replacing

/-- A child of an entity in a document does what it does to some entity. -/
theorem InEntity.exists_child {before after : Text} {es : List Entity} (h : InEntity before) (hx : x.WellFormed)
    (accepted : parse (before ++ (x.source ++ after)) = .ok es) :
    ∃ e e', entityChild (isMarked before) e x = .ok e' := by
  have ⟨opened, known, _⟩ := h
  rw [parse_element known hx] at accepted
  obtain ⟨s, hs, accepted⟩ := bind_eq_ok_iff.1 accepted
  obtain ⟨s', moves, -⟩ := bind_eq_ok_iff.1 accepted
  obtain ⟨e, here⟩ := h.exists_place hs
  rw [← here, foldlM_entityChild hx, map_eq_ok_iff, marked_of_readUpTo hs] at moves
  obtain ⟨e', does, -⟩ := moves
  exact ⟨e, e', does⟩

/-- What an entity element describes stands in the answer behind the entities before it. -/
theorem OutsideEntities.exists_entity {before after : Text} {es : List Entity} (h : OutsideEntities before)
    (hx : x.WellFormed) (name : elementName x.tag = "entity".toList)
    (accepted : parse (before ++ (x.source ++ after)) = .ok es) :
    ∃ s e back, readUpTo before = .ok s ∧ entityOf (isMarked before) s.scope x = .ok e ∧
      es = s.entities ++ e :: back := by
  have ⟨opened, known, _⟩ := h
  rw [parse_element known hx] at accepted
  obtain ⟨s, hs, accepted⟩ := bind_eq_ok_iff.1 accepted
  obtain ⟨s', moves, accepted⟩ := bind_eq_ok_iff.1 accepted
  rw [← h.place_eq hs, foldlM_entity hx name, map_eq_ok_iff, marked_of_readUpTo hs] at moves
  obtain ⟨e, described, rfl⟩ := moves
  obtain ⟨back, rfl⟩ := entities_of_resume accepted
  exact ⟨s, e, back, hs, described, List.append_assoc _ [e] back⟩

end DeclGen.Document
