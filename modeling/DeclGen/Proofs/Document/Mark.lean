import DeclGen.Proofs.Document.Context

/-!
# Documents behind a byte order mark

Positions in a document do not count the mark, so the texts of elements are cut out too early.

* `State.Similar` : states that differ only in texts; `alike_step`, `alike_parseText` : what is read from them is
  alike, but for texts;
* `Harmless` : every element whose text is read has the same text behind the mark; `harmless_iff` : the same for
  the pieces of the document;
* `step_behindMark`, `foldlM_behindMark` : the pieces of a harmless document do the same behind the mark;
* `parse_behindMark` : the mark changes nothing in a harmless document, and in any document nothing but texts.
-/

namespace DeclGen

/-! ## Outlines -/

/-- A field without what is read from texts. -/
def Field.outline (f : Field) : Field := { f with typeExpr := none, doc := none }

/-- A member without its value. -/
def Member.outline (m : Member) : Member := { m with value := .text [] }

/-- An entity without what is read from texts. -/
def Entity.outline (e : Entity) : Entity :=
  { e with fields := e.fields.map Field.outline, members := e.members.map Member.outline, doc := none }

/-- The same entities, but for what is read from texts. -/
def SameOutlines (es es' : List Entity) : Prop := es.map Entity.outline = es'.map Entity.outline

/-- An error about the text of an element, or about a reference. -/
inductive DocumentError.OfText : DocumentError → Prop
  | escape (fault : Xml.EscapeFault) : OfText (.escape fault)
  | contentOutOfRange : OfText .contentOutOfRange
  | unterminatedCData : OfText .unterminatedCData
  | value (raw : Text) : OfText (.invalidAttribute "case".toList "value".toList raw)

@[simp] theorem Entity.outline_addField (e : Entity) (f : Field) :
    (e.addField f).outline = e.outline.addField f.outline := by
  simp [Entity.addField, Entity.outline]

@[simp] theorem Entity.outline_addMember (e : Entity) (m : Member) :
    (e.addMember m).outline = e.outline.addMember m.outline := by
  simp [Entity.addMember, Entity.outline]

namespace Document
open Xml (Markup Element Contents)

theorem outline_finishField (f : Field) (doc : Option Text) : (finishField f doc).outline = f.outline := by
  cases doc <;> rfl

theorem outline_applyConstructorDoc (doc : Option Text) (e : Entity) :
    (applyConstructorDoc doc e).outline = e.outline := by
  cases doc with
  | none => rfl
  | some raw => simp [applyConstructorDoc, Entity.outline, Field.outline]

/-! ## Similar states -/

/-- The same entity, but for its texts. -/
structure OpenEntity.Similar (e e' : OpenEntity) : Prop where
  outline : e.entity.outline = e'.entity.outline
  name : e.name = e'.name

/-- The same field, but for its texts. -/
def OpenField.Similar (f f' : OpenField) : Prop := f.field.outline = f'.field.outline

/-- The same place, but for texts. -/
inductive Place.Similar : Place → Place → Prop
  | outside : Place.Similar .outside .outside
  | inEntity {e e' : OpenEntity} (h : e.Similar e') : Place.Similar (.inEntity e) (.inEntity e')
  | inEntityChild {e e' : OpenEntity} (h : e.Similar e') (c : Collected) :
    Place.Similar (.inEntityChild e c) (.inEntityChild e' c)
  | inField {e e' : OpenEntity} {f f' : OpenField} (h : e.Similar e') (hf : f.Similar f') :
    Place.Similar (.inField e f) (.inField e' f')
  | inFieldChild {e e' : OpenEntity} {f f' : OpenField} (h : e.Similar e') (hf : f.Similar f') (c : Collected) :
    Place.Similar (.inFieldChild e f c) (.inFieldChild e' f' c)

/-- The same state, but for texts and the mark. -/
structure State.Similar (s s' : State) : Prop where
  scope : s.scope = s'.scope
  entities : s.entities.map Entity.outline = s'.entities.map Entity.outline
  place : s.place.Similar s'.place

variable {s s' : State} {e e' : OpenEntity} {f f' : OpenField} {c : Collected} {marked marked' : Bool}

theorem OpenEntity.Similar.backing (h : e.Similar e') : e.entity.kind.backing = e'.entity.kind.backing := by
  have kind : e.entity.outline.kind = e'.entity.outline.kind := congrArg Entity.kind h.outline
  exact congrArg Kind.backing kind

theorem OpenEntity.Similar.addField {g g' : Field} (h : e.Similar e') (hg : g.outline = g'.outline) :
    OpenEntity.Similar { e with entity := e.entity.addField g } { e' with entity := e'.entity.addField g' } :=
  ⟨by simp only [Entity.outline_addField, h.outline, hg], h.name⟩

theorem OpenEntity.Similar.addMember {m m' : Member} (h : e.Similar e') (hm : m.outline = m'.outline) :
    OpenEntity.Similar { e with entity := e.entity.addMember m } { e' with entity := e'.entity.addMember m' } :=
  ⟨by simp only [Entity.outline_addMember, h.outline, hm], h.name⟩

/-! ## Texts -/

theorem textOf_cases (marked : Bool) (c : Collected) :
    (∃ text, textOf marked c = .ok text) ∨ ∃ error, DocumentError.OfText error ∧ textOf marked c = .error error := by
  unfold textOf
  split
  · exact Or.inr ⟨_, .contentOutOfRange, rfl⟩
  · split
    · exact Or.inl ⟨_, rfl⟩
    · exact Or.inr ⟨_, .escape _, rfl⟩
    · exact Or.inr ⟨_, .unterminatedCData, rfl⟩

theorem alike_textOf (marked marked' : Bool) (c : Collected) :
    Alike DocumentError.OfText (fun _ _ => True) (textOf marked c) (textOf marked' c) := by
  rcases textOf_cases marked c with ⟨text, h⟩ | ⟨error, kind, h⟩
  · rcases textOf_cases marked' c with ⟨text', h'⟩ | ⟨error, kind, h'⟩
    · rw [h, h']
      exact .ok trivial
    · rw [h']
      exact .right _ kind
  · rw [h]
    exact .left kind _

theorem alike_caseValue (backing : Option Backing) (name raw raw' : Text) :
    Alike DocumentError.OfText (fun _ _ => True) (caseValue backing name (some raw))
      (caseValue backing name (some raw')) := by
  cases backing with
  | none => exact .ok trivial
  | some backing =>
    cases backing with
    | string => exact .ok trivial
    | integer =>
      simp only [caseValue]
      split
      · split
        · exact .ok trivial
        · exact .right _ (.value _)
      · exact .left (.value _) _

theorem alike_readCase (backing : Option Backing) (tag text text' : Text) :
    Alike DocumentError.OfText (fun m m' => m.outline = m'.outline) (readCase backing tag (some text))
      (readCase backing tag (some text')) := by
  refine (Alike.same _).bind fun found _ same => ?_
  subst same
  cases found.name with
  | none => exact .error _
  | some name =>
    have value (text : Text) : ∃ raw, (found.value <|> some text) = some raw := by
      cases found.value with
      | none => exact ⟨text, rfl⟩
      | some raw => exact ⟨raw, rfl⟩
    obtain ⟨raw, first⟩ := value text
    obtain ⟨raw', first'⟩ := value text'
    simp only [first, first']
    exact (alike_caseValue backing name raw raw').bind fun _ _ _ => .ok rfl

/-! ## Ends of elements -/

theorem alike_closeEntityChild (h : e.Similar e') (marked marked' : Bool) (c : Collected) :
    Alike DocumentError.OfText OpenEntity.Similar (closeEntityChild marked e c) (closeEntityChild marked' e' c) := by
  simp only [closeEntityChild]
  split
  · exact (alike_textOf marked marked' c).bind fun _ _ _ => .ok ⟨h.outline, h.name⟩
  · split
    · exact (alike_textOf marked marked' c).bind fun _ _ _ => .ok ⟨h.outline, h.name⟩
    · split
      · rw [h.backing]
        refine (alike_textOf marked marked' c).bind fun text text' _ => ?_
        exact (alike_readCase _ _ text text').bind fun _ _ hm => .ok (h.addMember hm)
      · exact .ok h

theorem alike_closeFieldChild (h : f.Similar f') (marked marked' : Bool) (c : Collected) :
    Alike DocumentError.OfText OpenField.Similar (closeFieldChild marked f c) (closeFieldChild marked' f' c) := by
  simp only [closeFieldChild]
  split
  · exact (alike_textOf marked marked' c).bind fun _ _ _ => .ok h
  · split
    · refine (alike_textOf marked marked' c).bind fun text text' _ => ?_
      split
      · split <;> exact .ok h
      · split <;> exact .ok h
    · exact .ok h

/-! ## Pieces -/

theorem alike_stepOutside (h : s.Similar s') (piece : Markup) :
    Alike DocumentError.OfText State.Similar (stepOutside s piece) (stepOutside s' piece) := by
  cases piece with
  | inert source => exact .ok h
  | closing ending => exact .ok h
  | opening tag =>
    simp only [stepOutside]
    split
    · refine (Alike.same _).bind fun scope _ same => ?_
      subst same
      exact .ok ⟨by rw [h.scope], h.entities, h.place⟩
    · split
      · rw [h.scope]
        refine (Alike.same _).bind fun found _ same => ?_
        subst same
        exact .ok ⟨rfl, h.entities, .inEntity ⟨rfl, rfl⟩⟩
      · exact .ok h
  | selfClosing tag =>
    simp only [stepOutside]
    split
    · rw [h.scope]
      refine (Alike.same _).bind fun found _ same => ?_
      subst same
      exact .ok ⟨rfl, by rw [List.map_append, List.map_append, h.entities], h.place⟩
    · exact .ok h

theorem alike_stepInEntity (h : s.Similar s') (he : e.Similar e') (piece : Markup) :
    Alike DocumentError.OfText State.Similar (stepInEntity s e piece) (stepInEntity s' e' piece) := by
  cases piece with
  | inert source => exact .ok h
  | closing ending =>
    refine .ok ⟨h.scope, ?_, .outside⟩
    simp only [List.map_append, h.entities, List.map_singleton, closeEntity, outline_applyConstructorDoc, he.outline]
  | opening tag =>
    simp only [stepInEntity]
    split
    · refine (Alike.same _).bind fun field _ same => ?_
      subst same
      exact .ok ⟨h.scope, h.entities, .inField he rfl⟩
    · exact .ok ⟨h.scope, h.entities, .inEntityChild he _⟩
  | selfClosing tag =>
    simp only [stepInEntity]
    split
    · refine (Alike.same _).bind fun field _ same => ?_
      subst same
      exact .ok ⟨h.scope, h.entities, .inEntity (he.addField rfl)⟩
    · split
      · rw [he.backing]
        refine (Alike.same _).bind fun member _ same => ?_
        subst same
        exact .ok ⟨h.scope, h.entities, .inEntity (he.addMember rfl)⟩
      · exact .ok h

theorem alike_stepInField (h : s.Similar s') (he : e.Similar e') (hf : f.Similar f') (piece : Markup) :
    Alike DocumentError.OfText State.Similar (stepInField s e f piece) (stepInField s' e' f' piece) := by
  cases piece with
  | inert source => exact .ok h
  | selfClosing tag => exact .ok h
  | opening tag => exact .ok ⟨h.scope, h.entities, .inFieldChild he hf _⟩
  | closing ending =>
    refine .ok ⟨h.scope, h.entities, .inEntity (he.addField ?_)⟩
    rw [closeField, closeField, outline_finishField, outline_finishField]
    exact hf

/-- **A piece does the same to similar states**, but for texts. -/
theorem alike_step (h : s.Similar s') (piece : Markup) :
    Alike DocumentError.OfText State.Similar (step s piece) (step s' piece) := by
  have place := h.place
  unfold step
  generalize s.place = p at place
  generalize s'.place = p' at place
  cases place with
  | outside => exact alike_stepOutside h piece
  | inEntity he => exact alike_stepInEntity h he piece
  | inField he hf => exact alike_stepInField h he hf piece
  | inEntityChild he c =>
    dsimp only
    split
    · exact .ok ⟨h.scope, h.entities, .inEntityChild he _⟩
    · exact (alike_closeEntityChild he _ _ c).bind fun _ _ he => .ok ⟨h.scope, h.entities, .inEntity he⟩
  | inFieldChild he hf c =>
    dsimp only
    split
    · exact .ok ⟨h.scope, h.entities, .inFieldChild he hf _⟩
    · exact (alike_closeFieldChild hf _ _ c).bind fun _ _ hf => .ok ⟨h.scope, h.entities, .inField he hf⟩

theorem Place.Similar.unfinished {p p' : Place} (h : p.Similar p') : p.unfinished = p'.unfinished := by
  cases h with
  | outside => rfl
  | inEntity h => exact congrArg (fun name => some (DocumentError.unterminatedEntity name)) h.name
  | inField h hf =>
    have name := congrArg Field.name hf
    exact congrArg (fun name => some (DocumentError.unterminatedField name)) name
  | inEntityChild h c => rfl
  | inFieldChild h hf c => rfl

theorem alike_finish (h : s.Similar s') : Alike DocumentError.OfText SameOutlines (finish s) (finish s') := by
  have empty : s.entities.isEmpty = s'.entities.isEmpty := by
    rw [← List.isEmpty_map (f := Entity.outline), h.entities, List.isEmpty_map]
  unfold finish
  rw [h.place.unfinished, empty]
  split
  · exact .error _
  · split
    · exact .error _
    · exact .ok h.entities

theorem alike_parseText (marked marked' : Bool) (t : Text) :
    Alike DocumentError.OfText SameOutlines (parseText marked t) (parseText marked' t) := by
  have start : (start marked).Similar (Document.start marked') := ⟨rfl, rfl, .outside⟩
  refine (Alike.foldlM (fun _ _ piece h => alike_step h piece) start (Markup.read t).pieces).bind fun _ _ h => ?_
  cases (Markup.read t).fault with
  | some fault => exact .error _
  | none => exact alike_finish h

/-! ## Harmless documents -/

/-- The children of an entity whose text is read. -/
def textChildren : List Text := ["doc".toList, "constructor-doc".toList, "case".toList]

/-- Inside the open elements, a child whose start tag this is has a text that is read. -/
def HasText (tag : Text) (opened : List Text) : Prop :=
  InEntityOf opened ∧ elementName tag ∈ textChildren ∨
    InFieldOf opened ∧ elementName tag ∈ fieldChildren

/-- Wherever the text of an element is read, it is the same behind a byte order mark. -/
def Harmless (t : Text) : Prop :=
  ∀ (before tag : Text) (content : Contents) (ending after : Text),
    t = before ++ ((Element.around tag content ending).source ++ after) →
    (Element.around tag content ending).WellFormed → At (HasText tag) before → Unharmed true tag content

/-- The same for the pieces of a document. -/
def HarmlessPieces (ps : List Markup) : Prop :=
  ∀ (before : List Markup) (opened : List Text) (tag : Text) (inner : List Markup) (ending : Text)
    (after : List Markup),
    ps = before ++ .opening tag :: (inner ++ .closing ending :: after) → before.foldlM Markup.nest [] = .ok opened →
    inner.foldlM Markup.nest [] = .ok [] → Markup.endName ending = Xml.tagName tag → HasText tag opened →
    textOf true ⟨tag, 0, inner.reverse⟩ = textOf false ⟨tag, 0, inner.reverse⟩

/-- Each element of the text is found among the pieces, and the other way round. -/
theorem harmless_iff {t : Text} (unmarked : isMarked t = false) :
    Harmless t ↔ HarmlessPieces (Markup.read t).pieces := by
  constructor
  · intro h before opened tag inner ending after pieces outer closed name text
    obtain ⟨sequence, ⟨rest, whole, -⟩, -⟩ := Markup.sequence_readIn [] t
    have shape : (Markup.readIn [] t).pieces = before ++ .opening tag :: (inner ++ .closing ending :: after) := pieces
    rw [shape] at sequence whole
    obtain ⟨front, back⟩ := sequence.of_append
    obtain ⟨start, behind⟩ := back.of_cons
    obtain ⟨middle, stop⟩ := behind.of_append
    obtain ⟨content, inside, rfl, source⟩ := Xml.exists_content_of_pieces middle closed
    have parts : t = before.flatMap Markup.source ++ ((Element.around tag content ending).source ++
        (after.flatMap Markup.source ++ rest)) := by
      rw [← whole, Element.source, source]
      simp only [List.flatMap_append, List.flatMap_cons, List.append_assoc]
    have here : At (HasText tag) (before.flatMap Markup.source) := by
      refine ⟨opened, ?_, text⟩
      rw [unmarked_eq (isMarked_of_append (parts ▸ unmarked))]
      exact Markup.opened?_flatMap front outer
    exact h _ tag content ending _ parts ⟨start, inside, stop.of_cons.1, name⟩ here
  · rintro h before tag content ending after rfl ⟨start, inside, stop, name⟩ ⟨opened, known, text⟩
    rw [unmarked_eq (isMarked_of_append unmarked), Markup.opened?_eq_some_iff] at known
    obtain ⟨faultless, outer⟩ := known
    obtain ⟨sequence, whole⟩ := Markup.exists_sequence_read faultless
    have balanced := (Element.around tag content ending).balanced ⟨start, inside, stop, name⟩
    have ends : Markup.EndsAll (Markup.read before).pieces ((Element.around tag content ending).source ++ after) :=
      fun _ _ _ c hc => by
        obtain rfl := Option.some.inj hc
        decide
    have front := Markup.readIn_sequence sequence ends outer
    have back := Markup.readIn_sequence balanced.sequence ((Element.around tag content ending).endsAll after)
      (balanced.nests opened)
    rw [balanced.source] at back
    rw [whole, back] at front
    refine h _ opened tag content.pieces ending (Markup.readIn opened after).pieces ?_ outer
      ((content.balanced inside).nests []) name text
    have all := congrArg Markup.Reading.pieces front
    rw [Element.pieces] at all
    show (Markup.readIn [] _).pieces = _
    simpa [Markup.Reading.prepend] using all

theorem closeEntityChild_marked (h : elementName c.tag ∈ textChildren → textOf true c = textOf false c) :
    closeEntityChild true e c = closeEntityChild false e c := by
  simp only [closeEntityChild]
  split
  · next name => rw [h (by rw [name]; decide)]
  · split
    · next name => rw [h (by rw [name]; decide)]
    · split
      · next name => rw [h (by rw [name]; decide)]
      · rfl

theorem closeFieldChild_marked (h : elementName c.tag ∈ fieldChildren → textOf true c = textOf false c) :
    closeFieldChild true f c = closeFieldChild false f c := by
  simp only [closeFieldChild]
  split
  · next name => rw [h (by rw [name]; decide)]
  · split
    · next name => rw [h (by rw [name]; decide)]
    · rfl

/-- The same state behind a byte order mark. -/
def State.behindMark (s : State) : State := { s with marked := true }

theorem stepOutside_behindMark (piece : Markup) :
    stepOutside s.behindMark piece = (stepOutside s piece).map State.behindMark := by
  cases piece with
  | inert source => rfl
  | closing ending => rfl
  | opening tag =>
    simp only [stepOutside]
    split
    · cases readNamespace tag <;> rfl
    · split
      · show (readEntity s.scope tag >>= _) = _
        cases readEntity s.scope tag <;> rfl
      · rfl
  | selfClosing tag =>
    simp only [stepOutside]
    split
    · show (readEntity s.scope tag >>= _) = _
      cases readEntity s.scope tag <;> rfl
    · rfl

theorem stepInEntity_behindMark (piece : Markup) :
    stepInEntity s.behindMark e piece = (stepInEntity s e piece).map State.behindMark := by
  cases piece with
  | inert source => rfl
  | closing ending => rfl
  | opening tag =>
    simp only [stepInEntity]
    split
    · cases readField tag <;> rfl
    · rfl
  | selfClosing tag =>
    simp only [stepInEntity]
    split
    · cases readField tag <;> rfl
    · split
      · cases readCase e.entity.kind.backing tag none <;> rfl
      · rfl

theorem stepInField_behindMark (piece : Markup) :
    stepInField s.behindMark e f piece = (stepInField s e f piece).map State.behindMark := by
  cases piece <;> rfl

section Behind
variable {ps qs : List Markup} {opened opened' : List Text} {piece : Markup}

/-- The text of a child of a harmless document is the same behind a mark. -/
theorem textOf_behindMark {ending : Text} (nests : ps.foldlM Markup.nest [] = .ok opened) (inside : Inside c [])
    (name : Markup.endName ending = Xml.tagName c.tag)
    (harmless : HarmlessPieces (ps ++ .opening c.tag :: c.pieces.reverse ++ .closing ending :: qs))
    (text : HasText c.tag opened) : textOf true c = textOf false c := by
  have found := harmless ps opened c.tag c.pieces.reverse ending qs (by simp) nests inside.nests name text
  have depth : c.depth = 0 := inside.depth
  obtain ⟨tag, depth', pieces⟩ := c
  obtain rfl : depth' = 0 := depth
  rwa [List.reverse_reverse] at found

/-- A piece of a harmless document does the same behind a mark. -/
theorem step_behindMark (unmarked : s.marked = false) (reached : Reached ps s.place)
    (nests : ps.foldlM Markup.nest [] = .ok opened) (nest : Markup.nest opened piece = .ok opened')
    (harmless : HarmlessPieces (ps ++ piece :: qs)) :
    step s.behindMark piece = (step s piece).map State.behindMark := by
  have same : s.behindMark.place = s.place := rfl
  unfold step
  rw [same]
  generalize s.place = place at reached
  cases reached with
  | outside => exact stepOutside_behindMark piece
  | inEntity => exact stepInEntity_behindMark piece
  | inField => exact stepInField_behindMark piece
  | @inEntityChild ps opened₀ inner e c before position other inside =>
    obtain rfl := Except.ok.inj ((inside.nests_all before).symm.trans nests)
    rcases inside.add? nest with ⟨c', inner', added, -⟩ | ⟨added, rfl, -, ending, rfl, name⟩
    · simp only [added]
      rfl
    · simp only [added]
      show (closeEntityChild true e c >>= _) = _
      rw [closeEntityChild_marked fun known => textOf_behindMark before inside name harmless (Or.inl ⟨position, known⟩),
        unmarked]
      cases closeEntityChild false e c <;> rfl
  | @inFieldChild ps opened₀ inner e f c before position inside =>
    obtain rfl := Except.ok.inj ((inside.nests_all before).symm.trans nests)
    rcases inside.add? nest with ⟨c', inner', added, -⟩ | ⟨added, rfl, -, ending, rfl, name⟩
    · simp only [added]
      rfl
    · simp only [added]
      show (closeFieldChild true f c >>= _) = _
      rw [closeFieldChild_marked fun known => textOf_behindMark before inside name harmless (Or.inr ⟨position, known⟩),
        unmarked]
      cases closeFieldChild false f c <;> rfl

/-- What is left of a harmless document does the same behind a mark, by induction on its pieces. -/
theorem foldlM_behindMark (unmarked : s.marked = false) (reached : Reached ps s.place)
    (nests : ps.foldlM Markup.nest [] = .ok opened) (nests' : qs.foldlM Markup.nest opened = .ok opened')
    (harmless : HarmlessPieces (ps ++ qs)) :
    qs.foldlM step s.behindMark = (qs.foldlM step s).map State.behindMark := by
  induction qs generalizing ps s opened with
  | nil => rfl
  | cons piece qs ih =>
    rw [List.foldlM_cons] at nests'
    obtain ⟨inner, nest, nests'⟩ := bind_eq_ok_iff.1 nests'
    rw [List.foldlM_cons, List.foldlM_cons, step_behindMark unmarked reached nests nest harmless]
    cases moves : step s piece with
    | error error => rfl
    | ok s' =>
      have still : s'.marked = false := (Grows.of_step moves).marked.trans unmarked
      have longer : ps ++ piece :: qs = ps ++ [piece] ++ qs := List.append_cons ps piece qs
      exact ih still (reached.step nests nest moves) (nests_concat nests nest) nests' (longer ▸ harmless)

end Behind

theorem parseText_behindMark {t : Text} (unmarked : isMarked t = false) (h : Harmless t) :
    parseText true t = parseText false t := by
  obtain ⟨-, -, opened, nests⟩ := Markup.sequence_readIn [] t
  have first : Reached [] (start false).place := .outside rfl fun _ h => absurd h List.not_mem_nil
  have run := foldlM_behindMark (s := start false) rfl first rfl nests ((harmless_iff unmarked).1 h)
  show ((Markup.readIn [] t).pieces.foldlM step (start false).behindMark >>= _) = _
  rw [run]
  show _ = ((Markup.readIn [] t).pieces.foldlM step (start false) >>= _)
  cases (Markup.readIn [] t).pieces.foldlM step (start false) <;> rfl

/-! ## Documents -/

/-- **A byte order mark changes nothing but texts**, and nothing at all where it leaves the texts as they are. -/
theorem parse_behindMark {t : Text} (h : isMarked t = false) :
    (Harmless t → parse ('\uFEFF' :: t) = parse t) ∧
      Alike DocumentError.OfText SameOutlines (parse ('\uFEFF' :: t)) (parse t) := by
  rw [parse_eq t, h, unmarked_eq h]
  exact ⟨fun harmless => parseText_behindMark h harmless, alike_parseText true false t⟩

/-- Behind a mark an empty text stays empty, but the end of the start tag stands in the place of a longer one. -/
theorem parse_behindMark_doc :
    let t := "<entity name='A'><doc></doc></entity>".toList
    let t' := "<entity name='A'><doc>One</doc></entity>".toList
    let entity (doc : Option String) : Entity := ⟨"A".toList, "A".toList, .record, [], [], doc.map String.toList⟩
    isMarked t = false ∧ Harmless t ∧ parse ('\uFEFF' :: t) = .ok [entity none] ∧
      parse t' = .ok [entity "One"] ∧ parse ('\uFEFF' :: t') = .ok [entity "oc>"] := by
  intro t t' entity
  have plain : isMarked t = false := by decide
  have read : (Markup.read t).pieces = [.opening "entity name='A'".toList, .opening "doc".toList,
      .closing "doc".toList, .closing "entity".toList] := by decide +kernel
  have harmless : Harmless t := by
    rw [harmless_iff plain, read]
    intro before opened tag inner ending after pieces outer closed name text
    rcases before with _ | ⟨first, before⟩
    · obtain rfl := Except.ok.inj outer
      rcases text with ⟨entity, -⟩ | ⟨field, -⟩
      · exact absurd entity id
      · exact absurd field id
    obtain ⟨-, behind⟩ := List.cons.inj pieces
    rcases before with _ | ⟨second, before⟩
    · obtain ⟨start, within⟩ := List.cons.inj behind
      obtain rfl := Markup.opening.inj start
      rcases inner with _ | ⟨third, inner⟩
      · decide +kernel
      · obtain ⟨rfl, -⟩ := List.cons.inj within
        exact absurd closed (by simp [Markup.nest])
    · simp [List.cons_eq_append_iff] at behind
  have same := (parse_behindMark plain).1 harmless
  have known : parse t = .ok [entity none] := by decide +kernel
  exact ⟨plain, harmless, same.trans known, by decide +kernel, by decide +kernel⟩

end Document

end DeclGen
