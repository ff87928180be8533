import DeclGen.Proofs.Document.Context

/-!
# Content without a meaning

* `resume_forget` : what is inside a child that has no meaning is forgotten at its end;
* `Ignored` : elements that their surroundings do not know, and comments;
* `parse_insert_ignored` : among the children of an entity or a field, and anywhere inside children that have no
  meaning, such content changes nothing.
-/

namespace DeclGen.Document
open Xml (Markup Element)

variable {s : State} {e : OpenEntity} {f : OpenField} {c : Collected} {opened : List Text} {ps : List Markup}
  {known : List Text} {before inserted after : Text}

/-! ## Children without a meaning -/

theorem add?_pieces (c : Collected) (pieces : List Markup) (piece : Markup) :
    { c with pieces }.add? piece = (c.add? piece).map fun c => { c with pieces := piece :: pieces } := by
  cases piece with
  | inert source => rfl
  | selfClosing tag => rfl
  | opening tag => rfl
  | closing ending =>
    simp only [Collected.add?]
    split
    · split <;> rfl
    · rfl

theorem tag_of_add? {c' : Collected} {piece : Markup} (h : c.add? piece = some c') : c'.tag = c.tag := by
  unfold Collected.add? at h
  split at h
  · exact Option.some.inj h ▸ rfl
  · split at h
    · split at h
      · exact absurd h (by simp)
      · exact Option.some.inj h ▸ rfl
    · exact Option.some.inj h ▸ rfl
  · exact Option.some.inj h ▸ rfl

/-- The pieces inside a child do not matter if they do not matter at its end. -/
theorem resume_forget {place : Collected → Place} {close : Collected → Except DocumentError State}
    (gathers : Gathers s place close)
    (unfinished : ∀ c pieces, (place { c with pieces }).unfinished = (place c).unfinished)
    (idle : ∀ c pieces, elementName c.tag ∉ known → close { c with pieces } = close c)
    (unknown : elementName c.tag ∉ known) (pieces : List Markup) (opened : List Text) (t : Text) :
    resume opened (s.atPlace (place { c with pieces })) t = resume opened (s.atPlace (place c)) t := by
  have go (after : State → Except DocumentError (List Entity))
      (same : ∀ c pieces, after (s.atPlace (place { c with pieces })) = after (s.atPlace (place c)))
      (ps : List Markup) :
      ∀ (c : Collected) (pieces : List Markup), elementName c.tag ∉ known →
        (ps.foldlM step (s.atPlace (place { c with pieces })) >>= after) =
          (ps.foldlM step (s.atPlace (place c)) >>= after) := by
    induction ps with
    | nil => exact fun c pieces _ => same c pieces
    | cons piece ps ih =>
      intro c pieces unknown
      rw [List.foldlM_cons, List.foldlM_cons, gathers, gathers, add?_pieces]
      cases added : c.add? piece with
      | none => exact congrArg (fun x => x >>= _ >>= _) (idle c pieces unknown)
      | some c' => exact ih c' (piece :: pieces) (tag_of_add? added ▸ unknown)
  refine go _ (fun c pieces => ?_) (Markup.readIn opened t).pieces c pieces unknown
  cases (Markup.readIn opened t).fault with
  | some fault => rfl
  | none =>
    have same : (s.atPlace (place { c with pieces })).place.unfinished = (s.atPlace (place c)).place.unfinished :=
      unfinished c pieces
    show finish (s.atPlace (place { c with pieces })) = finish (s.atPlace (place c))
    rw [finish, finish, same]
    rfl

/-! ## Surroundings -/

/-- Neither text nor elements with other names than the known ones mean anything where the state stands. -/
structure Overlooks (known : List Text) (s : State) : Prop where
  text : Deaf s
  element : ∀ x : Element, x.WellFormed → elementName x.tag ∉ known → Ignores s x.pieces

theorem overlooks_inEntity (s : State) (e : OpenEntity) : Overlooks entityChildren (s.atPlace (.inEntity e)) := by
  refine ⟨fun source => .of_eq rfl, fun x hx unknown => .of_eq ?_⟩
  rw [foldlM_entityChild hx, entityChild_unknown unknown]
  rfl

theorem overlooks_inField (s : State) (e : OpenEntity) (f : OpenField) :
    Overlooks fieldChildren (s.atPlace (.inField e f)) := by
  refine ⟨fun source => .of_eq rfl, fun x hx unknown => .of_eq ?_⟩
  rw [foldlM_fieldChild hx, fieldChild_unknown unknown]
  rfl

theorem overlooks_inChild {place : Collected → Place} {close : Collected → Except DocumentError State}
    (gathers : Gathers s place close)
    (unfinished : ∀ c pieces, (place { c with pieces }).unfinished = (place c).unfinished)
    (idle : ∀ c pieces, elementName c.tag ∉ known → close { c with pieces } = close c)
    (unknown : elementName c.tag ∉ known) : Overlooks [] (s.atPlace (place c)) := by
  have forget := resume_forget gathers unfinished idle unknown
  refine ⟨fun source => ⟨_, foldlM_gathers gathers rfl, forget _⟩, fun x hx _ => ?_⟩
  have depth : c.depth = (List.replicate c.depth (Xml.tagName c.tag)).count (Xml.tagName c.tag) :=
    List.count_replicate_self.symm
  have added := foldlM_add? depth ((x.balanced hx).nests _)
  rw [← depth] at added
  exact ⟨_, foldlM_gathers gathers added, forget _⟩

theorem overlooks_inEntityChild (s : State) (e : OpenEntity) (unknown : elementName c.tag ∉ entityChildren) :
    Overlooks [] (s.atPlace (.inEntityChild e c)) := by
  refine overlooks_inChild (gathers_inEntityChild s e) (fun _ _ => rfl) (fun c pieces unknown => ?_) unknown
  simp only [entityChildren, List.mem_cons, List.not_mem_nil, not_or] at unknown
  obtain ⟨doc, constructorDoc, field, case, -⟩ := unknown
  simp only [closeEntityChild, if_neg doc, if_neg constructorDoc, if_neg case]

theorem overlooks_inFieldChild (s : State) (e : OpenEntity) (f : OpenField)
    (unknown : elementName c.tag ∉ fieldChildren) : Overlooks [] (s.atPlace (.inFieldChild e f c)) := by
  refine overlooks_inChild (gathers_inFieldChild s e f) (fun _ _ => rfl) (fun c pieces unknown => ?_) unknown
  simp only [fieldChildren, List.mem_cons, List.not_mem_nil, not_or] at unknown
  obtain ⟨doc, annotation, -⟩ := unknown
  simp only [closeFieldChild, if_neg doc, if_neg annotation]

/-! ## Insertions -/

/-- An element with another name than the known ones, whatever it holds, or a comment. -/
inductive Ignored (known : List Text) : Text → Prop
  | element {x : Element} (wellFormed : x.WellFormed) (unknown : elementName x.tag ∉ known) : Ignored known x.source
  | comment {body : Text} (closed : ¬ "-->".toList <:+: body ++ "--".toList) :
    Ignored known ("<!--".toList ++ body ++ "-->".toList)

/-- Ignored content is made of pieces, from one mark-up to another, that surroundings overlook. -/
theorem Ignored.exists_pieces (h : Ignored known inserted) : ∃ ps : List Markup,
    Xml.Balanced inserted ps ∧ (∀ after, Markup.EndsAll ps after) ∧
      (∀ after, ∀ c ∈ (inserted ++ after).head?, Markup.endsText c = true) ∧
      ∀ s : State, Overlooks known s → Ignores s ps := by
  cases h with
  | @element x wellFormed unknown =>
    refine ⟨x.pieces, x.balanced wellFormed, x.endsAll, fun after c hc => ?_, fun s h => h.element x wellFormed unknown⟩
    obtain ⟨text, starts⟩ := x.exists_source after
    rw [starts] at hc
    obtain rfl := Option.some.inj hc
    decide
  | @comment body closed =>
    have whole := Markup.whole_comment closed
    refine ⟨[.inert ("<!--".toList ++ body ++ "-->".toList)], ⟨⟨?_, List.isChain_singleton _⟩, ?_, fun _ => rfl⟩,
      fun after piece hp => ?_, fun after c hc => ?_, fun s h => h.text _⟩
    · simpa using whole
    · exact List.flatMap_singleton _ _
    · obtain rfl := Option.some.inj hp
      exact .of_not_isText rfl after
    · obtain rfl := Option.some.inj hc
      decide

theorem parse_insert {position : List Text → Prop} (here : At position before) (around : ¬ position [])
    (overlooks : ∀ ps s opened, Reached ps s.place → ps.foldlM Markup.nest [] = .ok opened → position opened →
      Overlooks known s) (ignored : Ignored known inserted) :
    parse (before ++ (inserted ++ after)) = parse (before ++ after) := by
  have hne := here.ne_nil around
  obtain ⟨opened, behind, position⟩ := here
  obtain ⟨ps, balanced, ends, starts, ignores⟩ := ignored.exists_pieces
  have nests := (Markup.opened?_eq_some_iff.1 behind).2
  rw [parse_append behind _ (Or.inl (starts after)), parse_append behind after
    (Or.inr ⟨hne, fun ps s reached nests => (overlooks ps s opened reached nests position).text⟩)]
  cases hs : readUpTo before with
  | error error => rfl
  | ok s =>
    have read := resume_of_endsAll (s := s) balanced.sequence (balanced.nests opened) (ends after)
    obtain ⟨s', moves, same⟩ := ignores s (overlooks _ s opened (reached_readUpTo behind hs) nests position)
    rw [balanced.source, moves] at read
    exact read.trans (same opened after)

/-- **Content without a meaning changes nothing.** Among the children of an entity, or of a field of an entity,
these are elements that it does not know, with whatever is inside them, and comments; inside a child without a
meaning they are all elements and comments. -/
theorem parse_insert_ignored (h : InEntity before ∧ Ignored entityChildren inserted ∨
      InField before ∧ Ignored fieldChildren inserted ∨ InUnknown before ∧ Ignored [] inserted) :
    parse (before ++ (inserted ++ after)) = parse (before ++ after) := by
  rcases h with ⟨here, ignored⟩ | ⟨here, ignored⟩ | ⟨here, ignored⟩
  · refine parse_insert here id (fun ps s opened reached nests position => ?_) ignored
    obtain ⟨e, place⟩ := reached.exists_inEntity nests position
    have overlooks := overlooks_inEntity s e
    rwa [State.atPlace, ← place] at overlooks
  · refine parse_insert here id (fun ps s opened reached nests position => ?_) ignored
    obtain ⟨e, f, place⟩ := reached.exists_inField nests position
    have overlooks := overlooks_inField s e f
    rwa [State.atPlace, ← place] at overlooks
  · refine parse_insert here (fun h => ?_) (fun ps s opened reached nests position => ?_) ignored
    · obtain ⟨inner, name, outer, empty, -⟩ := h
      exact absurd empty (by simp)
    · obtain ⟨inner, name, outer, rfl, ⟨entity, unknown⟩ | ⟨field, unknown⟩⟩ := position
      · have other : Xml.localName name ≠ "field".toList := by
          rintro same
          exact unknown (by rw [same]; decide)
        obtain ⟨e, c, place, rfl⟩ := reached.exists_inEntityChild nests entity other
        have overlooks := overlooks_inEntityChild s e unknown
        rwa [State.atPlace, ← place] at overlooks
      · obtain ⟨e, f, c, place, rfl⟩ := reached.exists_inFieldChild nests field
        have overlooks := overlooks_inFieldChild s e f unknown
        rwa [State.atPlace, ← place] at overlooks

/-- A note with a field and another note inside it. -/
theorem parse_insert_ignored_note :
    let before := "<entities><entity name=\"A\"><doc>One</doc>".toList
    let note := "<note> <field name=\"c\"/><note>a &amp; b</note></note>".toList
    let after := "<field name=\"b\" type=\"int\"/></entity></entities>".toList
    InEntity before ∧ Ignored entityChildren note ∧ parse (before ++ (note ++ after)) = parse (before ++ after) ∧
      parse (before ++ after) = .ok [⟨"A".toList, "A".toList, .record,
        [⟨"b".toList, "int".toList, none, false, false, none⟩], [], some "One".toList⟩] := by
  intro before note after
  have here : InEntity before := ⟨["entity".toList, "entities".toList], by decide +kernel, by decide⟩
  have ignored : Ignored entityChildren note :=
    .element (x := .around "note".toList (.child " ".toList (.selfClosing "field name=\"c\"".toList)
      (.child [] (.around "note".toList (.gap "a &amp; b".toList) "note".toList) (.gap []))) "note".toList)
      (by decide +kernel) (by decide)
  exact ⟨here, ignored, parse_insert_ignored (Or.inl ⟨here, ignored⟩), by decide +kernel⟩

end DeclGen.Document
