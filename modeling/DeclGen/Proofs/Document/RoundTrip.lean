import DeclGen.Proofs.Document.Writing
import DeclGen.Proofs.Xml.Markup

/-!
# Entity documents are read back

* `Document.resume` : reading from a state in the middle of a document;
* `Document.Takes` : a part of a document leads from one state to another, whatever follows it;
  `Takes.trans`, `Takes.flatten`, `Takes.option` : parts one after the other, parts that may be missing;
* `takes_opening`, `takes_selfClosing`, `takes_closing`, `takes_leaf` : written tags and elements;
* `takes_field`, `takes_member`, `takes_entity` : what they say is added;
* `parse_document` : a document of entities is read as these entities.
-/

namespace DeclGen.Document
open Xml (Markup Attribute IsWord Keyed Escaped)

variable {l : Layout} {opened opened' opened'' : List Text} {s s' s'' : State}

/-- The entities of a document that is read up to `s`, inside the open elements, and goes on with `t`. -/
def resume (opened : List Text) (s : State) (t : Text) : Except DocumentError (List Entity) := do
  let reading := Markup.readIn opened t
  let final ← reading.pieces.foldlM step s
  match reading.fault with
  | some fault => .error (.markup fault)
  | none => finish final

theorem parseText_eq (marked : Bool) (t : Text) : parseText marked t = resume [] (start marked) t := rfl

theorem resume_of_readIn {t t' : Text} {pieces : List Markup}
    (hr : Markup.readIn opened t = (Markup.readIn opened' t').prepend pieces)
    (hs : pieces.foldlM step s = .ok s') : resume opened s t = resume opened' s' t' := by
  rw [resume, hr, Markup.Reading.prepend]
  simp only [List.foldlM_append, hs, ok_bind]
  rfl

theorem resume_of_next {t t' : Text} {piece : Markup} {c : Char}
    (hn : Markup.next (c :: t) = .ok (piece, t')) (ho : Markup.nest opened piece = .ok opened')
    (hs : step s piece = .ok s') : resume opened s (c :: t) = resume opened' s' t' :=
  resume_of_readIn (Markup.readIn_of_next hn ho) (by rw [List.foldlM_cons, hs]; rfl)

/-- Reading `t` leads from one state, inside the open elements, to another. -/
def Takes (opened : List Text) (s : State) (t : Text) (opened' : List Text) (s' : State) : Prop :=
  ∀ rest, resume opened s (t ++ rest) = resume opened' s' rest

theorem Takes.refl (opened : List Text) (s : State) : Takes opened s [] opened s := fun _ => rfl

theorem Takes.trans {t t' : Text} (h : Takes opened s t opened' s') (h' : Takes opened' s' t' opened'' s'') :
    Takes opened s (t ++ t') opened'' s'' := by
  intro rest
  rw [List.append_assoc, h, h']

/-- Parts that are taken one after the other, each adding one thing to what was read. -/
theorem Takes.flatten {α : Type} {S : List α → State} {text : α → Text} {as : List α}
    (h : ∀ r, ∀ a ∈ as, Takes opened (S r) (text a) opened (S (r ++ [a]))) (r : List α) :
    Takes opened (S r) (as.map text).flatten opened (S (r ++ as)) := by
  induction as generalizing r with
  | nil =>
    rw [List.append_nil]
    exact Takes.refl _ _
  | cons a as ih =>
    have others := ih (fun r b hb => h r b (List.mem_cons_of_mem a hb)) (r ++ [a])
    rw [List.append_assoc] at others
    exact (h r a List.mem_cons_self).trans others

/-- A part that may be missing. -/
theorem Takes.option {α : Type} {text : α → Text} {o : Option α} (missing : o = none → s = s')
    (there : ∀ a, o = some a → Takes opened s (text a) opened s') :
    Takes opened s (o.toList.map text).flatten opened s' := by
  cases o with
  | none =>
    rw [missing rfl]
    exact Takes.refl _ _
  | some a => exact (there a rfl).trans (Takes.refl _ _)

/-! ## Tags -/

/-- Text between tags means nothing. -/
def State.Idle (s : State) : Prop := ∀ source, step s (.inert source) = .ok s

theorem foldlM_inert (h : s.Idle) (sources : List Text) :
    (sources.map Markup.inert).foldlM step s = .ok s := by
  induction sources with
  | nil => rfl
  | cons source sources ih => rw [List.map_cons, List.foldlM_cons, h, ok_bind, ih]

theorem escaped_gap (l : Layout) (depth : Nat) : Escaped (l.gap depth) := by
  refine Xml.escaped_of_forall fun c hc => ?_
  have space := l.isSpace_gap depth c hc
  simp only [Xml.isSpace, Bool.or_eq_true, decide_eq_true_eq] at space
  rcases space with ((rfl | rfl) | rfl) | rfl <;> decide

theorem resume_gap (h : s.Idle) (depth : Nat) (rest : Text) :
    resume opened s (l.gap depth ++ '<' :: rest) = resume opened s ('<' :: rest) := by
  obtain ⟨sources, -, hr⟩ := Markup.exists_sources (escaped_gap l depth)
  exact resume_of_readIn (hr opened rest) (foldlM_inert h sources)

section Tags
variable {name : Text} {as : List Attribute} {depth : Nat}

theorem takes_opening (idle : s.Idle) (hname : IsWord name) (keyed : Keyed as)
    (hs : step s (.opening (Xml.content l.quote name as)) = .ok s') :
    Takes opened s (l.opening depth name as) (name :: opened) s' := by
  intro rest
  have shape : l.opening depth name as ++ rest =
      l.gap depth ++ '<' :: (Xml.content l.quote name as ++ '>' :: rest) := by
    simp [Layout.opening]
  rw [shape, resume_gap idle]
  exact resume_of_next (Markup.next_opening l.isQuote_quote hname keyed rest)
    (Markup.nest_opening hname opened) hs

theorem takes_selfClosing (idle : s.Idle) (hname : IsWord name) (keyed : Keyed as)
    (hs : step s (.selfClosing (Xml.content l.quote name as)) = .ok s') :
    Takes opened s (l.selfClosing depth name as) opened s' := by
  intro rest
  have shape : l.selfClosing depth name as ++ rest =
      l.gap depth ++ '<' :: (Xml.content l.quote name as ++ '/' :: '>' :: rest) := by
    simp [Layout.selfClosing]
  rw [shape, resume_gap idle]
  exact resume_of_next (Markup.next_selfClosing l.isQuote_quote hname keyed rest) rfl hs

theorem takes_closing (idle : s.Idle) (hname : IsWord name) (hs : step s (.closing name) = .ok s') :
    Takes (name :: opened) s (l.closing depth name) opened s' := by
  intro rest
  have shape : l.closing depth name ++ rest = l.gap depth ++ '<' :: ('/' :: name ++ '>' :: rest) := by
    simp [Layout.closing]
  rw [shape, resume_gap idle]
  exact resume_of_next (Markup.next_closing hname rest) (Markup.nest_closing hname opened) hs

/-! ## Elements that hold a text -/

theorem elementName_content (hname : IsWord name) {quote : Char} :
    elementName (Xml.content quote name as) = name := by
  rw [elementName, Xml.tagName_content hname, Xml.localName_eq_self hname]

/-- The state of a document without byte order mark whose entities have no common namespace. -/
def reading (es : List Entity) (place : Place) : State := ⟨false, [], es, place⟩

/-- Reading collects a child at the places `place` and does with it what `close` says. -/
def Collects (es : List Entity) (place : Collected → Place)
    (close : Collected → Except DocumentError State) : Prop :=
  ∀ c piece, step (reading es (place c)) piece =
    match c.add? piece with
    | some c => .ok (reading es (place c))
    | none => close c

theorem foldlM_collect {es : List Entity} {place : Collected → Place}
    {close : Collected → Except DocumentError State} (h : Collects es place close) (sources : List Text) :
    ∀ c : Collected, (sources.map Markup.inert).foldlM step (reading es (place c)) =
      .ok (reading es (place { c with pieces := (sources.map Markup.inert).reverse ++ c.pieces })) := by
  induction sources with
  | nil => exact fun _ => rfl
  | cons source sources ih =>
    intro c
    rw [List.map_cons, List.foldlM_cons, h]
    show List.foldlM step (reading es (place { c with pieces := .inert source :: c.pieces })) _ = _
    rw [ih, List.reverse_cons, List.append_assoc]
    rfl

/-- An escaped text and the end tag behind it: the child that holds the text. -/
theorem takes_text {es : List Entity} {place : Collected → Place}
    {close : Collected → Except DocumentError State} (h : Collects es place close) (hname : IsWord name)
    {text : Text} (hs : ∀ c, c.tag = Xml.content l.quote name as → textOf false c = .ok text →
      close c = .ok s') :
    Takes (name :: opened) (reading es (place (collect (Xml.content l.quote name as))))
      (Xml.escape text ++ '<' :: '/' :: name ++ ['>']) opened s' := by
  intro rest
  obtain ⟨sources, hflat, hr⟩ := Markup.exists_sources (Xml.escaped_escape text)
  have shape : Xml.escape text ++ '<' :: '/' :: name ++ ['>'] ++ rest =
      Xml.escape text ++ '<' :: ('/' :: name ++ '>' :: rest) := by
    simp
  let c : Collected := ⟨Xml.content l.quote name as, 0, (sources.map Markup.inert).reverse⟩
  have held : textOf false c = .ok text := by
    have source : c.source = Xml.escape text := by
      rw [Collected.source, List.reverse_reverse, ← hflat, List.flatMap_map]
      exact List.flatMap_id
    rw [textOf, source]
    simp only [contentOf, Bool.false_eq_true, if_false, Xml.decodeText_escape]
  have ends : step (reading es (place c)) (.closing name) = .ok s' := by
    have last : c.add? (.closing name) = none := by
      simp only [Collected.add?, c, Xml.endName_eq_self hname, Xml.tagName_content hname, if_true]
    rw [h, last]
    exact hs c rfl held
  rw [shape, resume_of_readIn (hr _ _) (foldlM_collect h sources _)]
  have pieces : (sources.map Markup.inert).reverse ++ (collect (Xml.content l.quote name as)).pieces =
      c.pieces := List.append_nil _
  rw [pieces]
  exact resume_of_next (Markup.next_closing hname rest) (Markup.nest_closing hname opened) ends

end Tags

theorem collects_inEntityChild (es : List Entity) (e : OpenEntity) :
    Collects es (.inEntityChild e) fun c =>
      (closeEntityChild false e c).map fun e => reading es (.inEntity e) := by
  intro c piece
  show (match c.add? piece with | some child => _ | none => _) = _
  split
  · rfl
  · cases closeEntityChild false e c <;> rfl

theorem collects_inFieldChild (es : List Entity) (e : OpenEntity) (f : OpenField) :
    Collects es (.inFieldChild e f) fun c =>
      (closeFieldChild false f c).map fun f => reading es (.inField e f) := by
  intro c piece
  show (match c.add? piece with | some child => _ | none => _) = _
  split
  · rfl
  · cases closeFieldChild false f c <;> rfl

section Elements
variable {name : Text} {as : List Attribute} {depth : Nat} {es : List Entity}

theorem takes_entityLeaf {e e' : OpenEntity} (hname : IsWord name) (keyed : Keyed as)
    (other : name ≠ "field".toList) {text : Text}
    (hs : ∀ c, c.tag = Xml.content l.quote name as → textOf false c = .ok text →
      closeEntityChild false e c = .ok e') :
    Takes opened (reading es (.inEntity e)) (l.leaf depth name as text) opened
      (reading es (.inEntity e')) := by
  have start : Takes opened (reading es (.inEntity e)) (l.opening depth name as) (name :: opened)
      (reading es (.inEntityChild e (collect (Xml.content l.quote name as)))) := by
    refine takes_opening (fun _ => rfl) hname keyed ?_
    simp only [step, reading, stepInEntity, elementName_content hname, if_neg other]
  refine start.trans (takes_text (collects_inEntityChild es e) hname fun c ht hc => ?_)
  rw [hs c ht hc]
  rfl

theorem takes_fieldLeaf {e : OpenEntity} {f f' : OpenField} (hname : IsWord name) (keyed : Keyed as)
    {text : Text} (hs : ∀ c, c.tag = Xml.content l.quote name as → textOf false c = .ok text →
      closeFieldChild false f c = .ok f') :
    Takes opened (reading es (.inField e f)) (l.leaf depth name as text) opened
      (reading es (.inField e f')) := by
  have start : Takes opened (reading es (.inField e f)) (l.opening depth name as) (name :: opened)
      (reading es (.inFieldChild e f (collect (Xml.content l.quote name as)))) :=
    takes_opening (fun _ => rfl) hname keyed rfl
  refine start.trans (takes_text (collects_inFieldChild es e f) hname fun c ht hc => ?_)
  rw [hs c ht hc]
  rfl

end Elements

/-! ## Fields -/

theorem tagTails_eq_nil {tag t : Text} (h : Text.contains tag t = false) : Docblock.tagTails tag t = [] := by
  induction t with
  | nil => rfl
  | cons c t ih =>
    rw [Text.contains, Bool.or_eq_false_iff] at h
    have none : Text.after? tag (c :: t) = none := by
      cases found : Text.after? tag (c :: t) with
      | none => rfl
      | some rest =>
        rw [Text.after?_eq_some_iff.1 found] at h
        exact absurd h.1 (by simp)
    rw [Docblock.tagTails, none]
    exact ih h.2

theorem varType_eq_none {raw : Text} (h : Text.contains "@var".toList raw = false) :
    Docblock.varType raw = none := by
  rw [Docblock.varType, tagTails_eq_nil h]
  rfl

theorem finishField_written {f : Field} (h : f.Writable) : finishField { f with doc := none } f.doc = f := by
  obtain ⟨name, declared, typeExpr, allowsNull, excluded, doc⟩ := f
  cases doc with
  | none => rfl
  | some d =>
    obtain ⟨clean, var⟩ := h.doc d rfl
    simp only [finishField, clean, varType_eq_none var]
    cases typeExpr <;> rfl

variable {es : List Entity}

theorem takes_fieldDoc {e : OpenEntity} {f : Field} (doc : Option Text) :
    Takes opened (reading es (.inField e ⟨f, none⟩)) (doc.toList.map (l.leaf 3 "doc".toList [])).flatten
      opened (reading es (.inField e ⟨f, doc⟩)) := by
  refine Takes.option (fun missing => by rw [missing]) fun d hd => ?_
  refine takes_fieldLeaf (by decide) Xml.keyed_nil fun c ht hc => ?_
  have hname : elementName c.tag = "doc".toList := by rw [ht, elementName_content (by decide)]
  simp only [closeFieldChild, hname, if_true, hc, ok_bind, hd]
  rfl

theorem takes_annotation {e : OpenEntity} {f : Field} (h : f.Writable) :
    Takes opened (reading es (.inField e ⟨{ f with typeExpr := none, doc := none }, none⟩))
      (f.typeExpr.toList.map (l.leaf 3 "annotation".toList [])).flatten opened
      (reading es (.inField e ⟨{ f with doc := none }, none⟩)) := by
  refine Takes.option (fun missing => by rw [missing]) fun t hexpr => ?_
  obtain ⟨nonempty, trimmed⟩ := h.typeExpr t hexpr
  refine takes_fieldLeaf (by decide) Xml.keyed_nil fun c ht hc => ?_
  have hname : elementName c.tag = "annotation".toList := by rw [ht, elementName_content (by decide)]
  simp only [closeFieldChild, hname, hc, ok_bind, trimmed, if_neg nonempty, hexpr]
  rfl

theorem eq_none_of_childless {f : Field} (h : l.fieldChildren f = []) :
    (if l.inside then none else f.typeExpr) = f.typeExpr ∧ f.doc = none := by
  obtain ⟨first, second⟩ := List.append_eq_nil_iff.1 h
  refine ⟨?_, by simpa using second⟩
  split
  · next inside =>
    rw [if_pos inside] at first
    exact (show f.typeExpr = none by simpa using first).symm
  · rfl

/-- A written field is added to the entity that is open. -/
theorem takes_field {e : OpenEntity} {f : Field} (h : f.Writable) :
    Takes opened (reading es (.inEntity e)) (l.field f) opened
      (reading es (.inEntity { e with entity := e.entity.addField f })) := by
  have tag := readField_content (l := l) h
  have hname : elementName (Xml.content l.quote "field".toList (l.fieldAttributes f)) = "field".toList :=
    elementName_content (by decide)
  unfold Layout.field Layout.element
  split
  · next childless =>
    refine takes_selfClosing (fun _ => rfl) (by decide) (keyed_fieldAttributes f) ?_
    have whole : { f with typeExpr := if l.inside then none else f.typeExpr, doc := none } = f := by
      obtain ⟨typeExpr, doc⟩ := eq_none_of_childless childless
      rw [typeExpr, ← doc]
    simp only [step, reading, stepInEntity, hname, if_true, tag, whole, ok_bind]
    rfl
  · have start : Takes opened (reading es (.inEntity e)) (l.opening 2 "field".toList (l.fieldAttributes f))
        ("field".toList :: opened) (reading es (.inField e
          ⟨{ f with typeExpr := if l.inside then none else f.typeExpr, doc := none }, none⟩)) := by
      refine takes_opening (fun _ => rfl) (by decide) (keyed_fieldAttributes f) ?_
      simp only [step, reading, stepInEntity, hname, if_true, tag, ok_bind]
      rfl
    have children : Takes ("field".toList :: opened) (reading es (.inField e
          ⟨{ f with typeExpr := if l.inside then none else f.typeExpr, doc := none }, none⟩))
        (l.fieldChildren f).flatten ("field".toList :: opened)
        (reading es (.inField e ⟨{ f with doc := none }, f.doc⟩)) := by
      rw [Layout.fieldChildren, List.flatten_append]
      refine Takes.trans ?_ (takes_fieldDoc f.doc)
      split
      · exact takes_annotation h
      · exact Takes.refl _ _
    refine (start.trans children).trans (takes_closing (fun _ => rfl) (by decide) ?_)
    show Except.ok (reading es (.inEntity { e with entity := e.entity.addField _ })) = _
    rw [closeField, finishField_written h]

/-! ## Members -/

theorem keyed_name (name : Text) : Keyed [("name".toList, name)] :=
  keyed_of_sublist (List.Sublist.refl ["name".toList]) (by decide) (by decide)

theorem keyed_nameValue (name value : Text) : Keyed [("name".toList, name), ("value".toList, value)] :=
  keyed_of_sublist (List.Sublist.refl ["name".toList, "value".toList]) (by decide) (by decide)

theorem readCase_name {backing : Option Backing} {m : Member} {text : Option Text}
    (h : caseValue backing m.name text = .ok m.value) :
    readCase backing (Xml.content l.quote "case".toList [("name".toList, m.name)]) text = .ok m := by
  have found : [("name".toList, m.name)].foldlM CaseAttributes.add ⟨none, none⟩ = .ok ⟨some m.name, none⟩ :=
    rfl
  rw [readCase, foldAttributes_content (by decide) (keyed_name _), found, ok_bind]
  show (caseValue backing m.name text >>= fun value => Except.ok (Member.mk m.name value)) = _
  rw [h]
  rfl

theorem readCase_value {backing : Option Backing} {m : Member}
    (h : caseValue backing m.name (some m.value.written) = .ok m.value) :
    readCase backing (Xml.content l.quote "case".toList
      [("name".toList, m.name), ("value".toList, m.value.written)]) none = .ok m := by
  have found : [("name".toList, m.name), ("value".toList, m.value.written)].foldlM CaseAttributes.add
      ⟨none, none⟩ = .ok ⟨some m.name, some m.value.written⟩ :=
    rfl
  rw [readCase, foldAttributes_content (by decide) (keyed_nameValue _ _), found, ok_bind]
  show (caseValue backing m.name (some m.value.written) >>= fun value =>
    Except.ok (Member.mk m.name value)) = _
  rw [h]
  rfl

/-- A written member is added to the entity that is open. -/
theorem takes_member {e : OpenEntity} {m : Member} (h : m.value.Fits m.name e.entity.kind.backing) :
    Takes opened (reading es (.inEntity e)) (l.member e.entity.kind.backing m) opened
      (reading es (.inEntity { e with entity := e.entity.addMember m })) := by
  have hname {as : List Attribute} : elementName (Xml.content l.quote "case".toList as) = "case".toList :=
    elementName_content (by decide)
  unfold Layout.member
  split
  · next unbacked =>
    have value : caseValue e.entity.kind.backing m.name none = .ok m.value := by
      rw [unbacked] at h ⊢
      exact congrArg Except.ok h.symm
    refine takes_selfClosing (fun _ => rfl) (by decide) (keyed_name _) ?_
    simp only [step, reading, stepInEntity, hname, readCase_name value, ok_bind]
    rfl
  · next backed =>
    have value := caseValue_written h backed
    split
    · refine takes_entityLeaf (by decide) (keyed_name _) (by decide) fun c ht hc => ?_
      simp only [closeEntityChild, ht, hname, hc, ok_bind, readCase_name value]
      rfl
    · refine takes_selfClosing (fun _ => rfl) (by decide) (keyed_nameValue _ _) ?_
      simp only [step, reading, stepInEntity, hname, readCase_value value, ok_bind]
      rfl

/-! ## Entities -/

/-- What is known of an entity behind its start tag. -/
def opening (e : Entity) : OpenEntity :=
  ⟨⟨e.shortName, e.qualifiedName, e.kind, [], [], none⟩, e.shortName, none⟩

theorem takes_entityDoc {e : Entity} (h : e.Writable) :
    Takes opened (reading es (.inEntity (opening e))) (e.doc.toList.map (l.leaf 2 "doc".toList [])).flatten
      opened (reading es (.inEntity ⟨{ (opening e).entity with doc := e.doc }, e.shortName, none⟩)) := by
  refine Takes.option (fun missing => by rw [missing]; rfl) fun d hd => ?_
  refine takes_entityLeaf (by decide) Xml.keyed_nil (by decide) fun c ht hc => ?_
  have hname : elementName c.tag = "doc".toList := by rw [ht, elementName_content (by decide)]
  simp only [closeEntityChild, hname, if_true, hc, ok_bind, h.doc d hd, hd]
  rfl

theorem takes_fields {e : Entity} (h : e.Writable) :
    Takes opened (reading es (.inEntity ⟨{ e with fields := [], members := [] }, e.shortName, none⟩))
      (e.fields.map l.field).flatten opened
      (reading es (.inEntity ⟨{ e with members := [] }, e.shortName, none⟩)) :=
  Takes.flatten (S := fun fs =>
    reading es (.inEntity ⟨{ e with fields := fs, members := [] }, e.shortName, none⟩))
    (fun _ f hf => takes_field (h.fields f hf)) []

theorem takes_members {e : Entity} (h : e.Writable) :
    Takes opened (reading es (.inEntity ⟨{ e with members := [] }, e.shortName, none⟩))
      (e.members.map (l.member e.kind.backing)).flatten opened
      (reading es (.inEntity ⟨e, e.shortName, none⟩)) :=
  Takes.flatten (S := fun ms => reading es (.inEntity ⟨{ e with members := ms }, e.shortName, none⟩))
    (fun r m hm => takes_member (e := ⟨{ e with members := r }, e.shortName, none⟩) (h.members m hm)) []

/-- A written entity is added to the entities of the document. -/
theorem takes_entity {e : Entity} (h : e.Writable) :
    Takes opened (reading es .outside) (l.entity e) opened (reading (es ++ [e]) .outside) := by
  have tag := readEntity_content (l := l) h
  have hname : elementName (Xml.content l.quote "entity".toList (Layout.entityAttributes e)) =
      "entity".toList :=
    elementName_content (by decide)
  unfold Layout.entity Layout.element
  split
  · next childless =>
    have whole : (opening e).entity = e := by
      obtain ⟨front, members⟩ := List.append_eq_nil_iff.1 childless
      obtain ⟨doc, fields⟩ := List.append_eq_nil_iff.1 front
      rw [List.map_eq_nil_iff] at fields members
      have doc : e.doc = none := by simpa using doc
      rw [opening, ← fields, ← members, ← doc]
    refine takes_selfClosing (fun _ => rfl) (by decide) (keyed_entityAttributes e) ?_
    simp only [step, reading, stepOutside, hname, if_true, tag, ok_bind]
    exact congrArg (fun d => Except.ok (reading (es ++ [d]) .outside)) whole
  · have start : Takes opened (reading es .outside) (l.opening 1 "entity".toList (Layout.entityAttributes e))
        ("entity".toList :: opened) (reading es (.inEntity (opening e))) := by
      refine takes_opening (fun _ => rfl) (by decide) (keyed_entityAttributes e) ?_
      simp only [step, reading, stepOutside, hname, if_true, tag, ok_bind]
      rfl
    have children : Takes ("entity".toList :: opened) (reading es (.inEntity (opening e)))
        (l.entityChildren e).flatten ("entity".toList :: opened)
        (reading es (.inEntity ⟨e, e.shortName, none⟩)) := by
      rw [Layout.entityChildren, List.flatten_append, List.flatten_append]
      exact ((takes_entityDoc h).trans (takes_fields h)).trans (takes_members h)
    exact (start.trans children).trans (takes_closing (fun _ => rfl) (by decide) rfl)

/-! ## Documents -/

theorem ne_mark_of_gap {l : Layout} {t : Text} : ∀ c ∈ (l.gap 0 ++ '<' :: t).head?, c ≠ '\uFEFF' := by
  intro c hc
  cases hg : l.gap 0 with
  | nil =>
    rw [hg] at hc
    obtain rfl := Option.some.inj hc
    decide
  | cons d gap =>
    rw [hg] at hc
    obtain rfl := Option.some.inj hc
    rintro rfl
    have space := l.isSpace_gap 0 '\uFEFF' (hg ▸ List.mem_cons_self)
    exact absurd space (by decide)

theorem parse_eq_parseText {t : Text} (h : ∀ c ∈ t.head?, c ≠ '\uFEFF') : parse t = parseText false t := by
  unfold parse
  split
  · next t => exact absurd rfl (h '\uFEFF' rfl)
  · rfl

/-- Entities are read back from their document, in order. -/
theorem parse_document (l : Layout) {es : List Entity} (hne : es ≠ []) (h : ∀ e ∈ es, e.Writable) :
    parse (l.document es) = .ok es := by
  have hname : elementName (Xml.content l.quote "entities".toList []) = "entities".toList :=
    elementName_content (by decide)
  have shape : l.document es = l.opening 0 "entities".toList [] ++ (es.map l.entity).flatten ++
      l.closing 0 "entities".toList := by
    rw [Layout.document, Layout.element, if_neg (by simpa using hne)]
  have start : Takes [] (Document.start false) (l.opening 0 "entities".toList []) ["entities".toList]
      (reading [] .outside) := by
    refine takes_opening (fun _ => rfl) (by decide) Xml.keyed_nil ?_
    have scope : readNamespace (Xml.content l.quote "entities".toList []) = .ok none :=
      readNamespace_content (by decide)
    simp only [step, Document.start, stepOutside, hname, if_true, scope, ok_bind]
    rfl
  have entities : Takes ["entities".toList] (reading [] .outside) (es.map l.entity).flatten
      ["entities".toList] (reading es .outside) :=
    Takes.flatten (S := fun es => reading es .outside) (fun _ e he => takes_entity (h e he)) []
  have finished : Takes [] (Document.start false) (l.document es) [] (reading es .outside) := by
    rw [shape]
    exact (start.trans entities).trans (takes_closing (fun _ => rfl) (by decide) rfl)
  have unmarked : ∀ c ∈ (l.document es).head?, c ≠ '\uFEFF' := by
    rw [shape, Layout.opening, List.append_assoc, List.append_assoc, List.append_assoc]
    exact ne_mark_of_gap
  rw [parse_eq_parseText unmarked, parseText_eq, ← List.append_nil (l.document es), finished]
  show (if es.isEmpty then Except.error DocumentError.noEntity else Except.ok es) = Except.ok es
  rw [if_neg (by simpa using hne)]

theorem parse_document_shop :
    let size : Entity := ⟨"Size".toList, "Shop\\Size".toList, .enumeration (some .integer), [],
      [⟨"Small".toList, .integer (-40)⟩, ⟨"\"Large\"".toList, .integer 52⟩], none⟩
    let item : Entity := ⟨"Item".toList, "Item".toList, .record,
      [⟨"size".toList, "?Size".toList, some "Shop\\Size|null".toList, true, false, none⟩,
        ⟨"tags & labels".toList, "array".toList, some "array<string, 'a'|\"b\">".toList, false, true,
          some "From A to Z\n<see below>".toList⟩], [], some "One item.".toList⟩
    [size, item] ≠ [] ∧ (∀ e ∈ [size, item], e.Writable) ∧
      parse ((Layout.indented '"' false (by decide)).document [size, item]) = .ok [size, item] := by
  intro size item
  have hsize : size.Writable :=
    ⟨⟨["Shop".toList], by decide, by decide⟩, by decide, by decide, by decide⟩
  have hitem : item.Writable :=
    ⟨⟨[], by decide, by decide⟩, by decide +kernel, by decide +kernel, by decide⟩
  have writable : ∀ e ∈ [size, item], e.Writable := by
    simp only [List.forall_mem_cons]
    exact ⟨hsize, hitem, fun _ h => absurd h List.not_mem_nil⟩
  exact ⟨by simp, writable, parse_document _ (by simp) writable⟩

end DeclGen.Document
