import DeclGen.Proofs.Document.RoundTrip
import DeclGen.Proofs.Xml.Element

/-!
# Elements of a document

What an element says is told by its tag and by the elements and the text inside it, wherever it stands.

* `innerText` : the text inside an element; `Unharmed` : it does not depend on a byte order mark;
* `fieldOf` : the field that an element describes;
* `Contribution`, `contribution` : what a child adds to the entity around it;
* `entityOf` : the entity that an element describes;
* `foldlM_fieldChild`, `foldlM_entityChild`, `foldlM_entity` : reading the pieces of an element comes to that.
-/

namespace DeclGen.Document
open Xml (Markup Element Contents)

variable {s : State} {marked : Bool} {e : OpenEntity} {f : OpenField} {x : Element} {content : Contents}
  {tag ending : Text}

/-! ## Texts -/

/-- What is collected up to the end tag of an element. -/
def held (tag : Text) (content : Contents) : Collected := ⟨tag, 0, content.pieces.reverse⟩

theorem source_held (h : content.WellFormed) : (held tag content).source = content.source := by
  rw [Collected.source, held, List.reverse_reverse, (content.balanced h).source]

/-- The text inside an element; a tag that closes itself has none. -/
def innerText (marked : Bool) : Element → Except DocumentError (Option Text)
  | .selfClosing _ => .ok none
  | .around tag content _ => (textOf marked (held tag content)).map some

/-- A byte order mark at the start of the document does not change the text of the element. -/
def Unharmed (marked : Bool) (tag : Text) (content : Contents) : Prop :=
  textOf marked (held tag content) = textOf false (held tag content)

/-! ## Fields -/

/-- The field after one of its children. -/
def fieldChild (marked : Bool) (f : OpenField) (x : Element) : Except DocumentError OpenField :=
  let name := elementName x.tag
  if name = "doc".toList then do
    let raw ← innerText marked x
    return { f with doc := raw <|> f.doc }
  else if name = "annotation".toList then do
    let text ← innerText marked x
    return { f with field := { f.field with
      typeExpr := (text.map Text.trim).filter (· != []) <|> f.field.typeExpr } }
  else .ok f

/-- The field that an element describes. -/
def fieldOf (marked : Bool) (x : Element) : Except DocumentError Field := do
  let field ← readField x.tag
  let f ← x.children.foldlM (fieldChild marked) ⟨field, none⟩
  return closeField f

/-! ## Entities -/

/-- What a child adds to the entity around it. -/
inductive Contribution where
  | nothing
  | doc (raw : Text)
  | constructorDoc (raw : Text)
  | field (f : Field)
  | member (m : Member)

/-- What an element contributes to an entity. -/
def contribution (marked : Bool) (backing : Option Backing) (x : Element) : Except DocumentError Contribution :=
  let name := elementName x.tag
  if name = "field".toList then (fieldOf marked x).map .field
  else if name = "case".toList then do
    let text ← innerText marked x
    let member ← readCase backing x.tag text
    return .member member
  else if name = "doc".toList then do
    let raw ← innerText marked x
    return raw.elim .nothing .doc
  else if name = "constructor-doc".toList then do
    let raw ← innerText marked x
    return raw.elim .nothing .constructorDoc
  else .ok .nothing

def OpenEntity.take (e : OpenEntity) : Contribution → OpenEntity
  | .nothing => e
  | .doc raw => { e with entity := { e.entity with doc := Docblock.clean raw } }
  | .constructorDoc raw => { e with constructorDoc := some raw }
  | .field f => { e with entity := e.entity.addField f }
  | .member m => { e with entity := e.entity.addMember m }

/-- The entity after one of its children. -/
def entityChild (marked : Bool) (e : OpenEntity) (x : Element) : Except DocumentError OpenEntity :=
  (contribution marked e.entity.kind.backing x).map e.take

/-- The entity that an element describes; `scope` holds if it has no namespace of its own. -/
def entityOf (marked : Bool) (scope : Text) (x : Element) : Except DocumentError Entity := do
  let (entity, name) ← readEntity scope x.tag
  let e ← x.children.foldlM (entityChild marked) ⟨entity, name, none⟩
  return closeEntity e

/-- The children of an entity that have a meaning. -/
def entityChildren : List Text := ["doc".toList, "constructor-doc".toList, "field".toList, "case".toList]

/-- The children of a field that have a meaning. -/
def fieldChildren : List Text := ["doc".toList, "annotation".toList]

theorem entityChild_unknown (h : elementName x.tag ∉ entityChildren) : entityChild marked e x = .ok e := by
  simp only [entityChildren, List.mem_cons, List.not_mem_nil, not_or] at h
  obtain ⟨doc, constructorDoc, field, case, -⟩ := h
  simp only [entityChild, contribution, if_neg doc, if_neg constructorDoc, if_neg field, if_neg case]
  rfl

theorem fieldChild_unknown (h : elementName x.tag ∉ fieldChildren) : fieldChild marked f x = .ok f := by
  simp only [fieldChildren, List.mem_cons, List.not_mem_nil, not_or] at h
  obtain ⟨doc, annotation, -⟩ := h
  simp only [fieldChild, if_neg doc, if_neg annotation]

/-! ## Collecting -/

def State.atPlace (s : State) (place : Place) : State := { s with place }

/-- At these places a child is collected, and `close` tells what comes of it. -/
def Gathers (s : State) (place : Collected → Place) (close : Collected → Except DocumentError State) : Prop :=
  ∀ c piece, step (s.atPlace (place c)) piece =
    match c.add? piece with
    | some c => .ok (s.atPlace (place c))
    | none => close c

theorem gathers_inEntityChild (s : State) (e : OpenEntity) :
    Gathers s (.inEntityChild e) fun c => (closeEntityChild s.marked e c).map fun e => s.atPlace (.inEntity e) := by
  intro c piece
  show (match c.add? piece with | some child => _ | none => _) = _
  split
  · rfl
  · exact (map_eq_bind _ _).symm

theorem gathers_inFieldChild (s : State) (e : OpenEntity) (f : OpenField) :
    Gathers s (.inFieldChild e f) fun c => (closeFieldChild s.marked f c).map fun f => s.atPlace (.inField e f) := by
  intro c piece
  show (match c.add? piece with | some child => _ | none => _) = _
  split
  · rfl
  · exact (map_eq_bind _ _).symm

/-- The depth of a child counts the elements of its name that are open inside it. -/
theorem foldlM_add? {pieces : List Markup} {opened opened' : List Text} {c : Collected}
    (depth : c.depth = opened.count (Xml.tagName c.tag)) (nests : pieces.foldlM Markup.nest opened = .ok opened') :
    pieces.foldlM Collected.add? c =
      some ⟨c.tag, opened'.count (Xml.tagName c.tag), pieces.reverse ++ c.pieces⟩ := by
  induction pieces generalizing opened c with
  | nil =>
    obtain rfl := Except.ok.inj nests
    rw [← depth]
    rfl
  | cons piece pieces ih =>
    rw [List.foldlM_cons] at nests
    obtain ⟨inner, nest, nests⟩ := bind_eq_ok_iff.1 nests
    have goal (found : c.add? piece = some ⟨c.tag, inner.count (Xml.tagName c.tag), piece :: c.pieces⟩) :
        (piece :: pieces).foldlM Collected.add? c =
          some ⟨c.tag, opened'.count (Xml.tagName c.tag), (piece :: pieces).reverse ++ c.pieces⟩ := by
      rw [List.foldlM_cons, found, List.reverse_cons, List.append_assoc]
      exact ih rfl nests
    apply goal
    cases piece with
    | inert source =>
      obtain rfl := Except.ok.inj nest
      simp only [Collected.add?, depth]
    | selfClosing tag =>
      obtain rfl := Except.ok.inj nest
      simp only [Collected.add?, depth]
    | opening tag =>
      obtain rfl := Except.ok.inj nest
      simp only [Collected.add?, depth, List.count_cons, beq_iff_eq]
      split <;> rfl
    | closing ending =>
      obtain rfl := Markup.nest_closing_eq_ok_iff.1 nest
      rw [List.count_cons] at depth
      simp only [Collected.add?]
      split
      · next own =>
        rw [own, beq_self_eq_true, if_pos rfl] at depth
        rw [if_neg (by omega), depth, Nat.add_sub_cancel]
      · next other =>
        rw [if_neg (by simpa using other), Nat.add_zero] at depth
        rw [depth]

theorem foldlM_gathers {place : Collected → Place} {close : Collected → Except DocumentError State}
    (h : Gathers s place close) {pieces : List Markup} :
    ∀ {c c' : Collected}, pieces.foldlM Collected.add? c = some c' →
      pieces.foldlM step (s.atPlace (place c)) = .ok (s.atPlace (place c')) := by
  induction pieces with
  | nil =>
    intro c c' found
    obtain rfl := Option.some.inj found
    rfl
  | cons piece pieces ih =>
    intro c c' found
    rw [List.foldlM_cons] at found
    obtain ⟨d, hd, found⟩ := Option.bind_eq_some_iff.1 found
    rw [List.foldlM_cons, h, hd]
    exact ih found

/-- What is inside an element is collected, and its end tag is recognized. -/
theorem foldlM_child {place : Collected → Place} {close : Collected → Except DocumentError State}
    (h : Gathers s place close) (inside : content.WellFormed) (name : Markup.endName ending = Xml.tagName tag) :
    (content.pieces ++ [Markup.closing ending]).foldlM step (s.atPlace (place (collect tag))) =
      close (held tag content) := by
  have depth : (collect tag).depth = List.count (Xml.tagName tag) [] := rfl
  have all := foldlM_add? depth ((content.balanced inside).nests [])
  have stop : (held tag content).add? (.closing ending) = none := by
    simp only [Collected.add?, held, name, if_true]
  have last : (collect tag).pieces = [] := rfl
  rw [last, List.append_nil] at all
  rw [List.foldlM_append, foldlM_gathers h all]
  show List.foldlM step (s.atPlace (place (held tag content))) [Markup.closing ending] = _
  rw [List.foldlM_cons, h, stop]
  cases close (held tag content) <;> rfl

/-! ## Reading elements -/

theorem foldlM_idle (h : s.Idle) {pieces : List Markup} (inert : ∀ piece ∈ pieces, piece.isInert = true) :
    pieces.foldlM step s = .ok s := by
  induction pieces with
  | nil => rfl
  | cons piece pieces ih =>
    rw [List.forall_mem_cons] at inert
    cases piece with
    | inert source =>
      rw [List.foldlM_cons, h source]
      exact ih inert.2
    | opening tag => exact absurd inert.1 (by simp [Markup.isInert])
    | selfClosing tag => exact absurd inert.1 (by simp [Markup.isInert])
    | closing ending => exact absurd inert.1 (by simp [Markup.isInert])

/-- At the places `place`, reading content is to let its elements act one after the other. -/
theorem foldlM_content {β : Type} (place : β → Place) (act : β → Element → Except DocumentError β)
    (idle : ∀ b, (s.atPlace (place b)).Idle)
    (h : ∀ b (x : Element), x.WellFormed →
      x.pieces.foldlM step (s.atPlace (place b)) = (act b x).map fun b => s.atPlace (place b)) :
    ∀ (content : Contents), content.WellFormed → ∀ b,
      content.pieces.foldlM step (s.atPlace (place b)) =
        (content.elements.foldlM act b).map fun b => s.atPlace (place b)
  | .gap text, gap, b => foldlM_idle (idle b) gap.2
  | .child before first rest, ⟨gap, element, others⟩, b => by
    rw [Contents.pieces, List.foldlM_append, foldlM_idle (idle b) gap.2, ok_bind, List.foldlM_append, h b first element,
      Contents.elements, List.foldlM_cons]
    cases act b first with
    | error error => rfl
    | ok b' => exact foldlM_content place act idle h rest others b'

theorem closeFieldChild_held (ending : Text) :
    closeFieldChild marked f (held tag content) = fieldChild marked f (.around tag content ending) := by
  have tags : (held tag content).tag = (Element.around tag content ending).tag := rfl
  simp only [closeFieldChild, fieldChild, innerText, tags, map_eq_bind]
  split
  · cases textOf marked (held tag content) <;> rfl
  · split
    · cases textOf marked (held tag content) with
      | error error => rfl
      | ok text =>
        show (if Text.trim text = [] then _ else _) = Except.ok _
        by_cases blank : Text.trim text = []
        · simp [blank, Option.filter]
          rfl
        · simp [blank, Option.filter]
          rfl
    · rfl

theorem fieldChild_selfClosing : fieldChild marked f (.selfClosing tag) = .ok f := by
  simp only [fieldChild]
  split
  · rfl
  · split <;> rfl

theorem foldlM_fieldChild (h : x.WellFormed) :
    x.pieces.foldlM step (s.atPlace (.inField e f)) =
      (fieldChild s.marked f x).map fun f => s.atPlace (.inField e f) := by
  cases x with
  | selfClosing tag =>
    rw [fieldChild_selfClosing]
    rfl
  | around tag content ending =>
    obtain ⟨-, inside, -, name⟩ := h
    rw [Element.pieces, List.foldlM_cons]
    show List.foldlM step (s.atPlace (.inFieldChild e f (collect tag))) _ = _
    rw [foldlM_child (gathers_inFieldChild s e f) inside name, closeFieldChild_held ending]

/-- A field is added to the entity around it. -/
theorem foldlM_field (h : x.WellFormed) (name : elementName x.tag = "field".toList) :
    x.pieces.foldlM step (s.atPlace (.inEntity e)) =
      (fieldOf s.marked x).map fun f => s.atPlace (.inEntity (e.take (.field f))) := by
  cases x with
  | selfClosing tag =>
    have name : elementName tag = "field".toList := name
    show (stepInEntity (s.atPlace (.inEntity e)) e (.selfClosing tag) >>= _) = _
    simp only [stepInEntity, name, if_true, fieldOf, Element.tag]
    cases readField tag <;> rfl
  | around tag content ending =>
    obtain ⟨-, inside, -, -⟩ := h
    have name : elementName tag = "field".toList := name
    have children := foldlM_content (s := s) (.inField e) (fieldChild s.marked) (fun _ _ => rfl)
      (fun _ _ => foldlM_fieldChild) content inside
    rw [Element.pieces, List.foldlM_cons]
    show (stepInEntity (s.atPlace (.inEntity e)) e (.opening tag) >>= _) = _
    simp only [stepInEntity, name, if_true, fieldOf, Element.tag, Element.children]
    cases readField tag with
    | error error => rfl
    | ok field =>
      show List.foldlM step (s.atPlace (.inField e ⟨field, none⟩)) _ = _
      rw [List.foldlM_append, children, ok_bind]
      cases content.elements.foldlM (fieldChild s.marked) ⟨field, none⟩ <;> rfl

theorem closeEntityChild_held (ending : Text) (other : elementName tag ≠ "field".toList) :
    closeEntityChild marked e (held tag content) = entityChild marked e (.around tag content ending) := by
  have tags : (held tag content).tag = tag := rfl
  simp only [closeEntityChild, entityChild, contribution, Element.tag, tags, if_neg other, innerText, map_eq_bind]
  by_cases doc : elementName tag = "doc".toList
  · simp only [doc, if_true, if_neg (show "doc".toList ≠ "case".toList by decide)]
    cases textOf marked (held tag content) <;> rfl
  by_cases constructorDoc : elementName tag = "constructor-doc".toList
  · simp only [constructorDoc, if_true, if_neg (show "constructor-doc".toList ≠ "case".toList by decide),
      if_neg (show "constructor-doc".toList ≠ "doc".toList by decide)]
    cases textOf marked (held tag content) <;> rfl
  simp only [if_neg doc, if_neg constructorDoc]
  split
  · cases textOf marked (held tag content) with
    | error error => rfl
    | ok text =>
      simp only [ok_bind]
      cases readCase e.entity.kind.backing tag (some text) <;> rfl
  · rfl

theorem entityChild_selfClosing (other : elementName tag ≠ "field".toList) :
    entityChild marked e (.selfClosing tag) =
      if elementName tag = "case".toList then
        (readCase e.entity.kind.backing tag none).map fun m => e.take (.member m)
      else .ok e := by
  have tags : (Element.selfClosing tag).tag = tag := rfl
  simp only [entityChild, contribution, innerText, ok_bind]
  generalize (Element.selfClosing tag).tag = t at tags
  rw [tags, if_neg other]
  split
  · cases readCase e.entity.kind.backing tag none <;> rfl
  · split
    · rfl
    · split <;> rfl

/-- A child of an entity does what it contributes. -/
theorem foldlM_entityChild (h : x.WellFormed) :
    x.pieces.foldlM step (s.atPlace (.inEntity e)) =
      (entityChild s.marked e x).map fun e => s.atPlace (.inEntity e) := by
  by_cases name : elementName x.tag = "field".toList
  · rw [foldlM_field h name, entityChild]
    simp only [contribution, name, if_true]
    cases fieldOf s.marked x <;> rfl
  · cases x with
    | selfClosing tag =>
      have name : elementName tag ≠ "field".toList := name
      show (stepInEntity (s.atPlace (.inEntity e)) e (.selfClosing tag) >>= _) = _
      simp only [stepInEntity, if_neg name, entityChild_selfClosing name]
      split
      · cases readCase e.entity.kind.backing tag none <;> rfl
      · rfl
    | around tag content ending =>
      obtain ⟨-, inside, -, same⟩ := h
      rw [Element.pieces, List.foldlM_cons]
      show (stepInEntity (s.atPlace (.inEntity e)) e (.opening tag) >>= _) = _
      have name : elementName tag ≠ "field".toList := name
      simp only [stepInEntity, if_neg name, ok_bind]
      show List.foldlM step (s.atPlace (.inEntityChild e (collect tag))) _ = _
      rw [foldlM_child (gathers_inEntityChild s e) inside same, closeEntityChild_held ending name]

/-- **An entity element adds the entity that it describes.** -/
theorem foldlM_entity (h : x.WellFormed) (name : elementName x.tag = "entity".toList) :
    x.pieces.foldlM step (s.atPlace .outside) =
      (entityOf s.marked s.scope x).map fun e => { s with entities := s.entities ++ [e], place := .outside } := by
  cases x with
  | selfClosing tag =>
    have name : elementName tag = "entity".toList := name
    show (stepOutside (s.atPlace .outside) (.selfClosing tag) >>= _) = _
    simp only [stepOutside, name, if_true, entityOf, Element.tag]
    show (readEntity s.scope tag >>= _ >>= _) = _
    cases readEntity s.scope tag <;> rfl
  | around tag content ending =>
    obtain ⟨-, inside, -, -⟩ := h
    have name : elementName tag = "entity".toList := name
    have children := foldlM_content (s := s) .inEntity (entityChild s.marked) (fun _ _ => rfl)
      (fun _ _ => foldlM_entityChild) content inside
    rw [Element.pieces, List.foldlM_cons]
    show (stepOutside (s.atPlace .outside) (.opening tag) >>= _) = _
    simp only [stepOutside, name, if_true, entityOf, Element.tag, Element.children]
    show (readEntity s.scope tag >>= _ >>= _) = _
    cases readEntity s.scope tag with
    | error error => rfl
    | ok found =>
      obtain ⟨entity, name⟩ := found
      show List.foldlM step (s.atPlace (.inEntity ⟨entity, name, none⟩)) _ = _
      rw [List.foldlM_append, children, ok_bind]
      cases content.elements.foldlM (entityChild s.marked) ⟨entity, name, none⟩ <;> rfl

end DeclGen.Document
