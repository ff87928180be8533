import DeclGen.Document.Elements
import DeclGen.Xml.Markup

/-!
# Reading entity documents

A document is read piece by piece. The state knows the entities that are complete and the place in
the document, with what was read of the entity and the field that are open; `step` is what one piece
of markup does to it.

* `Document.Place`, `Document.State` : where reading stands;
* `Document.step` : the state after a piece of markup;
* `Document.parse` : the entities of a document.
-/

namespace DeclGen.Document

open Xml (Markup)

/-! ## Where reading stands -/

/-- An entity whose end tag is still to come. -/
structure OpenEntity where
  entity : Entity
  /-- The name as written. -/
  name : Text
  constructorDoc : Option Text

/-- A field whose end tag is still to come. -/
structure OpenField where
  field : Field
  doc : Option Text

/-- An element whose content is collected up to its end tag. -/
structure Collected where
  /-- The content of its start tag. -/
  tag : Text
  /-- How many elements of the same name are open inside it. -/
  depth : Nat
  /-- What was read inside it, the last piece first. -/
  pieces : List Markup

/-- The source of the content. -/
def Collected.source (c : Collected) : Text := c.pieces.reverse.flatMap Markup.source

/-- The place in a document. -/
inductive Place where
  | outside
  | inEntity (e : OpenEntity)
  /-- Inside a child of an entity, its fields apart. -/
  | inEntityChild (e : OpenEntity) (child : Collected)
  | inField (e : OpenEntity) (f : OpenField)
  /-- Inside a child of a field. -/
  | inFieldChild (e : OpenEntity) (f : OpenField) (child : Collected)

/-- How far a document is read. -/
structure State where
  /-- Does the document start with a byte order mark? -/
  marked : Bool
  /-- The namespace of entities that have none of their own. -/
  scope : Text
  entities : List Entity
  place : Place

/-! ## The text of an element -/

/-- The size of a byte order mark. -/
def markSize : Nat := 3

/-- The content of an element whose start tag is `tag`. Positions do not count a byte order mark, so
behind one the content starts and ends that many bytes early. -/
def contentOf (marked : Bool) (tag content : Text) : Option Text :=
  if marked then do
    let before ← Text.dropBytes? markSize tag.reverse
    let all ← Text.dropBytes? markSize (tag ++ content).reverse
    return all.reverse.drop before.length
  else some content

/-- The text of a collected element. -/
def textOf (marked : Bool) (c : Collected) : Except DocumentError Text :=
  match contentOf marked (Markup.source (.opening c.tag)) c.source with
  | none => .error .contentOutOfRange
  | some content =>
    match Xml.decodeText content with
    | .ok text => .ok text
    | .error (.escape fault) => .error (.escape fault)
    | .error .unterminatedCData => .error .unterminatedCData

/-- The name that tells what an element is. -/
def elementName (tag : Text) : Text := Xml.localName (Xml.tagName tag)

/-! ## Ends of elements -/

/-- The entity after one of its children that is no field. -/
def closeEntityChild (marked : Bool) (e : OpenEntity) (c : Collected) :
    Except DocumentError OpenEntity :=
  let name := elementName c.tag
  if name = "doc".toList then do
    let raw ← textOf marked c
    return { e with entity := { e.entity with doc := Docblock.clean raw } }
  else if name = "constructor-doc".toList then do
    let raw ← textOf marked c
    return { e with constructorDoc := some raw }
  else if name = "case".toList then do
    let text ← textOf marked c
    let member ← readCase e.entity.kind.backing c.tag (some text)
    return { e with entity := e.entity.addMember member }
  else .ok e

/-- The field after one of its children. -/
def closeFieldChild (marked : Bool) (f : OpenField) (c : Collected) :
    Except DocumentError OpenField :=
  let name := elementName c.tag
  if name = "doc".toList then do
    let raw ← textOf marked c
    return { f with doc := some raw }
  else if name = "annotation".toList then do
    let text ← textOf marked c
    if Text.trim text = [] then return f
    else return { f with field := { f.field with typeExpr := some (Text.trim text) } }
  else .ok f

/-- The entity at its end tag. -/
def closeEntity (e : OpenEntity) : Entity := applyConstructorDoc e.constructorDoc e.entity

/-- The field at its end tag. -/
def closeField (f : OpenField) : Field := finishField f.field f.doc

/-- A child that starts with the given tag. -/
def collect (tag : Text) : Collected := ⟨tag, 0, []⟩

/-- The child after a piece of markup inside it; `none` once the piece is its end tag. -/
def Collected.add? (c : Collected) (piece : Markup) : Option Collected :=
  let pieces := piece :: c.pieces
  match piece with
  | .opening tag =>
    some ⟨c.tag, if Xml.tagName tag = Xml.tagName c.tag then c.depth + 1 else c.depth, pieces⟩
  | .closing content =>
    if Markup.endName content = Xml.tagName c.tag then
      if c.depth = 0 then none else some ⟨c.tag, c.depth - 1, pieces⟩
    else some { c with pieces }
  | _ => some { c with pieces }

/-! ## Pieces -/

/-- What a piece does outside entities: elements other than entities are transparent. -/
def stepOutside (s : State) : Markup → Except DocumentError State
  | .opening tag =>
    let name := elementName tag
    if name = "entities".toList then do
      let scope ← readNamespace tag
      return { s with scope := scope.getD s.scope }
    else if name = "entity".toList then do
      let (entity, name) ← readEntity s.scope tag
      return { s with place := .inEntity ⟨entity, name, none⟩ }
    else .ok s
  | .selfClosing tag =>
    if elementName tag = "entity".toList then do
      let (entity, _) ← readEntity s.scope tag
      return { s with entities := s.entities ++ [entity] }
    else .ok s
  | _ => .ok s

/-- What a piece does inside an entity. -/
def stepInEntity (s : State) (e : OpenEntity) : Markup → Except DocumentError State
  | .opening tag =>
    if elementName tag = "field".toList then do
      let field ← readField tag
      return { s with place := .inField e ⟨field, none⟩ }
    else .ok { s with place := .inEntityChild e (collect tag) }
  | .selfClosing tag =>
    let name := elementName tag
    if name = "field".toList then do
      let field ← readField tag
      return { s with place := .inEntity { e with entity := e.entity.addField field } }
    else if name = "case".toList then do
      let member ← readCase e.entity.kind.backing tag none
      return { s with place := .inEntity { e with entity := e.entity.addMember member } }
    else .ok s
  | .closing _ => .ok { s with entities := s.entities ++ [closeEntity e], place := .outside }
  | .inert _ => .ok s

/-- What a piece does inside a field. -/
def stepInField (s : State) (e : OpenEntity) (f : OpenField) : Markup → Except DocumentError State
  | .opening tag => .ok { s with place := .inFieldChild e f (collect tag) }
  | .closing _ =>
    .ok { s with place := .inEntity { e with entity := e.entity.addField (closeField f) } }
  | _ => .ok s

/-- The state after a piece of markup. -/
def step (s : State) (piece : Markup) : Except DocumentError State :=
  match s.place with
  | .outside => stepOutside s piece
  | .inEntity e => stepInEntity s e piece
  | .inField e f => stepInField s e f piece
  | .inEntityChild e child =>
    match child.add? piece with
    | some child => .ok { s with place := .inEntityChild e child }
    | none => do
      let e ← closeEntityChild s.marked e child
      return { s with place := .inEntity e }
  | .inFieldChild e f child =>
    match child.add? piece with
    | some child => .ok { s with place := .inFieldChild e f child }
    | none => do
      let f ← closeFieldChild s.marked f child
      return { s with place := .inField e f }

/-! ## Documents -/

/-- What is wrong if the document ends at a place. -/
def Place.unfinished : Place → Option DocumentError
  | outside => none
  | inEntity e => some (.unterminatedEntity e.name)
  | inField _ f => some (.unterminatedField f.field.name)
  | inEntityChild _ c => some (.markup (.illFormed (.missingEndTag (Xml.tagName c.tag))))
  | inFieldChild _ _ c => some (.markup (.illFormed (.missingEndTag (Xml.tagName c.tag))))

/-- The entities at the end of a document; there has to be one. -/
def finish (s : State) : Except DocumentError (List Entity) :=
  match s.place.unfinished with
  | some error => .error error
  | none => if s.entities.isEmpty then .error .noEntity else .ok s.entities

/-- Nothing is read yet. -/
def start (marked : Bool) : State := ⟨marked, [], [], .outside⟩

/-- The entities of a text behind which a byte order mark stands or not. -/
def parseText (marked : Bool) (t : Text) : Except DocumentError (List Entity) := do
  let reading := Markup.read t
  let final ← reading.pieces.foldlM step (start marked)
  match reading.fault with
  | some fault => .error (.markup fault)
  | none => finish final

/-- The entities of a document. -/
def parse : Text → Except DocumentError (List Entity)
  | '\uFEFF' :: t => parseText true t
  | t => parseText false t

end DeclGen.Document
