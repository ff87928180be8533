import DeclGen.Document.Reader
import DeclGen.Proofs.Name
import DeclGen.Proofs.Xml.Tag

/-!
# Writing entity documents

* `Document.Layout` : what a writer of documents may choose: the quotes, the blanks before tags, and whether
  annotations and values stand in attributes or in elements of their own;
* `Layout.entity`, `Layout.document` : entities as documents;
* `Entity.Writable` : the entities that documents can say;
* `readEntity_content`, `readField_content` : start tags are read back.
-/

namespace DeclGen

/-- The word for a backing. -/
def Backing.word : Backing → Text
  | .string => "string".toList
  | .integer => "int".toList

/-- The text of a member's value. -/
def EnumValue.written : EnumValue → Text
  | text value => value
  | integer value => Text.ofInt value

namespace Document
open Xml (Attribute IsWord Keyed)

structure Layout where
  /-- The quote around values. -/
  quote : Char
  /-- What stands before a tag inside so many elements. -/
  gap : Nat → Text
  /-- Do annotations and the values of members stand in elements, not in attributes? -/
  inside : Bool
  isQuote_quote : Xml.isQuote quote = true
  isSpace_gap : ∀ depth, ∀ c ∈ gap depth, Xml.isSpace c = true

namespace Layout
variable (l : Layout)

/-! ## Elements -/

def opening (depth : Nat) (name : Text) (as : List Attribute) : Text :=
  l.gap depth ++ '<' :: Xml.content l.quote name as ++ ['>']

def selfClosing (depth : Nat) (name : Text) (as : List Attribute) : Text :=
  l.gap depth ++ '<' :: Xml.content l.quote name as ++ ['/', '>']

def closing (depth : Nat) (name : Text) : Text := l.gap depth ++ '<' :: '/' :: name ++ ['>']

/-- An element that holds an escaped text and nothing else. -/
def leaf (depth : Nat) (name : Text) (as : List Attribute) (text : Text) : Text :=
  l.opening depth name as ++ (Xml.escape text ++ '<' :: '/' :: name ++ ['>'])

/-- An element with the given children. -/
def element (depth : Nat) (name : Text) (as : List Attribute) (children : List Text) : Text :=
  if children = [] then l.selfClosing depth name as
  else l.opening depth name as ++ children.flatten ++ l.closing depth name

/-! ## Entities -/

def flag (b : Bool) : Text := if b then "true".toList else "false".toList

def fieldAttributes (f : Field) : List Attribute :=
  [("name".toList, f.name), ("type".toList, f.declared), ("nullable".toList, flag f.allowsNull),
    ("exclude".toList, flag f.excluded)] ++
    if l.inside then [] else f.typeExpr.toList.map fun t => ("annotation".toList, t)

def fieldChildren (f : Field) : List Text :=
  (if l.inside then f.typeExpr.toList.map (l.leaf 3 "annotation".toList []) else []) ++
    f.doc.toList.map (l.leaf 3 "doc".toList [])

def field (f : Field) : Text := l.element 2 "field".toList (l.fieldAttributes f) (l.fieldChildren f)

/-- A member; without a backing its name is all there is to write. -/
def member (backing : Option Backing) (m : Member) : Text :=
  if backing = none then l.selfClosing 2 "case".toList [("name".toList, m.name)]
  else if l.inside then l.leaf 2 "case".toList [("name".toList, m.name)] m.value.written
  else l.selfClosing 2 "case".toList [("name".toList, m.name), ("value".toList, m.value.written)]

def kindAttributes : Kind → List Attribute
  | .record => [("kind".toList, "record".toList)]
  | .enumeration none => [("kind".toList, "enum".toList)]
  | .enumeration (some backing) => [("kind".toList, "enum".toList), ("backing".toList, backing.word)]

def entityAttributes (e : Entity) : List Attribute :=
  ("name".toList, e.shortName) ::
    (if e.scope = [] then [] else [("namespace".toList, e.scope)]) ++ kindAttributes e.kind

def entityChildren (e : Entity) : List Text :=
  e.doc.toList.map (l.leaf 2 "doc".toList []) ++ e.fields.map l.field ++
    e.members.map (l.member e.kind.backing)

def entity (e : Entity) : Text := l.element 1 "entity".toList (entityAttributes e) (l.entityChildren e)

/-- The document of the entities. -/
def document (es : List Entity) : Text := l.element 0 "entities".toList [] (es.map l.entity)

/-- Two spaces for each element around a tag, each tag on its own line. -/
def indented (quote : Char) (inside : Bool) (h : Xml.isQuote quote = true) : Layout where
  quote
  gap depth := '\n' :: List.replicate (2 * depth) ' '
  inside
  isQuote_quote := h
  isSpace_gap depth c hc := by
    rcases List.mem_cons.1 hc with rfl | hc
    · decide
    · rw [List.eq_of_mem_replicate hc]
      decide

example : (indented '"' true (by decide)).document
    [⟨"Size".toList, "Shop\\Size".toList, .enumeration (some .string), [],
      [⟨"S".toList, .text "<50 & up".toList⟩], none⟩] =
    ("\n<entities>" ++
      "\n  <entity name=\"Size\" namespace=\"Shop\" kind=\"enum\" backing=\"string\">" ++
      "\n    <case name=\"S\">&lt;50 &amp; up</case>" ++
      "\n  </entity>" ++
      "\n</entities>").toList := by
  decide +kernel

end Layout

end Document

/-! ## What documents can say -/

/-- The field is one that a document can say. -/
structure Field.Writable (f : Field) : Prop where
  declared : Text.trim f.declared = f.declared
  typeExpr : ∀ t ∈ f.typeExpr, t ≠ [] ∧ Text.trim t = t
  allowsNull : Document.allowsNull f.declared = true → f.allowsNull = true
  doc : ∀ d ∈ f.doc, Docblock.clean d = some d ∧ Text.contains "@var".toList d = false

instance (f : Field) : Decidable f.Writable :=
  decidable_of_iff (Text.trim f.declared = f.declared ∧ (∀ t ∈ f.typeExpr, t ≠ [] ∧ Text.trim t = t) ∧
      (Document.allowsNull f.declared = true → f.allowsNull = true) ∧
      ∀ d ∈ f.doc, Docblock.clean d = some d ∧ Text.contains "@var".toList d = false)
    ⟨fun ⟨declared, typeExpr, null, doc⟩ => ⟨declared, typeExpr, null, doc⟩,
      fun h => ⟨h.declared, h.typeExpr, h.allowsNull, h.doc⟩⟩

/-- The value is one of an enumeration with the given backing, in a member of the given name. -/
def EnumValue.Fits (name : Text) : Option Backing → EnumValue → Prop
  | none, value => value = text name
  | some .string, text _ => True
  | some .integer, integer n => Document.integerRange.1 ≤ n ∧ n ≤ Document.integerRange.2
  | some _, _ => False

instance (name : Text) (backing : Option Backing) (value : EnumValue) :
    Decidable (value.Fits name backing) :=
  match backing, value with
  | none, value => inferInstanceAs (Decidable (value = .text name))
  | some .string, .text _ => inferInstanceAs (Decidable True)
  | some .integer, .integer n =>
    inferInstanceAs (Decidable (Document.integerRange.1 ≤ n ∧ n ≤ Document.integerRange.2))
  | some .string, .integer _ => inferInstanceAs (Decidable False)
  | some .integer, .text _ => inferInstanceAs (Decidable False)

/-- The entity is one that a document can say. -/
structure Entity.Writable (e : Entity) : Prop where
  name : ∃ segments, (∀ s ∈ segments ++ [e.shortName], Name.IsSegment s) ∧
    e.qualifiedName = Name.ofSegments (segments ++ [e.shortName])
  doc : ∀ d ∈ e.doc, Docblock.clean d = some d
  fields : ∀ f ∈ e.fields, f.Writable
  members : ∀ m ∈ e.members, m.value.Fits m.name e.kind.backing

namespace Document
open Xml (Attribute IsWord Keyed)

variable {l : Layout}

/-! ## Attributes read back -/

theorem keyed_of_sublist {as : List Attribute} {keys : List Text} (h : (as.map Prod.fst).Sublist keys)
    (words : ∀ key ∈ keys, IsWord key) (nodup : keys.Nodup) : Keyed as :=
  ⟨fun key hk => words key (h.subset hk), nodup.sublist h⟩

def fieldKeys : List Text :=
  ["name".toList, "type".toList, "nullable".toList, "exclude".toList] ++ ["annotation".toList]

def entityKeys : List Text :=
  "name".toList :: ["namespace".toList] ++ ["kind".toList, "backing".toList]

theorem keyed_fieldAttributes (f : Field) : Keyed (l.fieldAttributes f) := by
  have sub : ((l.fieldAttributes f).map Prod.fst).Sublist fieldKeys := by
    unfold Layout.fieldAttributes
    rw [List.map_append]
    refine List.Sublist.append (List.Sublist.refl _) ?_
    split
    · exact List.nil_sublist _
    · cases f.typeExpr with
      | none => exact List.nil_sublist _
      | some t => exact List.Sublist.refl _
  exact keyed_of_sublist sub (by decide) (by decide)

theorem keyed_entityAttributes (e : Entity) : Keyed (Layout.entityAttributes e) := by
  have kind : ((Layout.kindAttributes e.kind).map Prod.fst).Sublist ["kind".toList, "backing".toList] := by
    rcases e.kind with _ | _ | backing
    · exact List.sublist_append_left ["kind".toList] ["backing".toList]
    · exact List.sublist_append_left ["kind".toList] ["backing".toList]
    · exact List.Sublist.refl _
  have sub : ((Layout.entityAttributes e).map Prod.fst).Sublist entityKeys := by
    unfold Layout.entityAttributes
    rw [List.map_append, List.map_cons]
    refine List.Sublist.append (List.Sublist.cons_cons _ ?_) kind
    split
    · exact List.nil_sublist _
    · exact List.Sublist.refl _
  exact keyed_of_sublist sub (by decide) (by decide)

/-- Attributes are decoded as they were written. -/
theorem foldAttributes_content {σ : Type} {name : Text} {as : List Attribute} (hname : IsWord name)
    (keyed : Keyed as) (start : σ) (add : σ → Attribute → Except DocumentError σ) :
    foldAttributes (Xml.content l.quote name as) start add = as.foldlM add start := by
  have decoded : decodedAttributes (Xml.content l.quote name as) = as.map .ok := by
    rw [decodedAttributes, Xml.attributes_content l.isQuote_quote hname keyed, List.map_map]
    refine List.map_congr_left fun a _ => ?_
    simp [decodeAttribute, Xml.unescape_escape]
  rw [foldAttributes, decoded, List.foldlM_map]
  rfl

theorem readNamespace_content {name : Text} (hname : IsWord name) :
    readNamespace (Xml.content l.quote name []) = .ok none := by
  rw [readNamespace, Xml.attributes_content l.isQuote_quote hname Xml.keyed_nil]
  rfl

/-! ## Entities -/

theorem foldlM_entityAttributes (e : Entity) :
    (Layout.entityAttributes e).foldlM EntityAttributes.add ⟨none, [], false, none⟩ =
      .ok ⟨some e.shortName, e.scope, e.kind.isEnumeration, e.kind.backing⟩ := by
  unfold Layout.entityAttributes
  split
  · next h =>
    rw [h]
    rcases e.kind with _ | _ | _ | _ <;> rfl
  · rcases e.kind with _ | _ | _ | _ <;> rfl

/-- The start tag of an entity gives its names and its kind. -/
theorem readEntity_content {e : Entity} (h : e.Writable) :
    readEntity [] (Xml.content l.quote "entity".toList (Layout.entityAttributes e)) =
      .ok (⟨e.shortName, e.qualifiedName, e.kind, [], [], none⟩, e.shortName) := by
  obtain ⟨segments, valid, hq⟩ := h.name
  have scope : e.scope = Name.ofSegments segments := by
    rw [Entity.scope, hq, Name.scope_ofSegments_concat valid]
  have joined : Name.join e.scope e.shortName = e.qualifiedName := by
    rw [scope, Name.join_ofSegments valid, hq]
  have normal : Name.normalize e.qualifiedName = e.qualifiedName := by
    rw [hq, Name.normalize_eq_self (Name.isReference_ofSegments valid)]
  have short : Name.short e.qualifiedName = e.shortName := by
    rw [hq, Name.short_ofSegments_concat valid]
  have kind : (if e.kind.isEnumeration then Kind.enumeration e.kind.backing else .record) = e.kind := by
    cases e.kind <;> rfl
  rw [readEntity, foldAttributes_content (by decide) (keyed_entityAttributes e),
    foldlM_entityAttributes, ok_bind]
  simp only [kind, joined, Entity.ofName, normal, short]
  rfl

/-! ## Fields -/

/-- What the start tag of a field says: all but the documentation, and the type expression unless it stands
in an element of its own. -/
theorem readField_content {f : Field} (h : f.Writable) :
    readField (Xml.content l.quote "field".toList (l.fieldAttributes f)) =
      .ok { f with typeExpr := if l.inside then none else f.typeExpr, doc := none } := by
  have found : (l.fieldAttributes f).foldlM FieldAttributes.add
      ⟨none, "mixed".toList, none, false, false⟩ =
      .ok ⟨some f.name, f.declared, if l.inside then none else f.typeExpr, f.allowsNull, f.excluded⟩ := by
    have fixed : [("name".toList, f.name), ("type".toList, f.declared),
        ("nullable".toList, Layout.flag f.allowsNull), ("exclude".toList, Layout.flag f.excluded)].foldlM
        FieldAttributes.add ⟨none, "mixed".toList, none, false, false⟩ =
        .ok ⟨some f.name, Text.trim f.declared, none, f.allowsNull, f.excluded⟩ := by
      cases f.allowsNull <;> cases f.excluded <;> rfl
    rw [Layout.fieldAttributes, List.foldlM_append, fixed, ok_bind, h.declared]
    split
    · rfl
    · cases ht : f.typeExpr with
      | none => rfl
      | some t =>
        show Except.ok (FieldAttributes.mk _ _ (some (Text.trim t)) _ _) = _
        rw [(h.typeExpr t ht).2]
  have nullable : (f.allowsNull || allowsNull f.declared) = f.allowsNull := by
    cases hd : allowsNull f.declared with
    | false => exact Bool.or_false _
    | true => rw [h.allowsNull hd]; rfl
  have kept : (if l.inside then none else f.typeExpr).filter (· != []) =
      if l.inside then none else f.typeExpr := by
    split
    · rfl
    · cases ht : f.typeExpr with
      | none => rfl
      | some t => exact Option.filter_some_pos (bne_iff_ne.2 (h.typeExpr t ht).1)
  rw [readField, foldAttributes_content (by decide) (keyed_fieldAttributes f), found, ok_bind]
  simp only [nullable, kept]
  rfl

/-! ## Members -/

theorem readInteger_ofInt {n : Int} (h : integerRange.1 ≤ n ∧ n ≤ integerRange.2) :
    readInteger (Text.trim (Text.ofInt n)) = some n := by
  rw [readInteger, Text.trim_eq_self Text.isBlank_of_mem_ofInt, Text.toInt?_ofInt]
  simp only [if_pos h]

theorem caseValue_written {backing : Option Backing} {m : Member} (h : m.value.Fits m.name backing)
    (hb : backing ≠ none) : caseValue backing m.name (some m.value.written) = .ok m.value := by
  obtain ⟨name, value⟩ := m
  obtain ⟨backing, rfl⟩ := Option.ne_none_iff_exists'.1 hb
  cases backing with
  | string =>
    cases value with
    | text t => rfl
    | integer n => exact absurd h id
  | integer =>
    cases value with
    | text t => exact absurd h id
    | integer n =>
      show caseValue (some .integer) name (some (Text.ofInt n)) = .ok (.integer n)
      rw [caseValue, readInteger_ofInt h]

end Document

end DeclGen
