import DeclGen.Document.Error
import DeclGen.Docblock
import DeclGen.Entity.Basic
import DeclGen.Xml.Tag

/-!
# Elements of entity documents

* `Document.decodedAttributes` : the attributes of a tag with their references resolved;
* `Document.readNamespace` : the `namespace` attribute of an `entities` tag;
* `Document.readEntity` : the entity that the attributes of its tag describe;
* `Document.readField` : the field that the attributes of its tag describe;
* `Document.readCase` : the member that a `case` element describes;
* `Document.finishField`, `Document.applyConstructorDoc` : type expressions from documentation.
-/

namespace DeclGen.Document

open Xml (Attribute)

/-! ## Attributes -/

/-- Resolves the references in an attribute's value. -/
def decodeAttribute : Except Xml.AttributeFault Attribute → Except DocumentError Attribute
  | .error fault => .error (.malformedAttribute fault)
  | .ok (key, raw) =>
    match Xml.unescape raw with
    | .ok value => .ok (key, value)
    | .error fault => .error (.escape fault)

/-- The attributes of a tag with their references resolved, from left to right. -/
def decodedAttributes (content : Text) : List (Except DocumentError Attribute) :=
  (Xml.attributes content).map decodeAttribute

/-- Adds the attributes of a tag to `start`, from left to right, up to the first that is wrong. -/
def foldAttributes {σ : Type} (content : Text) (start : σ)
    (add : σ → Attribute → Except DocumentError σ) : Except DocumentError σ :=
  (decodedAttributes content).foldlM (fun s a => do add s (← a)) start

/-- The value of the `namespace` attribute. What follows it is not looked at, and values before it
are not decoded. -/
def namespaceIn : List (Except Xml.AttributeFault Attribute) → Except DocumentError (Option Text)
  | [] => .ok none
  | .error fault :: _ => .error (.malformedAttribute fault)
  | .ok (key, raw) :: rest =>
    if key = "namespace".toList then
      match Xml.unescape raw with
      | .ok value => .ok (some value)
      | .error fault => .error (.escape fault)
    else namespaceIn rest

/-- The `namespace` attribute of a tag. -/
def readNamespace (content : Text) : Except DocumentError (Option Text) :=
  namespaceIn (Xml.attributes content)

/-! ## Entities -/

/-- The attributes of an entity. -/
structure EntityAttributes where
  name : Option Text
  scope : Text
  isEnumeration : Bool
  backing : Option Backing

/-- Adds an attribute of an entity; unknown ones have no meaning. -/
def EntityAttributes.add (e : EntityAttributes) (a : Attribute) :
    Except DocumentError EntityAttributes :=
  let (key, value) := a
  if key = "name".toList then .ok { e with name := some value }
  else if key = "namespace".toList then .ok { e with scope := value }
  else if key = "kind".toList then
    match isEnumeration? value with
    | some isEnumeration => .ok { e with isEnumeration }
    | none => .error (.invalidAttribute "entity".toList "kind".toList value)
  else if key = "backing".toList then
    match Backing.ofWord? value with
    | some backing => .ok { e with backing := some backing }
    | none => .error (.invalidAttribute "entity".toList "backing".toList value)
  else .ok e

/-- The entity that the attributes of its tag describe, with the name as written; `scope` holds for
entities without a namespace of their own. -/
def readEntity (scope content : Text) : Except DocumentError (Entity × Text) := do
  let found ← foldAttributes content ⟨none, scope, false, none⟩ EntityAttributes.add
  match found.name with
  | none => .error (.missingAttribute "entity".toList "name".toList)
  | some name =>
    let kind := if found.isEnumeration then .enumeration found.backing else .record
    return (.ofName kind (Name.join found.scope name), name)

/-! ## Fields -/

/-- Does a declared type allow `null` by itself? It does with a question mark in front or `null`
between bars. -/
def allowsNull (declared : Text) : Bool :=
  let declared := Text.trim declared
  declared.head? = some '?' ||
    (Text.split (· = '|') declared).any fun part => Text.trim part = "null".toList

/-- Reads the value of a yes-or-no attribute. -/
def readFlag (key value : Text) : Except DocumentError Bool :=
  let word := Text.trim value
  if word ∈ ["true".toList, "1".toList, "yes".toList] then .ok true
  else if word ∈ ["false".toList, "0".toList, "no".toList] then .ok false
  else .error (.invalidAttribute "field".toList key word)

/-- The attributes of a field. -/
structure FieldAttributes where
  name : Option Text
  declared : Text
  typeExpr : Option Text
  nullable : Bool
  excluded : Bool

/-- Adds an attribute of a field; unknown ones have no meaning. -/
def FieldAttributes.add (f : FieldAttributes) (a : Attribute) :
    Except DocumentError FieldAttributes :=
  let (key, value) := a
  if key = "name".toList then .ok { f with name := some value }
  else if key = "type".toList then .ok { f with declared := Text.trim value }
  else if key = "annotation".toList then .ok { f with typeExpr := some (Text.trim value) }
  else if key = "nullable".toList then do
    let nullable ← readFlag key value
    return { f with nullable }
  else if key = "exclude".toList then do
    let excluded ← readFlag key value
    return { f with excluded }
  else .ok f

/-- The field that the attributes of its tag describe. -/
def readField (content : Text) : Except DocumentError Field := do
  let found ← foldAttributes content ⟨none, "mixed".toList, none, false, false⟩ FieldAttributes.add
  match found.name with
  | none => .error (.missingAttribute "field".toList "name".toList)
  | some name =>
    return { name, declared := found.declared
             typeExpr := found.typeExpr.filter (· != [])
             allowsNull := found.nullable || allowsNull found.declared
             excluded := found.excluded, doc := none }

/-- Gives a field its documentation: `@var` supplies a type expression if there is none. -/
def finishField (f : Field) (doc : Option Text) : Field :=
  match doc with
  | none => f
  | some raw =>
    { f with typeExpr := f.typeExpr <|> Docblock.varType raw, doc := Docblock.clean raw }

/-- Type expressions for the fields without one, from the constructor's documentation. -/
def applyConstructorDoc (doc : Option Text) (e : Entity) : Entity :=
  match doc with
  | none => e
  | some raw =>
    { e with fields := e.fields.map fun f =>
        { f with typeExpr := f.typeExpr <|> Docblock.paramType raw f.name } }

/-! ## Members -/

/-- The least and the greatest integer that a member may have. -/
def integerRange : Int × Int := (-9223372036854775808, 9223372036854775807)

/-- Reads an integer of 64 bits. -/
def readInteger (t : Text) : Option Int :=
  match Text.toInt? t with
  | some n => if integerRange.1 ≤ n ∧ n ≤ integerRange.2 then some n else none
  | none => none

/-- The attributes of a member. -/
structure CaseAttributes where
  name : Option Text
  value : Option Text

/-- Adds an attribute of a member; unknown ones have no meaning. -/
def CaseAttributes.add (c : CaseAttributes) (a : Attribute) :
    Except DocumentError CaseAttributes :=
  let (key, value) := a
  if key = "name".toList then .ok { c with name := some value }
  else if key = "value".toList then .ok { c with value := some value }
  else .ok c

/-- The value of a member named `name`, written as `raw`. Without a backing it is the name. -/
def caseValue (backing : Option Backing) (name : Text) (raw : Option Text) :
    Except DocumentError EnumValue :=
  match backing, raw with
  | none, _ => .ok (.text name)
  | some .string, some raw => .ok (.text raw)
  | some .integer, some raw =>
    match readInteger (Text.trim raw) with
    | some n => .ok (.integer n)
    | none => .error (.invalidAttribute "case".toList "value".toList raw)
  | some _, none => .error (.missingAttribute "case".toList "value".toList)

/-- The member that a `case` element describes: its value stands in an attribute, or else in its
text. -/
def readCase (backing : Option Backing) (content : Text) (text : Option Text) :
    Except DocumentError Member := do
  let found ← foldAttributes content ⟨none, none⟩ CaseAttributes.add
  match found.name with
  | none => .error (.missingAttribute "case".toList "name".toList)
  | some name =>
    let value ← caseValue backing name (found.value <|> text)
    return ⟨name, value⟩

end DeclGen.Document
