import DeclGen.Name

/-!
# Entities

An entity is a record with fields or an enumeration with members.

* `Backing` : the kind of values an enumeration has; `Kind` : record or enumeration;
* `EnumValue`, `Member` : the members of an enumeration;
* `Field` : a field of a record, `Field.source` the text its type is read from;
* `Entity` : name, kind, fields, members and documentation;
* `Entity.ofName` : the entity of a name, without content.
-/

namespace DeclGen

/-- The values of an enumeration: all strings, or all integers. -/
inductive Backing where
  | string
  | integer
  deriving DecidableEq, Repr

/-- What an entity is. -/
inductive Kind where
  | record
  /-- An enumeration; without a backing, the members are their own values. -/
  | enumeration (backing : Option Backing)
  deriving DecidableEq, Repr

namespace Kind

/-- Is it an enumeration? -/
def isEnumeration : Kind → Bool
  | record => false
  | enumeration _ => true

/-- The backing of an enumeration. -/
def backing : Kind → Option Backing
  | record => none
  | enumeration backing => backing

end Kind

/-- The words for kinds and backings are compared in lower case; they consist of letters that are
no lower case of a character beyond ASCII, so lowering ASCII is enough. -/
def lower (t : Text) : Text := t.map Char.toLower

/-- Reads the word for a kind; the flag tells whether it is an enumeration. -/
def isEnumeration? (word : Text) : Option Bool :=
  let word := lower word
  if word ∈ ["record".toList, "class".toList, "struct".toList] then some false
  else if word = "enum".toList then some true
  else none

/-- Reads the word for a backing. -/
def Backing.ofWord? (word : Text) : Option Backing :=
  let word := lower word
  if word = "string".toList then some .string
  else if word ∈ ["int".toList, "integer".toList] then some .integer
  else none

/-- The value of a member. -/
inductive EnumValue where
  | text (value : Text)
  | integer (value : Int)
  deriving DecidableEq, Repr

/-- A member of an enumeration. -/
structure Member where
  name : Text
  value : EnumValue
  deriving DecidableEq, Repr

/-- A field of a record. -/
structure Field where
  name : Text
  /-- The type of the field's declaration. -/
  declared : Text
  /-- A type expression that says more than the declaration. -/
  typeExpr : Option Text
  /-- Does the declaration allow `null`? -/
  allowsNull : Bool
  /-- Is the field left out of what is generated? -/
  excluded : Bool
  doc : Option Text
  deriving DecidableEq, Repr

/-- The text the field's type is read from: the type expression unless it is blank. -/
def Field.source (f : Field) : Text :=
  match f.typeExpr with
  | some t => if Text.trim t = [] then f.declared else t
  | none => f.declared

/-- A record or an enumeration. -/
structure Entity where
  /-- The name under which the entity is generated. -/
  shortName : Text
  qualifiedName : Text
  kind : Kind
  fields : List Field
  members : List Member
  doc : Option Text
  deriving DecidableEq, Repr

namespace Entity

/-- The entity of a name, which is normalized; its short name is the last segment. -/
def ofName (kind : Kind) (name : Text) : Entity :=
  { shortName := Name.short (Name.normalize name), qualifiedName := Name.normalize name, kind,
    fields := [], members := [], doc := none }

/-- The scope of the entity's name. -/
def scope (e : Entity) : Text := Name.scope e.qualifiedName

/-- Adds a field after the others. -/
def addField (e : Entity) (f : Field) : Entity := { e with fields := e.fields ++ [f] }

/-- Adds a member after the others. -/
def addMember (e : Entity) (m : Member) : Entity := { e with members := e.members ++ [m] }

end Entity

end DeclGen
