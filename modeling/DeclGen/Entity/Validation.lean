import DeclGen.Entity.Basic

/-!
# Valid entities

* `SchemaError` : what can be wrong with an entity, `SchemaError.message` the wording;
* `Entity.validate` : the first thing wrong with an entity;
* `validateAll` : the first thing wrong with a list of entities, repeated names included.
-/

namespace DeclGen

/-- What is wrong with a member of an enumeration. -/
inductive MemberFault where
  | emptyName
  | repeatedName
  | wrongBacking
  | repeatedValue
  deriving DecidableEq, Repr

/-- The wording of what is wrong with a member. -/
def MemberFault.message : MemberFault → Text
  | emptyName => "case name is empty".toList
  | repeatedName => "case name is declared twice".toList
  | wrongBacking => "value does not match the enum backing type".toList
  | repeatedValue => "value is already used by another case".toList

/-- What is wrong with an entity, or with a list of them. -/
inductive SchemaError where
  | emptyName (scope : Text)
  | namelessField (entity : Text)
  | repeatedField (entity field : Text)
  | invalidMember (entity member : Text) (fault : MemberFault)
  | repeatedEntity (qualifiedName : Text)
  deriving DecidableEq, Repr

/-- The wording of what is wrong. -/
def SchemaError.message : SchemaError → Text
  | emptyName scope => "entity in namespace '".toList ++ scope ++ "' has an empty name".toList
  | namelessField entity =>
    "validation error: entity '".toList ++ entity ++ "' has a field without a name".toList
  | repeatedField entity field =>
    "duplicate field '".toList ++ field ++ "' in entity '".toList ++ entity ++ ['\'']
  | invalidMember entity member fault =>
    "invalid enum case '".toList ++ member ++ "' in enum '".toList ++ entity ++ "': ".toList ++
      fault.message
  | repeatedEntity name =>
    "validation error: entity '".toList ++ name ++ "' is defined twice".toList

/-- Does a value fit the backing? Without one, only strings do. -/
def EnumValue.fits (backing : Option Backing) : EnumValue → Bool
  | text _ => backing != some .integer
  | integer _ => backing = some .integer

namespace Entity

/-- Checks fields from left to right, `seen` being the names before them. -/
def checkFields (entity : Text) (seen : List Text) : List Field → Except SchemaError Unit
  | [] => .ok ()
  | f :: fs =>
    if Text.trim f.name = [] then .error (.namelessField entity)
    else if f.name ∈ seen then .error (.repeatedField entity f.name)
    else checkFields entity (f.name :: seen) fs

/-- Checks members from left to right, `seen` being the members before them. -/
def checkMembers (entity : Text) (backing : Option Backing) (seen : List Member) :
    List Member → Except SchemaError Unit
  | [] => .ok ()
  | m :: ms =>
    if Text.trim m.name = [] then .error (.invalidMember entity m.name .emptyName)
    else if m.name ∈ seen.map Member.name then
      .error (.invalidMember entity m.name .repeatedName)
    else if !m.value.fits backing then .error (.invalidMember entity m.name .wrongBacking)
    else if m.value ∈ seen.map Member.value then
      .error (.invalidMember entity m.name .repeatedValue)
    else checkMembers entity backing (m :: seen) ms

/-- Fails with the first thing wrong with the entity: only the fields of records and the members of
enumerations are looked at. -/
def validate (e : Entity) : Except SchemaError Unit :=
  if Text.trim e.shortName = [] then .error (.emptyName e.scope)
  else
    match e.kind with
    | .record => checkFields e.shortName [] e.fields
    | .enumeration backing => checkMembers e.shortName backing [] e.members

end Entity

/-- Checks entities from left to right, `seen` being the qualified names before them. -/
def validateFrom (seen : List Text) : List Entity → Except SchemaError Unit
  | [] => .ok ()
  | e :: es => do
    e.validate
    if e.qualifiedName ∈ seen then .error (.repeatedEntity e.qualifiedName)
    else validateFrom (e.qualifiedName :: seen) es

/-- Fails with the first thing wrong with a list of entities. -/
def validateAll (es : List Entity) : Except SchemaError Unit := validateFrom [] es

end DeclGen
