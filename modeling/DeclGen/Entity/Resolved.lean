import DeclGen.Entity.Basic
import DeclGen.Entity.Dependencies
import DeclGen.TypeExpr.Diagnosis

/-!
# Entities with their types read

* `ResolvedField` : a field with its type, `ResolvedField.ofField` reads it;
* `Resolved` : an entity ready to be rendered, with the entities it refers to;
* `Entity.resolve` : reads the types of an entity;
* `Resolved.imports` : the short names to import.
-/

namespace DeclGen

/-- A field with its type. -/
structure ResolvedField where
  name : Text
  type : TypeNode
  doc : Option Text

/-- The type of a field: `null` is added if the declaration allows it and the type does not. -/
def Field.type (f : Field) : TypeNode :=
  let type := TypeExpr.parse f.source
  if f.allowsNull && !type.admitsNull then type.nullable else type

/-- Reads the type of a field. -/
def ResolvedField.ofField (f : Field) : ResolvedField := ⟨f.name, f.type, f.doc⟩

/-- An entity ready to be rendered. -/
structure Resolved where
  shortName : Text
  qualifiedName : Text
  kind : Kind
  /-- The fields that are not excluded. -/
  fields : List ResolvedField
  members : List Member
  doc : Option Text
  dependencies : Dependencies
  /-- What is odd about the types, with the names of the fields. -/
  warnings : List (Text × TypeExpr.Warning)

namespace Entity

/-- Does a reference name the entity itself? A qualified one has to be its whole name. -/
def isSelf (e : Entity) (reference : Text) : Bool :=
  if Name.isQualified reference then Name.normalize reference = e.qualifiedName
  else Name.short reference = e.shortName

/-- Does a reference count as a dependency? -/
def dependsOn (e : Entity) (reference : Text) : Bool := !isBuiltin reference && !e.isSelf reference

/-- The fields to be generated. -/
def visibleFields (e : Entity) : List Field :=
  match e.kind with
  | .record => e.fields.filter fun f => !f.excluded
  | .enumeration _ => []

/-- The references in the types of the fields that count as dependencies, from left to right. -/
def dependencyReferences (e : Entity) : List Text :=
  (e.visibleFields.flatMap fun f => f.type.references).filter e.dependsOn

/-- Reads the types of an entity. -/
def resolve (e : Entity) : Resolved :=
  { shortName := e.shortName, qualifiedName := e.qualifiedName, kind := e.kind
    fields := e.visibleFields.map ResolvedField.ofField
    members := e.members, doc := e.doc
    dependencies := e.dependencyReferences.foldl Dependencies.insert Dependencies.empty
    warnings := e.visibleFields.flatMap fun f =>
      (TypeExpr.diagnose f.source).warnings.map fun w => (f.name, w) }

end Entity

namespace Resolved

/-- The scope of the entity's name. -/
def scope (e : Resolved) : Text := Name.scope e.qualifiedName

/-- The short names to import, in the order of discovery; the entity's own is never among them. -/
def imports (e : Resolved) : List Text := e.dependencies.names.filter (· != e.shortName)

/-- The first field of a name. -/
def field? (e : Resolved) (name : Text) : Option ResolvedField := e.fields.find? (·.name = name)

end Resolved

end DeclGen
