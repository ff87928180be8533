import DeclGen.Document.Error
import DeclGen.Entity.Validation
import DeclGen.File.Error

/-!
# Loaders

A loader knows entities: it finds the qualified name that a reference stands for, and the entity of
a qualified name.

* `LoadError` : why an entity cannot be loaded, with `LoadError.message` and `LoadError.causes`;
* `Loader` : the two operations;
* `Loader.candidates` : the qualified names that a reference may stand for.
-/

namespace DeclGen

/-- Why an entity cannot be loaded. -/
inductive LoadError where
  | unreadable (path : Text) (error : FileError)
  | unparsable (path : Text) (error : DocumentError)
  /-- The document at `path` does not define the entity `name`. -/
  | missing (name path : Text)
  | invalid (error : SchemaError)
  | noBase (path : Text)
  | notFound (name : Text)
  deriving DecidableEq, Repr

namespace LoadError

/-- The wording of why an entity cannot be loaded. -/
def message : LoadError → Text
  | unreadable path error => "failed to read '".toList ++ path ++ "': ".toList ++ error.message
  | unparsable path error => "failed to parse '".toList ++ path ++ "': ".toList ++ error.message
  | missing name path =>
    "entity '".toList ++ name ++ "' is not defined in '".toList ++ path ++ ['\'']
  | invalid error => "invalid entity: ".toList ++ error.message
  | noBase path => "base directory '".toList ++ path ++ "' does not exist".toList
  | notFound name => "entity '".toList ++ name ++ "' not found".toList

/-- The wordings of what lies behind the error, the nearest first. -/
def causes : LoadError → List Text
  | unreadable _ error => [error.message]
  | unparsable _ error => error.message :: error.causes
  | invalid error => [error.message]
  | _ => []

end LoadError

/-- A source of entities. -/
structure Loader where
  /-- The qualified name that a reference stands for, used in an entity of the given scope. -/
  resolve : (reference scope : Text) → Option Text
  /-- The entity of a qualified name; it is valid. -/
  load : (name : Text) → Except LoadError Entity
  /-- At least the number of names that `resolve` answers to the references of one closure. -/
  bound : Nat

/-- The qualified names that a reference may stand for, in the order in which they are tried: a
short reference is tried in the scope first. -/
def Loader.candidates (reference scope : Text) : List Text :=
  if Name.isQualified reference || scope = [] then [Name.normalize reference]
  else [Name.join scope reference, Name.normalize reference]

end DeclGen
