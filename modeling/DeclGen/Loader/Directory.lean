import DeclGen.File.Search
import DeclGen.Generation

/-!
# Entities in files

A directory of entity documents: inside the scope of the directory, a qualified name is the path of
its document below the base, segment by segment.

* `readDocument` : the entities of a file;
* `Registry.ofPath` : the entities of a file, or of all documents below a directory;
* `Directory` : a base directory and its scope, `Directory.open` checks that the base is there;
* `Directory.pathFor?` : the document of a qualified name; `Directory.nameOf?` : the way back;
* `Directory.expand` : the names that a pattern stands for;
* `Directory.resolve`, `Directory.load`, `Directory.loader` : the directory as a loader.
-/

namespace DeclGen

/-- The entities of a file. -/
def readDocument (fs : FileSystem) (path : Text) : Except LoadError (List Entity) :=
  match fs.readText path with
  | .error error => .error (.unreadable path error)
  | .ok t =>
    match Document.parse t with
    | .error error => .error (.unparsable path error)
    | .ok entities => .ok entities

/-- Adds the entities of a file to a registry. -/
def Registry.addFile (fs : FileSystem) (r : Registry) (path : Text) : Except LoadError Registry :=
  do return r.extend (← readDocument fs path)

/-- The entities of a file, or of all documents below a directory. -/
def Registry.ofPath (fs : FileSystem) (path : Text) : Except LoadError Registry :=
  if fs.isDirectory path then
    (Search.documentsBelow fs path).foldlM (Registry.addFile fs) Registry.empty
  else Registry.empty.addFile fs path

/-- A directory of entity documents. -/
structure Directory where
  base : Text
  /-- The scope of the names in the base directory, normalized. -/
  scope : Text
  deriving DecidableEq, Repr

namespace Directory

/-- The directory `base` for the names in `scope`. -/
def openAt (fs : FileSystem) (base scope : Text) : Except LoadError Directory :=
  if fs.isDirectory base then .ok ⟨base, Name.normalize scope⟩ else .error (.noBase base)

/-! ## Names and paths -/

/-- A name inside the scope, without the scope. -/
def relative? (d : Directory) (name : Text) : Option Text :=
  if d.scope = [] then some name
  else
    match Text.after? d.scope name with
    | none => none
    | some [] => some []
    | some (c :: rest) => if c = '\\' then some rest else none

/-- The segments of a normalized name. -/
def nameSegments (name : Text) : List Text := Text.split (· = '\\') name

/-- The path of the document of a qualified name; none outside the scope. -/
def pathFor? (d : Directory) (name : Text) : Option Text :=
  match d.relative? (Name.normalize name) with
  | none => none
  | some [] => none
  | some relative =>
    some (Path.setExtension Search.extension ((nameSegments relative).foldl Path.join d.base))

/-- The components of a path without the extension at its end. -/
def dropExtension : List Path.Component → List Path.Component
  | [] => []
  | [.name name] => [.name (Path.stem name)]
  | c :: cs => c :: dropExtension cs

/-- The qualified name of the document at a path. -/
def nameOf? (d : Directory) (path : Text) : Option Text :=
  match Path.relativeTo? d.base path with
  | none => none
  | some [] => none
  | some components =>
    let segments := (dropExtension components).map Path.Component.text
    some (Name.join d.scope (List.intercalate ['\\'] segments))

/-! ## Loading -/

/-- The qualified name that a reference stands for: the first candidate that has a document. -/
def resolve (fs : FileSystem) (d : Directory) (reference scope : Text) : Option Text :=
  (Loader.candidates reference scope).find? fun name => (d.pathFor? name).any fs.isFile

/-- The entity of a qualified name in a document: the one of that name, or else the first of its
short name, to which the place of the document gives the qualified name. -/
def pick? (name : Text) (entities : List Entity) : Option Entity :=
  match entities.find? (·.qualifiedName = name) with
  | some e => some e
  | none =>
    (entities.find? (·.shortName = Name.short name)).map fun e => { e with qualifiedName := name }

/-- The entity of a qualified name, if it is valid. -/
def load (fs : FileSystem) (d : Directory) (name : Text) : Except LoadError Entity :=
  match d.pathFor? name with
  | none => .error (.notFound name)
  | some path => do
    let entities ← readDocument fs path
    match pick? (Name.normalize name) entities with
    | none => .error (.missing (Name.normalize name) path)
    | some e =>
      match e.validate with
      | .ok () => .ok e
      | .error error => .error (.invalid error)

/-- The directory as a loader. A closure leads to names made of a reference and a scope that both
stand in the documents, so the size of all texts bounds their number. -/
def loader (fs : FileSystem) (d : Directory) : Loader :=
  ⟨d.resolve fs, d.load fs, (fs.root.textSize + 3) * (fs.root.textSize + 3)⟩

/-! ## Patterns -/

/-- The namespace of a pattern and whether it goes below: `Ns\*` is what stands in the namespace
`Ns`, `Ns\*\*` what stands in it or below. Any other pattern has none. -/
def patternScope? (pattern : Text) : Option (Text × Bool) :=
  let drop (ending : Text) : Text := pattern.take (pattern.length - ending.length)
  let one : Text := ['\\', '*']
  let all : Text := ['\\', '*', '\\', '*']
  if pattern = ['*'] then some ([], false)
  else if pattern = ['*', '\\', '*'] then some ([], true)
  else if all.isSuffixOf pattern then some (drop all, true)
  else if one.isSuffixOf pattern then some (drop one, false)
  else none

/-- The directory of a namespace; the empty one is the base. -/
def directoryOf? (d : Directory) (scope : Text) : Option Text :=
  let relative := if scope = [] then some [] else d.relative? scope
  relative.map fun relative => ((nameSegments relative).filter (· != [])).foldl Path.join d.base

/-- The qualified names that a pattern stands for. -/
def expand (fs : FileSystem) (d : Directory) (pattern : Text) : Except LoadError (List Text) :=
  let pattern := Name.normalize pattern
  match patternScope? pattern with
  | none =>
    match d.resolve fs pattern [] with
    | some name => .ok [name]
    | none => .error (.notFound pattern)
  | some (scope, below) =>
    match d.directoryOf? scope with
    | none => .error (.notFound pattern)
    | some path =>
      if fs.isDirectory path then
        let found := if below then Search.documentsBelow fs path else Search.documentsIn fs path
        .ok (found.filterMap d.nameOf?)
      else .error (.notFound pattern)

end Directory

/-- Generates the TypeScript of every entity of a document file. -/
def generateFile (fs : FileSystem) (path : Text) : Except GenerationError Generation :=
  match fs.readText path with
  | .ok t => generateDocument t
  | .error error => .error (.file error)

end DeclGen
