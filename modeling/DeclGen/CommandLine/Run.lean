import DeclGen.CommandLine.Arguments
import DeclGen.Loader.Directory

/-!
# Generating files

A run generates the entities of a file, of a directory, or of a pattern of names, and writes one
file for each short name.

* `RunError` : why a run ends early, `RunError.message` the wording with all causes;
* `Failure` : what went wrong with one entity; the run goes on;
* `Summary` : what a run did;
* `Progress`, `processName` : the state of a run, and what one entity does to it;
* `run` : a whole run.
-/

namespace DeclGen.CommandLine

/-- Why a run ends early. -/
inductive RunError where
  | noOutput (path : Text) (error : FileError)
  | noSource (path : Text)
  | load (error : LoadError)
  /-- A pattern of names stands for nothing. -/
  | unresolved (pattern : Text) (error : LoadError)
  deriving DecidableEq, Repr

/-- Why a run ends early, and the causes behind it, the nearest first. -/
def RunError.chain : RunError → List Text
  | noOutput path error =>
    ["failed to create output directory '".toList ++ path ++ ['\''], error.message]
  | noSource path => ["source path '".toList ++ path ++ "' does not exist".toList]
  | load error => error.message :: error.causes
  | unresolved pattern error =>
    ("failed to resolve namespace pattern '".toList ++ pattern ++ ['\'']) :: error.message ::
      error.causes

/-- The wording of why a run ends early: each cause after a colon. -/
def RunError.message (e : RunError) : Text := List.intercalate ": ".toList e.chain

/-- What went wrong with one entity. -/
inductive FailureCause where
  | generation (error : GenerationError)
  | write (path : Text) (error : FileError)
  deriving DecidableEq, Repr

/-- The wording of what went wrong with an entity. -/
def FailureCause.message : FailureCause → Text
  | generation error => error.message
  | write path error => "failed to write '".toList ++ path ++ "': ".toList ++ error.message

/-- An entity with which something went wrong. -/
structure Failure where
  entity : Text
  cause : FailureCause
  deriving DecidableEq, Repr

/-- The wording of a failure. -/
def Failure.message (f : Failure) : Text :=
  "Error processing ".toList ++ f.entity ++ ": ".toList ++ f.cause.message

/-- What a run did. -/
structure Summary where
  /-- The paths of the files, in the order of writing. -/
  written : List Text
  failures : List Failure
  deriving DecidableEq, Repr

/-! ## Entities -/

/-- How far a run has come. -/
structure Progress where
  files : FileSystem
  /-- The short names whose turn has come. -/
  processed : List Text
  summary : Summary

/-- The path of the file of a short name. -/
def outputPath (output short : Text) : Text := Path.join output (short ++ ".ts".toList)

/-- Adds a failure. -/
def Progress.fail (p : Progress) (entity : Text) (cause : FailureCause) : Progress :=
  { p with summary := { p.summary with failures := p.summary.failures ++ [⟨entity, cause⟩] } }

/-- Writes the file of a short name, whose turn comes only once in a run. -/
def writeOutput (output name : Text) (p : Progress) (file : Text × Text) : Progress :=
  let (short, text) := file
  if short ∈ p.processed then p
  else
    let p := { p with processed := short :: p.processed }
    let path := outputPath output short
    match p.files.writeText path text with
    | .error error => p.fail name (.write path error)
    | .ok files =>
      { p with files, summary := { p.summary with written := p.summary.written ++ [path] } }

/-- The files of an entity, by short name: its own alone, or those of its closure. -/
def filesOf (loader : Loader) (render : Renderer) (noDependencies : Bool) (name : Text) :
    Except GenerationError (List (Text × Text)) :=
  if noDependencies then do
    let text ← generateOne loader render name
    return [(Name.short name, text)]
  else do
    let found ← generateClosure loader render name
    return found.outputs.map fun o => (o.shortName, o.text)

/-- Generates and writes one entity. -/
def processName (loader : Loader) (args : Arguments) (p : Progress) (name : Text) : Progress :=
  let render := TypeScript.render { TypeScript.Options.default with extension := args.extension }
  match filesOf loader render args.noDependencies name with
  | .error error => p.fail name (.generation error)
  | .ok files => files.foldl (writeOutput args.output name) p

/-- Generates and writes entities, one after the other. -/
def processNames (loader : Loader) (args : Arguments) (names : List Text) (fs : FileSystem) :
    Progress :=
  names.foldl (processName loader args) ⟨fs, [], ⟨[], []⟩⟩

/-! ## Runs -/

/-- The loader of a run and the names to generate. -/
def prepare (args : Arguments) (fs : FileSystem) : Except RunError (Loader × List Text) :=
  match args.base with
  | some base =>
    match Directory.openAt fs base (args.scope.getD []) with
    | .error error => .error (.load error)
    | .ok d =>
      match d.expand fs args.source with
      | .error error => .error (.unresolved args.source error)
      | .ok names => .ok (d.loader fs, names)
  | none =>
    if !fs.contains args.source then .error (.noSource args.source)
    else
      match Registry.ofPath fs args.source with
      | .error error => .error (.load error)
      | .ok registry => .ok (registry.loader, registry.names)

/-- Generates files as the arguments say: the files afterwards, and what was done. -/
def run (args : Arguments) (fs : FileSystem) : FileSystem × Except RunError Summary :=
  match fs.createDirectories args.output with
  | (fs, .error error) => (fs, .error (.noOutput args.output error))
  | (fs, .ok ()) =>
    match prepare args fs with
    | .error error => (fs, .error error)
    | .ok (loader, names) =>
      let final := processNames loader args names fs
      (final.files, .ok final.summary)

end DeclGen.CommandLine
