import DeclGen.Entity.Resolved
import DeclGen.Loader.Registry
import DeclGen.TypeScript.Declaration

/-!
# Generation

The closure of an entity is generated breadth first: the entity, then the entities it refers to,
then those they refer to. Entities are told apart by qualified names, files by short names; of two
entities with one short name, the one discovered first is generated.

* `Renderer` : from an entity to its file;
* `GenerationError` : why nothing is generated;
* `Output`, `Collision`, `Generation` : what is generated;
* `generateOne` : one entity; `generateClosure` : an entity and all it leads to;
* `generateDocument` : the closures of all entities of a document, merged.
-/

namespace DeclGen

/-- Turns an entity into the text of its file. -/
abbrev Renderer := Resolved → Text

/-- Why nothing is generated. -/
inductive GenerationError where
  | document (error : DocumentError)
  | schema (error : SchemaError)
  | file (error : FileError)
  | load (error : LoadError)
  | notFound (name : Text)
  deriving DecidableEq, Repr

/-- The wording of why nothing is generated. -/
def GenerationError.message : GenerationError → Text
  | document error => "entity parse error: ".toList ++ error.message
  | schema error => "entity error: ".toList ++ error.message
  | file error => "IO error: ".toList ++ error.message
  | load error => "load error: ".toList ++ error.message
  | notFound name => "entity '".toList ++ name ++ "' not found".toList

/-- The file of an entity. -/
structure Output where
  shortName : Text
  /-- The qualified name of the entity. -/
  owner : Text
  text : Text
  deriving DecidableEq, Repr

/-- Two entities with one short name: only the first is generated. -/
structure Collision where
  shortName : Text
  kept : Text
  skipped : Text
  deriving DecidableEq, Repr

/-- What is generated. -/
structure Generation where
  /-- The files, in the order of discovery; their short names are distinct. -/
  outputs : List Output
  /-- The short names of references that stand for no entity. -/
  unresolved : List Text
  collisions : List Collision
  deriving DecidableEq, Repr

/-- Nothing generated. -/
def Generation.empty : Generation := ⟨[], [], []⟩

/-- The output under a short name. -/
def Generation.output? (g : Generation) (short : Text) : Option Output :=
  g.outputs.find? (·.shortName = short)

/-- Adds an element to the end of a list, unless it is there already. -/
def addNew {α : Type} [DecidableEq α] (xs : List α) (x : α) : List α :=
  if x ∈ xs then xs else xs ++ [x]

/-- Loads an entity and reads its types. -/
def loadResolved (loader : Loader) (name : Text) : Except GenerationError Resolved :=
  match loader.load name with
  | .ok e => .ok e.resolve
  | .error error => .error (.load error)

/-- The qualified name of the entity to generate. -/
def resolveRoot (loader : Loader) (root : Text) : Except GenerationError Text :=
  match loader.resolve root [] with
  | some name => .ok name
  | none => .error (.notFound root)

/-- Generates one entity. -/
def generateOne (loader : Loader) (render : Renderer) (root : Text) :
    Except GenerationError Text := do
  let name ← resolveRoot loader root
  let e ← loadResolved loader name
  return render e

/-! ## Closures -/

namespace Closure

/-- How far a closure is generated. -/
structure State where
  /-- Every qualified name that was ever in the queue. -/
  visited : List Text
  /-- The qualified names whose turn is still to come. -/
  queue : List Text
  generated : Generation
  deriving DecidableEq, Repr

/-- The root is the first to be generated. -/
def start (root : Text) : State := ⟨[root], [root], .empty⟩

/-- Follows a dependency of an entity of the given scope: its entity is queued unless it was before,
and a reference that stands for no entity is noted. -/
def follow (loader : Loader) (scope : Text) (s : State) (dependency : Text × Text) : State :=
  let (short, written) := dependency
  match loader.resolve written scope with
  | some name =>
    if name ∈ s.visited then s
    else { s with visited := s.visited ++ [name], queue := s.queue ++ [name] }
  | none =>
    { s with generated :=
        { s.generated with unresolved := addNew s.generated.unresolved short } }

/-- The collision of a reference that lost its short name to another one in the same entity. -/
def shadowing (loader : Loader) (e : Resolved) (written : Text) : Option Collision :=
  match loader.resolve written e.scope with
  | none => none
  | some skipped =>
    let short := Name.short written
    let keptReference := (e.dependencies.get? short).getD e.qualifiedName
    let kept := (loader.resolve keptReference e.scope).getD keptReference
    if kept = skipped then none else some ⟨short, kept, skipped⟩

/-- Notes the collision of a shadowed reference. -/
def noteShadowed (loader : Loader) (e : Resolved) (cs : List Collision) (written : Text) :
    List Collision :=
  match shadowing loader e written with
  | none => cs
  | some c => addNew cs c

/-- Generates the entity `e` of the qualified name `name`. -/
def emit (loader : Loader) (render : Renderer) (name : Text) (e : Resolved) (s : State) : State :=
  let s := e.dependencies.entries.foldl (follow loader e.scope) s
  let collisions := e.dependencies.shadowed.foldl (noteShadowed loader e) s.generated.collisions
  let output : Output := ⟨Name.short name, name, render e⟩
  { s with generated :=
      { s.generated with outputs := s.generated.outputs ++ [output], collisions } }

/-- The turn of `name`: it is generated, unless its short name is taken. -/
def visit (loader : Loader) (render : Renderer) (name : Text) (s : State) :
    Except GenerationError State :=
  match s.generated.output? (Name.short name) with
  | some kept =>
    let collision : Collision := ⟨Name.short name, kept.owner, name⟩
    .ok { s with generated :=
      { s.generated with collisions := s.generated.collisions ++ [collision] } }
  | none => do
    let e ← loadResolved loader name
    return emit loader render name e s

/-- Gives at most `fuel` names their turn. -/
def run (loader : Loader) (render : Renderer) : (fuel : Nat) → State →
    Except GenerationError State
  | 0, s => .ok s
  | fuel + 1, s =>
    match s.queue with
    | [] => .ok s
    | name :: queue => do
      let s ← visit loader render name { s with queue }
      run loader render fuel s

end Closure

/-- Generates an entity and all that it leads to. -/
def generateClosure (loader : Loader) (render : Renderer) (root : Text) :
    Except GenerationError Generation := do
  let name ← resolveRoot loader root
  let final ← Closure.run loader render (loader.bound + 1) (Closure.start name)
  return final.generated

/-! ## Documents -/

/-- Adds an output, unless its short name is taken. -/
def addOutput (outputs : List Output) (output : Output) : List Output :=
  if outputs.any (·.shortName = output.shortName) then outputs else outputs ++ [output]

/-- Adds what another closure generated. -/
def Generation.merge (g h : Generation) : Generation :=
  { outputs := h.outputs.foldl addOutput g.outputs
    unresolved := h.unresolved.foldl addNew g.unresolved
    collisions := h.collisions.foldl addNew g.collisions }

/-- Generates the closures of the given entities and merges them. -/
def generateAll (loader : Loader) (render : Renderer) (names : List Text) :
    Except GenerationError Generation :=
  names.foldlM (fun g name => do return g.merge (← generateClosure loader render name)) .empty

/-- Generates the TypeScript of every entity of a document. -/
def generateDocument (t : Text) : Except GenerationError Generation :=
  match Document.parse t with
  | .error error => .error (.document error)
  | .ok entities =>
    match validateAll entities with
    | .error error => .error (.schema error)
    | .ok () =>
      generateAll (Registry.empty.extend entities).loader
        (TypeScript.render TypeScript.Options.default) (entities.map Entity.qualifiedName)

end DeclGen
