import DeclGen.File.Error
import DeclGen.File.Path

/-!
# File systems

* `Content` : the content of a file, which may be no text;
* `Entry` : a file or a directory, `Entry.find?` and `Entry.put` look up and replace entries by name;
* `FileSystem` : a tree of entries and the working directory;
* `FileSystem.entry` : the entry of a path; `isFile`, `isDirectory` and `contains` ask for it;
* `FileSystem.readText`, `FileSystem.writeText` : the text of a file;
* `FileSystem.createDirectories` : creates a directory and those above it.
-/

namespace DeclGen

/-- The content of a file. -/
inductive Content where
  | text (t : Text)
  /-- Bytes that are not UTF-8. -/
  | binary
  deriving DecidableEq, Repr

/-- A file or a directory. -/
inductive Entry where
  | file (content : Content)
  /-- A directory; names are distinct and in increasing order. -/
  | directory (children : List (Text × Entry))

namespace Entry

/-- A directory without entries. -/
def empty : Entry := directory []

instance : Inhabited Entry := ⟨empty⟩

/-- Is it a directory? -/
def isDirectory : Entry → Bool
  | directory _ => true
  | file _ => false

/-- The entries of a directory. -/
def children : Entry → List (Text × Entry)
  | directory children => children
  | file _ => []

/-- The entry reached by the given names. -/
def find? : Entry → List Text → Option Entry
  | e, [] => some e
  | e, name :: names =>
    match e.children.lookup name with
    | some child => find? child names
    | none => none

/-- Does `a` come before `b` in the order of code points? -/
def precedes : (a b : Text) → Bool
  | [], [] => false
  | [], _ :: _ => true
  | _ :: _, [] => false
  | c :: a, d :: b => if c = d then precedes a b else c < d

/-- Puts an entry under a name, in the place of the one that has it, or in order. -/
def putChild (name : Text) (e : Entry) : List (Text × Entry) → List (Text × Entry)
  | [] => [(name, e)]
  | (n, d) :: rest =>
    if n = name then (name, e) :: rest
    else if precedes name n then (name, e) :: (n, d) :: rest
    else (n, d) :: putChild name e rest

theorem lookup_putChild (name other : Text) (e : Entry) (children : List (Text × Entry)) :
    (putChild name e children).lookup other =
      if other = name then some e else children.lookup other := by
  induction children with
  | nil => grind [putChild]
  | cons c rest ih =>
    obtain ⟨n, d⟩ := c
    by_cases hn : n = name
    · grind [putChild]
    · by_cases hp : precedes name n = true <;> grind [putChild]

/-- Puts an entry where the given names lead; missing directories on the way are added. -/
def put (new : Entry) : List Text → Entry → Entry
  | [], _ => new
  | name :: names, e =>
    let child := (e.children.lookup name).getD empty
    directory (putChild name (put new names child) e.children)

theorem find?_put (new : Entry) (names : List Text) (e : Entry) :
    (put new names e).find? names = some new := by
  induction names generalizing e with
  | nil => simp [put, find?]
  | cons name names ih => simp [put, find?, children, lookup_putChild, ih]

mutual

/-- The number of characters in all files. -/
def textSize : Entry → Nat
  | file (.text t) => t.length
  | file .binary => 0
  | directory children => textSizeOf children

/-- The number of characters in the files of a list of entries. -/
def textSizeOf : List (Text × Entry) → Nat
  | [] => 0
  | (_, e) :: rest => textSize e + textSizeOf rest

end

end Entry

/-- A tree of files, seen from one of its directories. -/
structure FileSystem where
  root : Entry
  /-- The names that lead to the working directory. -/
  working : List Text

namespace FileSystem

/-! ## Paths -/

/-- How many bytes a file name may have. -/
def maxNameSize : Nat := 255

/-- The names that lead where the given segments lead from `here`. Each segment, an empty one too,
stands in a directory. -/
def walk (root : Entry) (here : List Text) : List Text → Except FileError (List Text)
  | [] => .ok here
  | segment :: segments =>
    match root.find? here with
    | none => .error .notFound
    | some (.file _) => .error .notDirectory
    | some (.directory children) =>
      if segment = [] || segment = ['.'] then walk root here segments
      else if segment = ['.', '.'] then walk root here.dropLast segments
      else if maxNameSize < Text.size segment then .error .nameTooLong
      else if (children.lookup segment).isSome then walk root (here ++ [segment]) segments
      else .error .notFound

/-- The directory where a path starts. -/
def origin (fs : FileSystem) (path : Text) : List Text :=
  if Path.isAbsolute path then [] else fs.working

/-- The names that lead to the entry of a path. -/
def locate (fs : FileSystem) (path : Text) : Except FileError (List Text) :=
  if path = [] then .error .notFound
  else if '\x00' ∈ path then .error .nulInPath
  else walk fs.root (fs.origin path) (Path.segments path)

/-- The entry of a path. -/
def entry (fs : FileSystem) (path : Text) : Except FileError Entry := do
  let names ← fs.locate path
  match fs.root.find? names with
  | some e => .ok e
  | none => .error .notFound

/-- Is there an entry? -/
def contains (fs : FileSystem) (path : Text) : Bool := (fs.entry path).toOption.isSome

/-- Is there a directory? -/
def isDirectory (fs : FileSystem) (path : Text) : Bool :=
  (fs.entry path).toOption.any Entry.isDirectory

/-- Is there a file? -/
def isFile (fs : FileSystem) (path : Text) : Bool :=
  (fs.entry path).toOption.any fun e => !e.isDirectory

/-! ## Reading and writing -/

/-- The text of a file. -/
def readText (fs : FileSystem) (path : Text) : Except FileError Text := do
  match ← fs.entry path with
  | .file (.text t) => .ok t
  | .file .binary => .error .notText
  | .directory _ => .error .isDirectory

/-- A place for a new entry: the names of its directory, the entries there, and its own name. -/
structure Slot where
  here : List Text
  children : List (Text × Entry)
  name : Text

/-- The slot of a path whose segments are `before` and `last`; `special` is the error for a last
segment that is no name. -/
def slot (fs : FileSystem) (special : FileError) (path : Text) (before : List Text) (last : Text) :
    Except FileError Slot := do
  if '\x00' ∈ path then .error .nulInPath
  let here ← walk fs.root (fs.origin path) before
  match fs.root.find? here with
  | none => .error .notFound
  | some (.file _) => .error .notDirectory
  | some (.directory children) =>
    if (Path.Component.ofSegment? last).all (· = .parent) then .error special
    else if maxNameSize < Text.size last then .error .nameTooLong
    else return ⟨here, children, last⟩

/-- Replaces the entry of a slot. -/
def fill (fs : FileSystem) (s : Slot) (e : Entry) : FileSystem :=
  { fs with root := Entry.put e (s.here ++ [s.name]) fs.root }

/-- Writes a file; its directory has to be there. -/
def writeText (fs : FileSystem) (path t : Text) : Except FileError FileSystem := do
  if path = [] then .error .notFound
  let segments := Path.segments path
  let s ← fs.slot .isDirectory path segments.dropLast (segments.getLastD [])
  match s.children.lookup s.name with
  | some (.directory _) => .error .isDirectory
  | _ => return fs.fill s (.file (.text t))

/-- Creates a directory; the one above has to be there. -/
def createDirectory (fs : FileSystem) (path : Text) : Except FileError FileSystem := do
  if path = [] then .error .notFound
  match (Path.segments path).reverse.dropWhile (· = []) with
  | [] => .error .alreadyExists
  | last :: before =>
    let s ← fs.slot .alreadyExists path before.reverse last
    if (s.children.lookup s.name).isSome then .error .alreadyExists
    else return fs.fill s .empty

/-- Creates a directory, after those above it if they are missing; `fuel` exceeds the number of
components. Directories that were created stay even if a later one cannot be. -/
def createFrom : (fuel : Nat) → FileSystem → (path : Text) → FileSystem × Except FileError Unit
  | 0, fs, _ => (fs, .error .notFound)
  | fuel + 1, fs, path =>
    if path = [] then (fs, .ok ())
    else
      match fs.createDirectory path with
      | .ok fs => (fs, .ok ())
      | .error .notFound =>
        match Path.parent? path with
        | none => (fs, .error .notFound)
        | some above =>
          match createFrom fuel fs above with
          | (fs, .error error) => (fs, .error error)
          | (fs, .ok ()) =>
            match fs.createDirectory path with
            | .ok fs => (fs, .ok ())
            | .error error => (fs, if fs.isDirectory path then .ok () else .error error)
      | .error error => (fs, if fs.isDirectory path then .ok () else .error error)

/-- Creates a directory and those above it, as far as they are missing. -/
def createDirectories (fs : FileSystem) (path : Text) : FileSystem × Except FileError Unit :=
  createFrom ((Path.components path).length + 1) fs path

/-! ## Listing -/

mutual

/-- The files of an entry with their contents, under paths that start with `path`. -/
def filesUnder (path : Text) : Entry → List (Text × Content)
  | .file content => [(path, content)]
  | .directory children => filesIn path children

/-- The files of the entries in the directory `path`. -/
def filesIn (path : Text) : List (Text × Entry) → List (Text × Content)
  | [] => []
  | (name, e) :: rest => filesUnder (Path.join path name) e ++ filesIn path rest

end

/-- The files below the working directory, with their paths from there. -/
def files (fs : FileSystem) : List (Text × Content) :=
  match fs.root.find? fs.working with
  | some e => filesIn [] e.children
  | none => []

end FileSystem

end DeclGen
