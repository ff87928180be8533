import DeclGen.File.System

/-!
# Finding entity documents

Entity documents have the extension `.xml`. A search lists the entries of that extension in a
directory, or in a directory and all below it: depth first, in the order of their names, a directory
before what it contains.

* `Search.isDocument` : does the name have the extension?
* `Search.directory?` : the path under which a search lists a directory;
* `Search.documentsIn`, `Search.documentsBelow` : the paths found.
-/

namespace DeclGen.Search

/-- The extension of entity documents. -/
def extension : Text := "xml".toList

/-- Does a name end in the extension of entity documents? -/
def isDocument (name : Text) : Bool := ('.' :: extension).isSuffixOf name

/-- Does the path mean the working directory itself? -/
def isHere (path : Text) : Bool := Path.components path = [.current]

/-- The path of the entry `name` in the directory `path`; the working directory is not written. -/
def inside (path name : Text) : Text := if isHere path then name else Path.join path name

/-- Follows segments from the directory `path`; what they lead to has to be there. -/
def follow (fs : FileSystem) (path : Text) : List Text → Option Text
  | [] => some path
  | segment :: segments =>
    let next := inside path segment
    let there :=
      if segment = ['.'] || segment = ['.', '.'] then fs.isDirectory path else fs.contains next
    if there then follow fs next segments else none

/-- The path under which the entries of a directory are listed. -/
def directory? (fs : FileSystem) (path : Text) : Option Text :=
  if Path.isAbsolute path then follow fs ['/'] (Path.segments path).tail
  else follow fs ['.'] (Path.segments path)

/-- The documents among the entries of the directory `path`. -/
def direct (path : Text) (children : List (Text × Entry)) : List Text :=
  (children.filter fun c => isDocument c.1).map fun c => inside path c.1

mutual

/-- The documents below an entry with the given path. -/
def below (path : Text) : Entry → List Text
  | .file _ => []
  | .directory children => belowAll path children

/-- The documents among the entries of the directory `path` and below them. -/
def belowAll (path : Text) : List (Text × Entry) → List Text
  | [] => []
  | (name, e) :: rest =>
    (if isDocument name then [inside path name] else []) ++ below (inside path name) e ++
      belowAll path rest

end

/-- Lists a directory by the given function of its path and its entries. -/
def list (fs : FileSystem) (path : Text) (entries : Text → List (Text × Entry) → List Text) :
    List Text :=
  match directory? fs path with
  | none => []
  | some found =>
    match fs.entry found with
    | .ok e => entries found e.children
    | .error _ => []

/-- The documents in a directory. -/
def documentsIn (fs : FileSystem) (path : Text) : List Text := list fs path direct

/-- The documents in a directory and below it. -/
def documentsBelow (fs : FileSystem) (path : Text) : List Text := list fs path belowAll

end DeclGen.Search
