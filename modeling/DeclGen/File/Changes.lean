import DeclGen.File.System

/-!
# Changes of a file system

* `Change` : a directory that was created, or a file that was written;
* `Entry.changesIn` : the changes between two lists of entries of one directory;
* `FileSystem.changes` : the changes between two file systems; each directory precedes what is in it.
-/

namespace DeclGen

/-- A change of a file system; paths start at the root. -/
inductive Change where
  | createDirectory (path : Text)
  | writeFile (path text : Text)
  deriving DecidableEq, Repr

namespace Entry

/-- Was there a directory? -/
def wasDirectory (old : Option Entry) : Bool := old.any isDirectory

/-- Was there a file with the text `t`? -/
def hadText (old : Option Entry) (t : Text) : Bool :=
  match old with
  | some (file (.text s)) => s = t
  | _ => false

mutual

/-- The changes that lead from what was at `path` to an entry. -/
def changes (path : Text) (old : Option Entry) : Entry → List Change
  | file (.text t) => if hadText old t then [] else [.writeFile path t]
  | file .binary => []
  | directory children =>
    (if wasDirectory old then [] else [.createDirectory path]) ++
      changesIn path ((old.map Entry.children).getD []) children

/-- The changes that lead from the entries `old` of the directory `path` to new ones. -/
def changesIn (path : Text) (old : List (Text × Entry)) : List (Text × Entry) → List Change
  | [] => []
  | (name, e) :: rest => changes (path ++ '/' :: name) (old.lookup name) e ++ changesIn path old rest

end

end Entry

/-- The changes that lead from one file system to another. -/
def FileSystem.changes (old new : FileSystem) : List Change :=
  Entry.changesIn [] old.root.children new.root.children

end DeclGen
