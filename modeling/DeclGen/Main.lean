import DeclGen.CommandLine.Program
import DeclGen.File.Changes

/-!
# The executable

The entries that the program looks at are read into a `FileSystem`, the program runs on it, and the
changes are carried out.
-/

namespace DeclGen.Main

/-- Reads a file or a directory with all that is in it, if it is there. -/
partial def readEntry (path : String) : IO (Option Entry) := do
  let place := (← IO.currentDir) / path
  if ← place.isDir then
    let mut children := []
    for child in ← place.readDir do
      if let some e ← readEntry (path ++ "/" ++ child.fileName) then
        children := Entry.putChild child.fileName.toList e children
    return some (.directory children)
  else if ← place.pathExists then
    let bytes ← IO.FS.readBinFile place
    match String.fromUTF8? bytes with
    | some text => return some (.file (.text text.toList))
    | none => return some (.file .binary)
  else return none

/-- Adds the directories on the way to a path, and the entry of the path. -/
partial def readWay (root : Entry) (here : List Text) : List Text → IO Entry
  | [] => return root
  | name :: names => do
    let here := here ++ [name]
    let path := String.ofList (here.flatMap fun n => '/' :: n)
    let place := (← IO.currentDir) / path
    if names.isEmpty || !(← place.isDir) then
      match ← readEntry path with
      | some e => return Entry.put e here root
      | none => return root
    else
      let root := if (root.find? here).isSome then root else Entry.put .empty here root
      readWay root here names

/-- The names on an absolute path, with the names in front of `..` dropped. -/
def namesOf (path : Text) : List Text :=
  (Path.components path).foldl (fun names c =>
    match c with
    | .name n => names ++ [n]
    | .parent => names.dropLast
    | _ => names) []

/-- The part of the file system that decides what the program does with the given words. -/
def snapshot (words : List Text) : IO FileSystem := do
  let working := (← IO.currentDir).toString.toList
  let mut root := Entry.put .empty (namesOf working) .empty
  for path in CommandLine.watched words do
    root ← readWay root [] (namesOf (Path.join working path))
  return ⟨root, namesOf working⟩

/-- Carries out a change. -/
def carryOut : Change → IO Unit
  | .createDirectory path => IO.FS.createDirAll (String.ofList path)
  | .writeFile path text => IO.FS.writeFile (String.ofList path) (String.ofList text)

/-- Runs the program. -/
def run (words : List Text) : IO UInt32 := do
  let before ← snapshot words
  let (after, outcome) := CommandLine.program words before
  for change in before.changes after do
    carryOut change
  IO.print (String.ofList outcome.stdout)
  IO.eprint (String.ofList outcome.stderr)
  return outcome.code.toUInt32

end DeclGen.Main

/-- Generates TypeScript declarations from entity documents. -/
def main (words : List String) : IO UInt32 := DeclGen.Main.run (words.map String.toList)
