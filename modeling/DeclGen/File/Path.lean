import DeclGen.Text.Basic

/-!
# Paths

A path is a text whose segments stand between slashes. Empty segments and `.` mean nothing, except
for a `.` at the start, which is a component of its own.

* `Path.segments`, `Path.components` : the parts of a path, all of them or those that mean something;
* `Path.join` : a path seen from another one;
* `Path.stem` : a file name without its extension;
* `Path.setExtension`, `Path.parent?` : the path with another extension, and the one above;
* `Path.relativeTo?` : the components below another path.
-/

namespace DeclGen.Path

/-- The parts between the slashes. -/
def segments (path : Text) : List Text := Text.split (· = '/') path

/-- Does the path start at the root? -/
def isAbsolute (path : Text) : Bool := path.head? = some '/'

/-- The path `path` seen from `base`; an absolute path is its own. -/
def join (base path : Text) : Text :=
  if isAbsolute path || base = [] then path
  else if base.getLast? = some '/' then base ++ path
  else base ++ '/' :: path

/-! ## Components -/

/-- A part of a path that means something. -/
inductive Component where
  | root
  | current
  | parent
  | name (name : Text)
  deriving DecidableEq, Repr

/-- The component of a segment, if it means something anywhere in a path. -/
def Component.ofSegment? (segment : Text) : Option Component :=
  if segment = [] || segment = ['.'] then none
  else if segment = ['.', '.'] then some .parent
  else some (.name segment)

/-- What the start of the path means. -/
def leading (path : Text) : List Component :=
  if isAbsolute path then [.root]
  else if (segments path).head? = some ['.'] then [.current]
  else []

/-- The components of a path. -/
def components (path : Text) : List Component :=
  leading path ++ (segments path).filterMap Component.ofSegment?

/-- The text of a component. -/
def Component.text : Component → Text
  | .root => ['/']
  | .current => ['.']
  | .parent => ['.', '.']
  | .name n => n

/-- The path with the given components. -/
def ofComponents (components : List Component) : Text :=
  components.foldl (fun path c => join path c.text) []

/-- The path above; none if there are no components, or only the root. -/
def parent? (path : Text) : Option Text :=
  match (components path).getLast? with
  | none => none
  | some .root => none
  | some _ => some (ofComponents (components path).dropLast)

/-- What is left after the components of `base`. -/
def dropComponents : (base path : List Component) → Option (List Component)
  | [], path => some path
  | _ :: _, [] => none
  | b :: base, c :: path => if b = c then dropComponents base path else none

/-- The components of `path` below `base`. -/
def relativeTo? (base path : Text) : Option (List Component) :=
  dropComponents (components base) (components path)

/-! ## Extensions -/

/-- A file name up to its last dot; a dot at the start begins no extension. -/
def stem (name : Text) : Text :=
  let before := Text.beforeLast (· = '.') name
  if before = [] then name else before

/-- The name at the end of a path, and the segments before it, the last one first. -/
def fileName? (path : Text) : Option (List Text × Text) :=
  match (segments path).reverse.dropWhile (fun s => s = [] || s = ['.']) with
  | [] => none
  | name :: before => if name = ['.', '.'] then none else some (before, name)

/-- The path with the extension of its file name replaced; what follows the name is dropped. -/
def setExtension (extension path : Text) : Text :=
  match fileName? path with
  | none => path
  | some (before, name) =>
    List.intercalate ['/'] ((stem name ++ '.' :: extension) :: before).reverse

end DeclGen.Path
