import DeclGen.Entity.Resolved
import DeclGen.TypeScript.TypeText

/-!
# Declarations

A generated file holds one declaration: an interface, after the imports of what it refers to, or an
enumeration.

* `TypeScript.Options` : the choices in the output;
* `TypeScript.importLine` : the import of one entity;
* `TypeScript.docBlock` : a documentation comment;
* `TypeScript.interface`, `TypeScript.enumeration` : the two declarations;
* `TypeScript.render` : the file of an entity.
-/

namespace DeclGen.TypeScript

/-- The choices in the output. -/
structure Options where
  /-- Do import paths carry the extension `.ts`? -/
  extension : Bool
  /-- What precedes a member. -/
  indent : Text
  deriving DecidableEq, Repr

/-- Import paths without extension, and two spaces before a member. -/
def Options.default : Options := ⟨false, [' ', ' ']⟩

/-- The import of the entity `name`. -/
def importLine (options : Options) (name : Text) : Text :=
  "import \x7b ".toList ++ name ++ " \x7d from './".toList ++ name ++
    (if options.extension then ".ts".toList else []) ++ "';\n".toList

/-! ## Documentation -/

/-- Writes a backslash into each end of a comment. -/
def escapeEnds : Text → Text
  | '*' :: '/' :: t => '*' :: '\\' :: '/' :: escapeEnds t
  | c :: t => c :: escapeEnds t
  | [] => []

/-- A line of a documentation comment. -/
def docLine (indent line : Text) : Text :=
  if line = [] then indent ++ " *\n".toList
  else indent ++ " * ".toList ++ escapeEnds line ++ ['\n']

/-- A documentation comment with one line for each line of `doc`. -/
def docBlock (doc indent : Text) : Text :=
  indent ++ "/**\n".toList ++ (Text.lines doc).flatMap (docLine indent) ++ indent ++ " */\n".toList

/-- A documentation comment if there is documentation. -/
def optionalDoc (doc : Option Text) (indent : Text) : Text :=
  match doc with
  | some doc => docBlock doc indent
  | none => []

/-! ## Interfaces -/

/-- A field with its documentation. -/
def fieldText (options : Options) (f : ResolvedField) : Text :=
  optionalDoc f.doc options.indent ++ options.indent ++ propertyKey f.name ++ ": ".toList ++
    f.type.toTypeScript ++ ";\n".toList

/-- The imports, with an empty line after them. -/
def importBlock (options : Options) (e : Resolved) : Text :=
  let lines := e.imports.flatMap (importLine options)
  if lines = [] then [] else lines ++ ['\n']

/-- The file of a record. -/
def interface (options : Options) (e : Resolved) : Text :=
  importBlock options e ++ optionalDoc e.doc [] ++ "export interface ".toList ++ e.shortName ++
    " \x7b\n".toList ++ e.fields.flatMap (fieldText options) ++ "\x7d\n".toList

/-! ## Enumerations -/

/-- The literal of a value: strings are quoted, integers stand bare. -/
def valueText : EnumValue → Text
  | .text t => quote t
  | .integer n => Text.ofInt n

/-- A member without the comma after it. -/
def memberText (options : Options) (m : Member) : Text :=
  options.indent ++ propertyKey m.name ++ " = ".toList ++ valueText m.value

/-- The members, a comma between any two. -/
def memberBlock (options : Options) : List Member → Text
  | [] => []
  | [m] => memberText options m ++ ['\n']
  | m :: n :: ms => memberText options m ++ ",\n".toList ++ memberBlock options (n :: ms)

/-- The file of an enumeration. -/
def enumeration (options : Options) (e : Resolved) : Text :=
  optionalDoc e.doc [] ++ "export enum ".toList ++ e.shortName ++ " \x7b\n".toList ++
    memberBlock options e.members ++ "\x7d\n".toList

/-- The file of an entity. -/
def render (options : Options) (e : Resolved) : Text :=
  match e.kind with
  | .record => interface options e
  | .enumeration _ => enumeration options e

end DeclGen.TypeScript
