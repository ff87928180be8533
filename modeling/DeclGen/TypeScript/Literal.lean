import DeclGen.Text.Basic

/-!
# Quoted strings and property keys

* `TypeScript.quote` : a string literal in single quotes;
* `TypeScript.propertyKey` : a property name, bare if it may stand so and quoted otherwise.
-/

namespace DeclGen.TypeScript

/-- Writes a backslash before each backslash and each single quote. -/
def escape (t : Text) : Text :=
  t.flatMap fun c => if c = '\\' || c = '\'' then ['\\', c] else [c]

/-- A string literal: the escaped text between single quotes. -/
def quote (t : Text) : Text := '\'' :: escape t ++ ['\'']

/-- The characters an identifier may start with. -/
def startsIdentifier (c : Char) : Bool := c.isAlpha || c = '_' || c = '$'

/-- The characters of identifiers. -/
def inIdentifier (c : Char) : Bool := c.isAlphanum || c = '_' || c = '$'

/-- Is the text an identifier of ASCII characters? -/
def isIdentifier (t : Text) : Bool := t.head?.any startsIdentifier && t.all inIdentifier

/-- Is the text a nonempty run of ASCII digits? -/
def isIndex (t : Text) : Bool := t != [] && t.all Char.isDigit

/-- A property name: identifiers and indices stand bare, all else is quoted. -/
def propertyKey (key : Text) : Text :=
  if isIdentifier key || isIndex key then key else quote key

end DeclGen.TypeScript
