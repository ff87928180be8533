import DeclGen.Text.Blank

/-!
# Qualified names

A qualified name is a list of segments written with separators, `\` or `.`. The functions here are
defined for every text, so a name may lead with separators, repeat them or end in one.

* `Name.isSeparator` : the two separators;
* `Name.normalize` : no leading separator, and `\` for each separator;
* `Name.short` : the last segment; `Name.scope` : what stands before it;
* `Name.isQualified` : is there a scope?
* `Name.join` : a scope and a name as one normalized name.
-/

namespace DeclGen.Name

/-- The two characters that separate the segments of a name. -/
def isSeparator (c : Char) : Bool := c = '\\' || c = '.'

/-- Drops the separators at the start. -/
def dropLeading (name : Text) : Text := name.dropWhile isSeparator

/-- Writes every separator as a backslash. -/
def unify (name : Text) : Text := name.map fun c => if isSeparator c then '\\' else c

/-- The normal form: trimmed, without leading separators, with backslashes only. -/
def normalize (name : Text) : Text := unify (dropLeading (Text.trim name))

/-- The segment after the last separator. -/
def short (name : Text) : Text := Text.afterLast isSeparator (Text.trim name)

/-- What precedes the last separator, leading separators apart. -/
def scope (name : Text) : Text := Text.beforeLast isSeparator (dropLeading (Text.trim name))

/-- Does the name have a separator after its first segment? -/
def isQualified (name : Text) : Bool := (dropLeading (Text.trim name)).any isSeparator

/-- The name `name` inside the scope `scope`, normalized. -/
def join (scope name : Text) : Text :=
  if normalize scope = [] then normalize name
  else normalize scope ++ '\\' :: normalize name

end DeclGen.Name
