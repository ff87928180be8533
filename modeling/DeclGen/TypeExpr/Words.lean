import DeclGen.TypeNode.Basic

/-!
# Words and marks of type expressions

* `TypeExpr.isNameStart`, `TypeExpr.inName`, `TypeExpr.inKey` : the characters of type names
  and of bare record keys, all of them ASCII;
* `TypeExpr.Keyword` : the names of collections;
* `TypeExpr.resolveName` : the type that a name denotes when nothing follows it;
* `TypeExpr.entryKey?` : the key of a record entry, if one stands at the start of the text.
-/

namespace DeclGen.TypeExpr

/-- The characters a type name may start with. -/
def isNameStart (c : Char) : Bool := c.isAlpha || c = '_' || c = '\\'

/-- The characters of type names. -/
def inName (c : Char) : Bool := c.isAlphanum || c = '_' || c = '\\' || c = '.' || c = '-'

/-- The characters of record keys that need no quotes. -/
def inKey (c : Char) : Bool := c.isAlphanum || c = '_' || c = '-' || c = '$'

/-- The names that a shape or type arguments turn into a collection type. -/
def collections : List Text :=
  ["array".toList, "list".toList, "non-empty-array".toList, "non-empty-list".toList,
    "iterable".toList]

/-- Is the name the name of a collection? -/
def isCollection (name : Text) : Bool := collections.contains name

/-- May a record shape follow the name? -/
def takesShape (name : Text) : Bool := isCollection name && name != "iterable".toList

/-- The type of a name that is no collection: a primitive, a date, or another entity. -/
def resolveName (name : Text) : TypeNode :=
  let bare := Name.dropLeading name
  if isDateTime bare then .primitive .string
  else
    match Primitive.ofName? bare with
    | some kind => .primitive kind
    | none => .named (Name.normalize bare)

/-- The type of a name with nothing after it. -/
def plainName (name : Text) : TypeNode :=
  if isCollection name then .primitive .untypedArray else resolveName name

/-- The type of a collection with the given arguments; there are at most two. -/
def collectionOf? : List TypeNode → Option TypeNode
  | [item] => some (.array item)
  | [key, value] => some (.dictionary key value)
  | _ => none

/-! ## Keys of record entries -/

/-- A key at the start of the text, quoted or bare, and what follows it. -/
def key? : Text → Option (Text × Text)
  | [] => none
  | c :: t =>
    if c = '\'' || c = '"' then
      match t.dropWhile (· != c) with
      | [] => none
      | _ :: rest => some (t.takeWhile (· != c), rest)
    else if inKey c then some ((c :: t).takeWhile inKey, (c :: t).dropWhile inKey)
    else none

/-- Takes one question mark off the text. -/
def optional? : Text → Bool × Text
  | '?' :: t => (true, t)
  | t => (false, t)

/-- The key of an entry with its colon: the key, whether it may be absent, and what follows. -/
def entryKey? (t : Text) : Option (Text × Bool × Text) :=
  match key? t with
  | none => none
  | some (key, rest) =>
    let (optional, rest) := optional? (Text.skipSpacing rest)
    match Text.skipSpacing rest with
    | ':' :: rest => some (key, optional, rest)
    | _ => none

end DeclGen.TypeExpr
