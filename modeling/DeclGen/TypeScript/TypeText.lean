import DeclGen.TypeNode.Basic
import DeclGen.TypeScript.Literal

/-!
# Types as TypeScript

* `TypeScript.mapName` : the TypeScript type of a plain type name;
* `TypeScript.alternatives` : the parts of a type text between the bars outside all brackets;
* `TypeScript.wrapNullable` : a type text with `null` as an alternative;
* `TypeNode.toTypeScript` : the type text of a type.
-/

namespace DeclGen

namespace TypeScript

/-- The type of a name: primitives by their table, dates as strings, entities by short name. -/
def mapName (name : Text) : Text :=
  let name := Text.trim name
  if isDateTime name then Primitive.token .string
  else
    match Primitive.ofName? name with
    | some kind => kind.token
    | none => Name.short name

/-! ## `null` as an alternative -/

/-- The bracket depth after a character; closing brackets beyond the last open one do not count. -/
def depthAfter (depth : Nat) (c : Char) : Nat :=
  if c ∈ ['{', '<', '(', '['] then depth + 1
  else if c ∈ ['}', '>', ')', ']'] then depth - 1
  else depth

/-- The parts of a type text between the bars that stand outside all brackets. -/
def alternatives (depth : Nat) : Text → List Text
  | [] => [[]]
  | c :: t =>
    if c = '|' && depth = 0 then [] :: alternatives 0 t
    else
      match alternatives (depthAfter depth c) t with
      | [] => [[c]]
      | part :: parts => (c :: part) :: parts

/-- Is one of the outer alternatives of a type text `null`? -/
def hasNull (token : Text) : Bool :=
  (alternatives 0 token).any fun part => Text.trim part = "null".toList

/-- Adds `null` to a type text, unless it is `any` or has `null` already. -/
def wrapNullable (token : Text) : Text :=
  let token := Text.trim token
  if token = "any".toList || hasNull token then token else token ++ " | null".toList

end TypeScript

namespace TypeNode

open TypeScript

/-- Does the type need parentheses before `[]`? -/
def needsParentheses : TypeNode → Bool
  | orNull _ => true
  | oneOf _ => true
  | primitive .arrayKey => true
  | _ => false

/-- The mark of a key that may be absent. -/
def optionalMark (optional : Bool) : Text := if optional then ['?'] else []

mutual

/-- The TypeScript text of a type. -/
def toTypeScript : TypeNode → Text
  | primitive kind => kind.token
  | named name => mapName name
  | array item =>
    if item.needsParentheses then '(' :: toTypeScript item ++ ")[]".toList
    else toTypeScript item ++ "[]".toList
  | dictionary key value =>
    "Record<".toList ++ toTypeScript key ++ ", ".toList ++ toTypeScript value ++ ['>']
  | record entries =>
    if entries.isEmpty then ['{', '}']
    else ['{', ' '] ++ List.intercalate "; ".toList (entryTexts entries) ++ [' ', '}']
  | orNull inner => wrapNullable (toTypeScript inner)
  | oneOf members => List.intercalate " | ".toList (memberTexts members)

/-- The texts of the entries of a record. -/
def entryTexts : List (RecordEntry TypeNode) → List Text
  | [] => []
  | ⟨key, type, optional⟩ :: entries =>
    (propertyKey key ++ optionalMark optional ++ ": ".toList ++ toTypeScript type) ::
      entryTexts entries

/-- The texts of the members of a union. -/
def memberTexts : List TypeNode → List Text
  | [] => []
  | t :: ts => toTypeScript t :: memberTexts ts

end

section Equations
variable (t : TypeNode) (ts : List TypeNode) (e : RecordEntry TypeNode)
  (es : List (RecordEntry TypeNode))

@[simp] theorem toTypeScript_primitive (kind : Primitive) :
    (primitive kind).toTypeScript = kind.token := rfl

@[simp] theorem toTypeScript_named (name : Text) : (named name).toTypeScript = mapName name := rfl

@[simp] theorem toTypeScript_array : (array t).toTypeScript =
    if t.needsParentheses then '(' :: toTypeScript t ++ ")[]".toList
    else toTypeScript t ++ "[]".toList := rfl

@[simp] theorem toTypeScript_dictionary (key value : TypeNode) : (dictionary key value).toTypeScript =
    "Record<".toList ++ toTypeScript key ++ ", ".toList ++ toTypeScript value ++ ['>'] := rfl

@[simp] theorem toTypeScript_record : (record es).toTypeScript =
    if es.isEmpty then ['{', '}']
    else ['{', ' '] ++ List.intercalate "; ".toList (entryTexts es) ++ [' ', '}'] := rfl

@[simp] theorem toTypeScript_orNull : (orNull t).toTypeScript = wrapNullable t.toTypeScript := rfl

@[simp] theorem toTypeScript_oneOf :
    (oneOf ts).toTypeScript = List.intercalate " | ".toList (memberTexts ts) := rfl

@[simp] theorem entryTexts_cons : entryTexts (e :: es) =
    (propertyKey e.key ++ optionalMark e.optional ++ ": ".toList ++ toTypeScript e.type) ::
      entryTexts es := rfl

@[simp] theorem memberTexts_cons : memberTexts (t :: ts) = toTypeScript t :: memberTexts ts := rfl

end Equations

end TypeNode

end DeclGen
