import DeclGen.Name

/-!
# Primitive types

* `Primitive` : the types that are no reference to an entity;
* `Primitive.table` : the type names that denote them, `Primitive.ofName?` the look-up;
* `Primitive.token` : the TypeScript type;
* `isDateTime` : the classes of dates, which are generated as strings;
* `isBuiltin` : the names that never refer to an entity.
-/

namespace DeclGen

/-- The types that are no reference to an entity. -/
inductive Primitive where
  | string
  | integer
  | float
  | boolean
  | any
  | void
  | null
  | untypedArray
  | arrayKey
  deriving DecidableEq, Repr

namespace Primitive

/-- The names of the primitive types; names are matched exactly, case included. -/
def table : List (Text × Primitive) :=
  [ ("string".toList, string), ("class-string".toList, string),
    ("non-empty-string".toList, string), ("numeric-string".toList, string),
    ("literal-string".toList, string), ("lowercase-string".toList, string),
    ("callable-string".toList, string),
    ("int".toList, integer), ("integer".toList, integer), ("positive-int".toList, integer),
    ("negative-int".toList, integer), ("non-negative-int".toList, integer),
    ("non-positive-int".toList, integer), ("non-zero-int".toList, integer),
    ("float".toList, float), ("double".toList, float),
    ("bool".toList, boolean), ("boolean".toList, boolean),
    ("mixed".toList, any), ("object".toList, any),
    ("void".toList, void),
    ("null".toList, null),
    ("array".toList, untypedArray),
    ("array-key".toList, arrayKey) ]

/-- The primitive type of a name. -/
def ofName? (name : Text) : Option Primitive := table.lookup name

theorem mem_table_of_ofName? {name : Text} {kind : Primitive} (h : ofName? name = some kind) :
    (name, kind) ∈ table := by
  obtain ⟨before, after, ht, -⟩ := List.lookup_eq_some_iff.1 h
  rw [ht]
  exact List.mem_append_right before List.mem_cons_self

/-- The TypeScript type; integers and floats are both numbers. -/
def token : Primitive → Text
  | string => "string".toList
  | integer => "number".toList
  | float => "number".toList
  | boolean => "boolean".toList
  | any => "any".toList
  | void => "void".toList
  | null => "null".toList
  | untypedArray => "any[]".toList
  | arrayKey => "string | number".toList

end Primitive

/-- Does the name denote a class of dates? It does if `DateTime` stands anywhere in it. -/
def isDateTime (name : Text) : Bool := Text.contains "DateTime".toList name

/-- Is the name a primitive type or a class of dates, and so never an entity? -/
def isBuiltin (name : Text) : Bool :=
  let bare := Name.dropLeading (Text.trim name)
  (Primitive.ofName? bare).isSome || isDateTime bare

end DeclGen
