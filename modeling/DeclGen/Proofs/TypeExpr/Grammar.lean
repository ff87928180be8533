import DeclGen.TypeExpr.Diagnosis

/-!
# The grammar of type expressions

A derivation is a tree with a constructor for each production; it says nothing of reading.

* `Tree`, `Suffixed`, `Atom` : derivations of types, of atoms with `[]` suffixes, of atoms;
  `EntryTree` and `ArgumentTree` : of the entries of records and of type arguments;
* `Tree.tokens` : the tokens that a derivation stands for;
* `Tree.nesting` : how deeply prefixes, records, parentheses and type arguments are nested in it;
* `Tree.WellFormed` : are the words in it words of the grammar?
* `Tree.value` : the type that a derivation denotes;
* `Tree.redeclared` : the record keys declared again in it;
* `Spells` : a text is some tokens with blanks between them, and a rest;
* `Derives` : a derivation is one of a text.
-/

namespace DeclGen.TypeExpr

/-! ## Derivations -/

/-- The key of a record entry as it is written. -/
inductive Key where
  | bare (name : Text)
  | quoted (quote : Char) (name : Text)

/-- An entry of a record. The flag of a key tells whether a question mark follows it. -/
structure EntryTree (τ : Type) where
  key : Option (Key × Bool)
  type : τ

/-- A type argument. -/
inductive ArgumentTree (τ : Type) where
  | type (type : τ)
  | bound (word : Text)

mutual

/-- `type ::= '?' type | union` and `union ::= suffixed ('|' ['?'] suffixed)*`; the flag of a
further member tells whether it has a question mark. -/
inductive Tree where
  | nullable (inner : Tree)
  | union (first : Suffixed) (others : List (Bool × Suffixed))

/-- `suffixed ::= atom ('[' ']')*` -/
inductive Suffixed where
  | mk (atom : Atom) (brackets : Nat)

/-- `atom ::= name | [keyword] record | name '<' arguments '>' | '(' type ')'`; the flag of a record
tells whether a comma follows its last entry. -/
inductive Atom where
  | name (name : Text)
  | record (keyword : Option Text) (entries : List (EntryTree Tree)) (comma : Bool)
  | applied (name : Text) (arguments : List (ArgumentTree Tree))
  | parenthesized (inner : Tree)

end

/-! ## Tokens -/

/-- A token if the condition holds. -/
def tokenIf (b : Bool) (c : Char) : List Text := if b then [[c]] else []

def Key.token : Key → Text
  | bare name => name
  | quoted quote name => quote :: name ++ [quote]

/-- The tokens of a key up to its colon. -/
def keyTokens : Option (Key × Bool) → List Text
  | none => []
  | some (key, optional) => key.token :: tokenIf optional '?' ++ [[':']]

def bracketTokens : Nat → List Text
  | 0 => []
  | n + 1 => ['['] :: [']'] :: bracketTokens n

mutual

/-- The tokens of a type, in the order in which they stand. -/
def Tree.tokens : Tree → List Text
  | .nullable t => ['?'] :: t.tokens
  | .union s ms => s.tokens ++ memberTokens ms

def memberTokens : List (Bool × Suffixed) → List Text
  | [] => []
  | (mark, s) :: ms => ['|'] :: tokenIf mark '?' ++ s.tokens ++ memberTokens ms

def Suffixed.tokens : Suffixed → List Text
  | .mk a n => a.tokens ++ bracketTokens n

def Atom.tokens : Atom → List Text
  | .name n => [n]
  | .record keyword es comma => keyword.toList ++ ['{'] :: entryTokens comma es ++ [['}']]
  | .applied n as => n :: ['<'] :: argumentTokens as ++ [['>']]
  | .parenthesized t => ['('] :: t.tokens ++ [[')']]

/-- The tokens of entries: a comma follows each of them, the last one if `comma` holds. -/
def entryTokens (comma : Bool) : List (EntryTree Tree) → List Text
  | [] => []
  | ⟨key, t⟩ :: es =>
    keyTokens key ++ t.tokens ++ tokenIf (comma || !es.isEmpty) ',' ++ entryTokens comma es

/-- The tokens of type arguments, a comma between any two. -/
def argumentTokens : List (ArgumentTree Tree) → List Text
  | [] => []
  | .type t :: as => t.tokens ++ tokenIf (!as.isEmpty) ',' ++ argumentTokens as
  | .bound word :: as => word :: tokenIf (!as.isEmpty) ',' ++ argumentTokens as

end

/-! ## Nesting -/

mutual

/-- How deeply prefixes, records, parentheses and type arguments are nested in a type. -/
def Tree.nesting : Tree → Nat
  | .nullable t => t.nesting + 1
  | .union s ms => max s.nesting (memberNesting ms)

/-- A question mark before a member is a nesting. -/
def memberNesting : List (Bool × Suffixed) → Nat
  | [] => 0
  | (mark, s) :: ms => max (s.nesting + if mark then 1 else 0) (memberNesting ms)

def Suffixed.nesting : Suffixed → Nat
  | .mk a _ => a.nesting

def Atom.nesting : Atom → Nat
  | .name _ => 0
  | .record _ es _ => entryNesting es + 1
  | .applied _ as => argumentNesting as + 1
  | .parenthesized t => t.nesting + 1

def entryNesting : List (EntryTree Tree) → Nat
  | [] => 0
  | ⟨_, t⟩ :: es => max t.nesting (entryNesting es)

def argumentNesting : List (ArgumentTree Tree) → Nat
  | [] => 0
  | .type t :: as => max t.nesting (argumentNesting as)
  | .bound _ :: as => argumentNesting as

end

/-! ## Words -/

/-- A type name. -/
def IsName (name : Text) : Prop := name.head?.any isNameStart = true ∧ ∀ c ∈ name, inName c = true

/-- A run of digits after an optional minus sign. -/
def IsInteger (word : Text) : Prop :=
  ∃ digits, digits ≠ [] ∧ (∀ c ∈ digits, c.isDigit = true) ∧ (word = digits ∨ word = '-' :: digits)

/-- What is read as the bound of an integer range: an integer, or a minus sign alone. -/
def IsBound (word : Text) : Prop := IsInteger word ∨ word = ['-']

def Key.WellFormed : Key → Prop
  | bare name => name ≠ [] ∧ ∀ c ∈ name, inKey c = true
  | quoted quote name => (quote = '\'' ∨ quote = '"') ∧ quote ∉ name

mutual

/-- Are the words in a type words of the grammar whose bounds satisfy `bound`? -/
def Tree.WellFormed (bound : Text → Prop) : Tree → Prop
  | .nullable t => t.WellFormed bound
  | .union s ms => s.WellFormed bound ∧ MembersWellFormed bound ms

def MembersWellFormed (bound : Text → Prop) : List (Bool × Suffixed) → Prop
  | [] => True
  | (_, s) :: ms => s.WellFormed bound ∧ MembersWellFormed bound ms

def Suffixed.WellFormed (bound : Text → Prop) : Suffixed → Prop
  | .mk a _ => a.WellFormed bound

/-- Only a record with entries may have a last comma, and collections have one or two type
arguments. -/
def Atom.WellFormed (bound : Text → Prop) : Atom → Prop
  | .name n => IsName n
  | .record keyword es comma =>
    (∀ k ∈ keyword, takesShape k = true) ∧ (comma = true → es ≠ []) ∧ EntriesWellFormed bound es
  | .applied n as =>
    IsName n ∧ as ≠ [] ∧ (isCollection n = true → as.length ≤ 2) ∧ ArgumentsWellFormed bound as
  | .parenthesized t => t.WellFormed bound

def EntriesWellFormed (bound : Text → Prop) : List (EntryTree Tree) → Prop
  | [] => True
  | ⟨key, t⟩ :: es =>
    (∀ k ∈ key, k.1.WellFormed) ∧ t.WellFormed bound ∧ EntriesWellFormed bound es

def ArgumentsWellFormed (bound : Text → Prop) : List (ArgumentTree Tree) → Prop
  | [] => True
  | .type t :: as => t.WellFormed bound ∧ ArgumentsWellFormed bound as
  | .bound word :: as => bound word ∧ ArgumentsWellFormed bound as

end

/-! ## Meaning -/

def Key.name : Key → Text
  | bare name => name
  | quoted _ name => name

/-- The key under which an entry is declared, if `index` entries without a key precede it. -/
def keyAt (index : Nat) : Option (Key × Bool) → Text
  | none => Text.ofNat index
  | some (key, _) => key.name

/-- How many entries without a key there are after one more entry. -/
def nextIndex (index : Nat) : Option (Key × Bool) → Nat
  | none => index + 1
  | some _ => index

def isOptional : Option (Key × Bool) → Bool
  | none => false
  | some (_, optional) => optional

/-- The type `item` with the given number of suffixes. -/
def arrayOf (item : TypeNode) : Nat → TypeNode
  | 0 => item
  | n + 1 => arrayOf (.array item) n

/-- The entries that are declared when further entries are: a key keeps its first place and takes
its last type. -/
def declareAll (declared entries : List (RecordEntry TypeNode)) : List (RecordEntry TypeNode) :=
  entries.foldl (fun declared e => (declare e declared).1) declared

mutual

/-- The type that a derivation denotes. -/
def Tree.value : Tree → TypeNode
  | .nullable t => t.value.nullable
  | .union s [] => s.value
  | .union s (m :: ms) => .union (s.value :: memberValues (m :: ms))

def memberValues : List (Bool × Suffixed) → List TypeNode
  | [] => []
  | (mark, s) :: ms => (if mark then s.value.nullable else s.value) :: memberValues ms

def Suffixed.value : Suffixed → TypeNode
  | .mk a n => arrayOf a.value n

/-- The arguments of a name that is no collection have no meaning. -/
def Atom.value : Atom → TypeNode
  | .name n => plainName n
  | .record _ es _ => .record (declareAll [] (entryValues 0 es))
  | .applied n as =>
    if isCollection n then (collectionOf? (argumentValues as)).getD .any else resolveName n
  | .parenthesized t => t.value

/-- The entries of a record as they stand, if `index` entries without a key precede them. -/
def entryValues (index : Nat) : List (EntryTree Tree) → List (RecordEntry TypeNode)
  | [] => []
  | ⟨key, t⟩ :: es =>
    ⟨keyAt index key, t.value, isOptional key⟩ :: entryValues (nextIndex index key) es

/-- The types of type arguments; integer bounds count as `any`. -/
def argumentValues : List (ArgumentTree Tree) → List TypeNode
  | [] => []
  | .type t :: as => t.value :: argumentValues as
  | .bound _ :: as => .any :: argumentValues as

end

mutual

/-- The record keys declared again in a type, in the order in which the later entries end. -/
def Tree.redeclared : Tree → List Text
  | .nullable t => t.redeclared
  | .union s ms => s.redeclared ++ memberRedeclared ms

def memberRedeclared : List (Bool × Suffixed) → List Text
  | [] => []
  | (_, s) :: ms => s.redeclared ++ memberRedeclared ms

def Suffixed.redeclared : Suffixed → List Text
  | .mk a _ => a.redeclared

def Atom.redeclared : Atom → List Text
  | .name _ => []
  | .record _ es _ => entryRedeclared [] 0 es
  | .applied _ as => argumentRedeclared as
  | .parenthesized t => t.redeclared

/-- The record keys declared again in entries, or by them if `seen` are the keys before them. -/
def entryRedeclared (seen : List Text) (index : Nat) : List (EntryTree Tree) → List Text
  | [] => []
  | ⟨key, t⟩ :: es =>
    t.redeclared ++ (if keyAt index key ∈ seen then [keyAt index key] else []) ++
      entryRedeclared (keyAt index key :: seen) (nextIndex index key) es

def argumentRedeclared : List (ArgumentTree Tree) → List Text
  | [] => []
  | .type t :: as => t.redeclared ++ argumentRedeclared as
  | .bound _ :: as => argumentRedeclared as

end

/-! ## Single arguments

What the functions above give for one type argument, so that lists of them are read item by item. -/

namespace ArgumentTree

def tokens : ArgumentTree Tree → List Text
  | type t => t.tokens
  | bound word => [word]

def nesting : ArgumentTree Tree → Nat
  | type t => t.nesting
  | bound _ => 0

def WellFormed (bound : Text → Prop) : ArgumentTree Tree → Prop
  | type t => t.WellFormed bound
  | .bound word => bound word

def value : ArgumentTree Tree → TypeNode
  | type t => t.value
  | bound _ => .any

def redeclared : ArgumentTree Tree → List Text
  | type t => t.redeclared
  | bound _ => []

end ArgumentTree

section Arguments
variable (a : ArgumentTree Tree) (as : List (ArgumentTree Tree))

theorem argumentTokens_cons :
    argumentTokens (a :: as) = a.tokens ++ (tokenIf (!as.isEmpty) ',' ++ argumentTokens as) := by
  cases a <;> simp [argumentTokens, ArgumentTree.tokens]

theorem argumentNesting_cons : argumentNesting (a :: as) = max a.nesting (argumentNesting as) := by
  cases a <;> simp [argumentNesting, ArgumentTree.nesting]

theorem argumentsWellFormed_cons {bound : Text → Prop} :
    ArgumentsWellFormed bound (a :: as) ↔ a.WellFormed bound ∧ ArgumentsWellFormed bound as := by
  cases a <;> simp [ArgumentsWellFormed, ArgumentTree.WellFormed]

theorem argumentValues_cons : argumentValues (a :: as) = a.value :: argumentValues as := by
  cases a <;> simp [argumentValues, ArgumentTree.value]

theorem argumentRedeclared_cons :
    argumentRedeclared (a :: as) = a.redeclared ++ argumentRedeclared as := by
  cases a <;> simp [argumentRedeclared, ArgumentTree.redeclared]

theorem length_argumentValues : (argumentValues as).length = as.length := by
  induction as with
  | nil => rfl
  | cons a as ih => rw [argumentValues_cons, List.length_cons, List.length_cons, ih]

end Arguments

/-! ## Texts -/

/-- The text `t` consists of the tokens, with blanks before any of them, and `rest`. -/
def Spells : List Text → (t rest : Text) → Prop
  | [], t, rest => t = rest
  | token :: tokens, t, rest => ∃ blanks following, (∀ c ∈ blanks, Text.isSpacing c = true) ∧
      t = blanks ++ (token ++ following) ∧ Spells tokens following rest

/-- The tree is a derivation of the text, with bounds that satisfy `bound`. Blanks may stand before
the first token and after the last one too. -/
structure Derives (bound : Text → Prop) (e : Tree) (t : Text) : Prop where
  wellFormed : e.WellFormed bound
  nesting_le : e.nesting ≤ maxNesting
  spells : ∃ rest, Spells e.tokens t rest ∧ ∀ c ∈ rest, Text.isSpacing c = true

end DeclGen.TypeExpr
