import DeclGen.TypeExpr.Words

/-!
# Reading type expressions

The grammar, with blanks allowed between any two tokens:

    type      ::= '?' type | union
    union     ::= suffixed ('|' member)*         member ::= ['?'] suffixed
    suffixed  ::= atom ('[' ']')*
    atom      ::= record | '(' type ')' | name | collection record | name '<' arguments '>'
    record    ::= '{' [entry (',' entry)* [',']] '}'
    entry     ::= [key ['?'] ':'] type
    arguments ::= argument (',' argument)*       argument ::= type | integer

The readers are stacked: `Level` holds the readers of one nesting depth, `layer` builds a depth over
the readers of the next deeper one, and `level n` admits `n` nestings. So no reader calls itself,
and the loops inside one depth are bounded by the text that is left.

* `Malformed` : why and where reading gave up;
* `Parsed` : a value, the record keys that were declared again, and the text that is left;
* `parseRoot` : reads a whole type expression.
-/

namespace DeclGen.TypeExpr

/-- Why a type expression cannot be read. -/
inductive Reason where
  | emptyText
  | trailingInput
  | missingBracket
  | missingParenthesis
  | missingType
  | endOfText
  | tooManyArguments
  | missingEntryEnd
  | missingArgumentEnd
  | tooDeep
  deriving DecidableEq, Repr

/-- The wording of a reason. -/
def Reason.message : Reason → Text
  | emptyText => "empty annotation".toList
  | trailingInput => "unexpected trailing input".toList
  | missingBracket => "expected ']'".toList
  | missingParenthesis => "expected ')'".toList
  | missingType => "expected a type".toList
  | endOfText => "unexpected end of annotation".toList
  | tooManyArguments => "too many type arguments".toList
  | missingEntryEnd => "expected ',' or '\x7d'".toList
  | missingArgumentEnd => "expected ',' or '>'".toList
  | tooDeep => "nesting too deep".toList

/-- Reading gave up for `reason`, with `rest` left. -/
structure Malformed where
  reason : Reason
  rest : Text
  deriving DecidableEq, Repr

/-- A value that was read. -/
structure Parsed (α : Type) where
  value : α
  /-- The record keys declared again, in the order in which the later entries end. -/
  redeclared : List Text
  /-- The text that is left. -/
  rest : Text

/-- Reads a type at the start of a text. -/
abbrev Reader := Text → Except Malformed (Parsed TypeNode)

/-- The readers of one nesting depth. -/
structure Level where
  /-- Reads a type. -/
  type : Reader
  /-- Reads an atom with its `[]` suffixes. -/
  suffixed : Reader

/-- Goes one depth down, unless there is none left. -/
def deeper (inner : Option Level) (read : Level → Reader) : Reader := fun t =>
  match inner with
  | none => .error ⟨.tooDeep, t⟩
  | some level => read level t

/-- Applies `f` to the value. -/
def Parsed.map {α β : Type} (f : α → β) (p : Parsed α) : Parsed β :=
  ⟨f p.value, p.redeclared, p.rest⟩

/-! ## Records -/

/-- Declares an entry: a key that is there already keeps its place and takes the new type. The flag
tells whether it was there. -/
def declare (entry : RecordEntry TypeNode) :
    List (RecordEntry TypeNode) → List (RecordEntry TypeNode) × Bool
  | [] => ([entry], false)
  | e :: es =>
    if e.key = entry.key then (entry :: es, true)
    else
      let (rest, again) := declare entry es
      (e :: rest, again)

/-- Reads one entry. An entry without a key takes its rank among those, `index`, for a key; the
second component is the rank of the next one. -/
def entry (inner : Level) (index : Nat) (t : Text) :
    Except Malformed (Parsed (RecordEntry TypeNode × Nat)) :=
  match entryKey? t with
  | some (key, optional, rest) => do
    let type ← inner.type rest
    return type.map fun type => (⟨key, type, optional⟩, index)
  | none => do
    let type ← inner.type t
    return type.map fun type => (⟨Text.ofNat index, type, false⟩, index + 1)

/-- Reads entries up to the closing brace, adding them to `declared`; `fuel` exceeds the length of
the text. -/
def entries (inner : Level) : (fuel : Nat) → (index : Nat) → List (RecordEntry TypeNode) → Text →
    Except Malformed (Parsed (List (RecordEntry TypeNode)))
  | 0, _, _, t => .error ⟨.missingEntryEnd, t⟩
  | fuel + 1, index, declared, t =>
    match Text.skipSpacing t with
    | '}' :: rest => .ok ⟨declared, [], rest⟩
    | t => do
      let next ← entry inner index t
      let (entry, index) := next.value
      let (declared, again) := declare entry declared
      let redeclared := next.redeclared ++ if again then [entry.key] else []
      match Text.skipSpacing next.rest with
      | ',' :: rest =>
        let more ← entries inner fuel index declared rest
        return { more with redeclared := redeclared ++ more.redeclared }
      | '}' :: rest => return ⟨declared, redeclared, rest⟩
      | rest => .error ⟨.missingEntryEnd, rest⟩

/-- Reads a record; the text starts with its brace. -/
def record (inner : Level) : Reader := fun t => do
  let found ← entries inner (t.length + 1) 0 [] t.tail
  return found.map .record

/-! ## Type arguments -/

/-- Reads a type argument; the bounds of integer ranges count as `any`. -/
def argument (inner : Level) : Reader := fun t =>
  match Text.skipSpacing t with
  | c :: rest =>
    if c = '-' || c.isDigit then .ok ⟨.any, [], rest.dropWhile Char.isDigit⟩
    else inner.type (c :: rest)
  | [] => inner.type []

/-- Reads type arguments up to the closing angle; `fuel` exceeds the length of the text. -/
def arguments (inner : Level) : (fuel : Nat) → Text → Except Malformed (Parsed (List TypeNode))
  | 0, t => .error ⟨.missingArgumentEnd, t⟩
  | fuel + 1, t => do
    let first ← argument inner t
    match Text.skipSpacing first.rest with
    | ',' :: rest =>
      let more ← arguments inner fuel rest
      return ⟨first.value :: more.value, first.redeclared ++ more.redeclared, more.rest⟩
    | '>' :: rest => return ⟨[first.value], first.redeclared, rest⟩
    | rest => .error ⟨.missingArgumentEnd, rest⟩

/-- Reads a name that type arguments follow; the text starts with their angle. The arguments of a
name that is no collection are dropped. -/
def applied (name : Text) (inner : Level) : Reader := fun t => do
  let args ← arguments inner (t.length + 1) t.tail
  if isCollection name then
    match collectionOf? args.value with
    | some type => return args.map fun _ => type
    | none => .error ⟨.tooManyArguments, args.rest⟩
  else return args.map fun _ => resolveName name

/-! ## Atoms, suffixes, unions -/

/-- Reads what may follow a name. -/
def afterName (inner : Option Level) (name : Text) : Reader := fun t =>
  match Text.skipSpacing t with
  | '{' :: rest =>
    if takesShape name then deeper inner record ('{' :: rest) else .ok ⟨plainName name, [], t⟩
  | '<' :: rest => deeper inner (applied name) ('<' :: rest)
  | _ => .ok ⟨plainName name, [], t⟩

/-- Reads a type in parentheses, after the opening one. -/
def parenthesized (inner : Option Level) : Reader := fun t => do
  let found ← deeper inner Level.type t
  match Text.skipSpacing found.rest with
  | ')' :: rest => return { found with rest }
  | rest => .error ⟨.missingParenthesis, rest⟩

/-- Reads an atom. -/
def atom (inner : Option Level) : Reader := fun t =>
  match Text.skipSpacing t with
  | [] => .error ⟨.endOfText, []⟩
  | '{' :: rest => deeper inner record ('{' :: rest)
  | '(' :: rest => parenthesized inner rest
  | c :: rest =>
    if isNameStart c then
      afterName inner ((c :: rest).takeWhile inName) ((c :: rest).dropWhile inName)
    else .error ⟨.missingType, c :: rest⟩

/-- Reads the `[]` suffixes after a type; `fuel` is at least the length of the text that is left. -/
def suffixes : (fuel : Nat) → Parsed TypeNode → Except Malformed (Parsed TypeNode)
  | 0, found => .ok found
  | fuel + 1, found =>
    match Text.skipSpacing found.rest with
    | '[' :: rest =>
      match Text.skipSpacing rest with
      | ']' :: rest => suffixes fuel ⟨.array found.value, found.redeclared, rest⟩
      | rest => .error ⟨.missingBracket, rest⟩
    | _ => .ok found

/-- Reads an atom with its suffixes. -/
def suffixed (inner : Option Level) : Reader := fun t => do
  let found ← atom inner t
  suffixes found.rest.length found

/-- Reads a member of a union after its bar. -/
def member (inner : Option Level) : Reader := fun t =>
  match Text.skipSpacing t with
  | '?' :: rest => do
    let found ← deeper inner Level.suffixed rest
    return found.map .nullable
  | t => suffixed inner t

/-- Reads the further members of a union, each after a bar; `fuel` is at least the length of the
text. -/
def members (inner : Option Level) : (fuel : Nat) → Text → Except Malformed (Parsed (List TypeNode))
  | fuel + 1, '|' :: rest => do
    let first ← member inner rest
    let more ← members inner fuel (Text.skipSpacing first.rest)
    return ⟨first.value :: more.value, first.redeclared ++ more.redeclared, more.rest⟩
  | _, t => .ok ⟨[], [], t⟩

/-- Reads a union, or a type without bars. -/
def union (inner : Option Level) : Reader := fun t => do
  let first ← suffixed inner t
  let rest := Text.skipSpacing first.rest
  let more ← members inner rest.length rest
  let value := if more.value.isEmpty then first.value else .union (first.value :: more.value)
  return ⟨value, first.redeclared ++ more.redeclared, more.rest⟩

/-- Reads a type. -/
def type (inner : Option Level) : Reader := fun t =>
  match Text.skipSpacing t with
  | '?' :: rest => do
    let found ← deeper inner Level.type rest
    return found.map .nullable
  | t => union inner t

/-! ## Nesting -/

/-- The readers of a depth, given those of the next deeper one. -/
def layer (inner : Option Level) : Level := ⟨type inner, suffixed inner⟩

/-- The readers that admit `n` nestings. -/
def level : Nat → Level
  | 0 => layer none
  | n + 1 => layer (some (level n))

/-- How deeply prefixes, records, parentheses and type arguments may be nested. -/
def maxNesting : Nat := 64

/-- Reads a whole type expression. -/
def parseRoot (t : Text) : Except Malformed (Parsed TypeNode) :=
  match Text.skipSpacing t with
  | [] => .error ⟨.emptyText, []⟩
  | t => do
    let found ← (level maxNesting).type t
    match Text.skipSpacing found.rest with
    | [] => return { found with rest := [] }
    | rest => .error ⟨.trailingInput, rest⟩

end DeclGen.TypeExpr
