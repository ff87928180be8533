import DeclGen.Text.Alphanumeric
import DeclGen.Text.Blank

/-!
# Patterns for the values of fields

A field of a log filter may ask for values of a pattern, a regular expression:

    pattern ::= branch ('|' branch)*             branch ::= (piece | flags)*
    piece   ::= atom ('?' | '*' | '+')*
    atom    ::= character | escape | '.' | '^' | '$' | class | group
    group   ::= '(' ['?' ['P'] '<' name '>' | '?' flag* ':'] pattern ')'
    flags   ::= '(?' flag flag* ')'
    class   ::= '[' ['^'] item item* ']'         item ::= member ['-' member] | class | '&&' | ...

The first closing brace ends a field, so no pattern holds one, and no brace opens a count, a number
or a name in it. Patterns are compiled to automata over UTF-8 bytes without the tables of Unicode:
what needs a table, or could match a part of a character, is refused.

* `FieldPattern.Flags` : how the characters of a pattern are taken;
* `FieldPattern.Atom` : what a character or an escape stands for, and where it is admitted;
* `FieldPattern.afterClass?` : what follows a class;
* `FieldPattern.Reading`, `FieldPattern.step?` : how far a pattern is read, and one element more;
* `FieldPattern.isPattern` : is a text a pattern?
-/

namespace DeclGen.FieldPattern

/-! ## Flags -/

/-- How the characters of a pattern are taken. -/
structure Flags where
  /-- Letters stand for both cases. -/
  caseless : Bool
  /-- Characters are Unicode characters, not bytes. -/
  unicode : Bool
  /-- Blanks and comments between elements mean nothing. -/
  verbose : Bool
  deriving DecidableEq, Repr

/-- The flags at the start of a pattern. -/
def Flags.default : Flags := ⟨false, true, false⟩

/-- Sets or clears the flag of a letter; some letters make no difference to what is admitted. -/
def Flags.set (flags : Flags) (letter : Char) (value : Bool) : Flags :=
  if letter = 'i' then { flags with caseless := value }
  else if letter = 'u' then { flags with unicode := value }
  else if letter = 'x' then { flags with verbose := value }
  else flags

/-- Drops the blanks and the comments at the start of a text. A comment runs from a number sign to
the end of the line; the flag tells that one is open. -/
def skipRemarks (inComment : Bool) : Text → Text
  | [] => []
  | c :: t =>
    if inComment then skipRemarks (c != '\n') t
    else if Text.isBlank c then skipRemarks false t
    else if c = '#' then skipRemarks true t
    else c :: t

/-- Drops what means nothing at the start of a text. -/
def Flags.skip (flags : Flags) (t : Text) : Text :=
  if flags.verbose then skipRemarks false t else t

/-- Reads flag letters up to a colon or a closing parenthesis, which is left; `seen` are the
characters before, the last one first. A minus sign clears the flags after it. -/
def flags? (flags : Flags) (seen : List Char) : Text → Option (Flags × Text)
  | [] => none
  | c :: t =>
    if c = ':' || c = ')' then
      if seen.head? = some '-' then none else some (flags, c :: t)
    else if seen.contains c || !"-imsuxUR".toList.contains c then none
    else flags? (flags.set c (!seen.contains '-')) (c :: seen) t

/-! ## Atoms -/

/-- What a character or an escape stands for. -/
inductive Atom where
  | character (c : Char)
  /-- Any character but a line feed. -/
  | any
  /-- The digits, the blanks or the word characters, or all others. -/
  | category (negated : Bool)
  /-- The start or the end of a line or of the text. -/
  | edge
  /-- An edge of a word, or a place that is none. -/
  | wordEdge
  deriving DecidableEq, Repr

/-- Is the character one of ASCII? -/
def isAscii (c : Char) : Bool := c.toNat < 0x80

/-- May an ASCII character be taken with these flags? The other case of a Unicode character needs a
table. -/
def Flags.admitsAscii (flags : Flags) : Bool := !(flags.unicode && flags.caseless)

/-- Is the atom admitted as a member of a class? -/
def Atom.inClass (flags : Flags) : Atom → Bool
  | character c => flags.admitsAscii && (flags.unicode || isAscii c)
  | category negated => !flags.unicode && !negated
  | _ => false

/-- The character that a number denotes. -/
def charOf? (n : Nat) : Option Char := if n.isValidChar then some (Char.ofNat n) else none

/-- The value of a hexadecimal digit. -/
def hexDigit? (c : Char) : Option Nat :=
  if c.isDigit then some (c.toNat - '0'.toNat)
  else if 'a' ≤ c && c ≤ 'f' then some (c.toNat - 'a'.toNat + 10)
  else if 'A' ≤ c && c ≤ 'F' then some (c.toNat - 'A'.toNat + 10)
  else none

/-- Reads `count` hexadecimal digits that follow `n`. -/
def hex? (flags : Flags) : (count n : Nat) → Text → Option (Nat × Text)
  | 0, n, t => some (n, t)
  | count + 1, n, t =>
    match flags.skip t with
    | [] => none
    | c :: t => do
      let digit ← hexDigit? c
      hex? flags count (16 * n + digit) t

/-- The control characters that have a letter. -/
def controls : List (Char × Char) :=
  [('a', '\x07'), ('f', '\x0c'), ('t', '\t'), ('n', '\n'), ('r', '\r'), ('v', '\x0b')]

/-- How many digits the number of a character has after a letter. -/
def digitsAfter? (c : Char) : Option Nat :=
  if c = 'x' then some 2 else if c = 'u' then some 4 else if c = 'U' then some 8 else none

/-- Reads an escape, after its backslash. -/
def escape? (flags : Flags) : Text → Option (Atom × Text)
  | [] => none
  | c :: t =>
    match digitsAfter? c with
    | some count => do
      let (n, rest) ← hex? flags count 0 t
      let char ← charOf? n
      -- A byte alone is no character from 0x80 on.
      if !flags.unicode && count = 2 && 0x80 ≤ n then none else return (.character char, rest)
    | none =>
      match controls.lookup c with
      | some char => some (.character char, t)
      | none =>
        if "dsw".toList.contains c then some (.category false, t)
        else if "DSW".toList.contains c then some (.category true, t)
        else if c = 'A' || c = 'z' then some (.edge, t)
        else if "bB<>".toList.contains c then some (.wordEdge, t)
        else if isAscii c && !c.isAlphanum then some (.character c, t)
        else none

/-- Is the atom admitted outside classes? -/
def Atom.isAdmitted (flags : Flags) : Atom → Bool
  | character c => flags.admitsAscii && (flags.unicode || !flags.caseless || isAscii c)
  | any => flags.unicode
  | category negated => !flags.unicode && !negated
  | edge => true
  | wordEdge => !flags.unicode

/-! ## Classes -/

/-- The names of the ASCII classes. -/
def asciiClasses : List Text :=
  ["alnum".toList, "alpha".toList, "ascii".toList, "blank".toList, "cntrl".toList, "digit".toList,
    "graph".toList, "lower".toList, "print".toList, "punct".toList, "space".toList, "upper".toList,
    "word".toList, "xdigit".toList]

/-- Reads the name of an ASCII class, after its opening bracket; the flag tells that a caret negates
the class. -/
def asciiClass? (t : Text) : Option (Bool × Text) :=
  match t with
  | ':' :: t =>
    let negated := t.head? = some '^'
    let t := if negated then t.tail else t
    match t.dropWhile (· != ':') with
    | ':' :: ']' :: rest =>
      if asciiClasses.contains (t.takeWhile (· != ':')) then some (negated, rest) else none
    | _ => none
  | _ => none

/-- Reads a member of a class. -/
def member? (flags : Flags) : Text → Option (Atom × Text)
  | [] => none
  | '\\' :: t => escape? flags t
  | c :: t => some (.character c, t)

/-- Reads a member of a class or a range of characters, and leaves what follows. -/
def item? (flags : Flags) (t : Text) : Option Text := do
  let (first, rest) ← member? flags t
  if !first.inClass flags then none
  match flags.skip rest with
  | [] => none
  | '-' :: rest =>
    match flags.skip rest with
    | [] => none
    | ']' :: _ => return '-' :: rest
    | '-' :: _ => return '-' :: rest
    | rest =>
      let (last, rest) ← member? flags rest
      match first, last with
      | .character a, .character b => if a ≤ b && last.inClass flags then some rest else none
      | _, _ => none
  | rest => return rest

/-- Where in a class an item stands. -/
inductive ItemPlace where
  /-- At the start, where a closing bracket stands for itself. -/
  | first
  /-- After nothing but minus signs, which stand for themselves there as well as at the start. -/
  | afterMinus
  | later
  deriving DecidableEq, Repr

/-- Reads the caret that negates a class, after its opening bracket. Without Unicode a class may not
be negated: it would have bytes that are no characters. -/
def classStart? (flags : Flags) (t : Text) : Option Text :=
  match flags.skip t with
  | '^' :: t => if flags.unicode then some t else none
  | t => some t

/-- What follows the closing bracket of a class, inside `depth` open classes of it; `fuel` exceeds
the length of the text. -/
def afterClass? (flags : Flags) : (fuel depth : Nat) → ItemPlace → Text → Option Text
  | 0, _, _, _ => none
  | fuel + 1, depth, place, t =>
    match flags.skip t with
    | [] => none
    | c :: t =>
      if c = '-' && place != .later then
        if flags.admitsAscii then afterClass? flags fuel depth .afterMinus t else none
      else if c = ']' && place = .first then
        if flags.admitsAscii then afterClass? flags fuel depth .later t else none
      else if c = ']' then
        match depth with
        | 0 => some t
        | depth + 1 => afterClass? flags fuel depth .later t
      else if c = '[' then
        match asciiClass? t with
        | some (negated, rest) =>
          if flags.admitsAscii && (flags.unicode || !negated) then
            afterClass? flags fuel depth .later rest
          else none
        | none => do
          let rest ← classStart? flags t
          afterClass? flags fuel (depth + 1) .first rest
      else if "&-~".toList.contains c && t.head? = some c then
        afterClass? flags fuel depth .later t.tail
      else do
        let rest ← item? flags (c :: t)
        afterClass? flags fuel depth .later rest

/-! ## Patterns -/

/-- How far a pattern is read. -/
structure Reading where
  flags : Flags
  /-- The flags around the open groups, the innermost first. -/
  outer : List Flags
  /-- Does something precede that can be repeated? -/
  repeatable : Bool
  /-- The names of the groups. -/
  names : List Text

/-- Nothing is read yet. -/
def Reading.start : Reading := ⟨.default, [], false, []⟩

/-- An atom was read. -/
def Reading.atom (r : Reading) : Reading := { r with repeatable := true }

/-- A group with the given flags was opened. -/
def Reading.opened (r : Reading) (flags : Flags) : Reading :=
  { r with flags, outer := r.flags :: r.outer, repeatable := false }

/-- Is the text a name of a group? -/
def isGroupName : Text → Bool
  | [] => false
  | c :: t =>
    (c = '_' || Text.isAlphanumeric c && !c.isDigit) &&
      t.all fun c => "_.[]".toList.contains c || Text.isAlphanumeric c

/-- Reads the name of a group and its closing angle. -/
def named? (r : Reading) (t : Text) : Option (Reading × Text) :=
  let name := t.takeWhile (· != '>')
  match t.dropWhile (· != '>') with
  | [] => none
  | _ :: rest =>
    if isGroupName name && !r.names.contains name then
      some ({ r.opened r.flags with names := name :: r.names }, rest)
    else none

/-- Reads the opening of a group, or flags, after the opening parenthesis. -/
def group? (r : Reading) (t : Text) : Option (Reading × Text) :=
  match r.flags.skip t with
  | '?' :: 'P' :: '<' :: t => named? r t
  | '?' :: '<' :: t => named? r t
  | '?' :: ')' :: _ => none
  | '?' :: t => do
    let (flags, rest) ← flags? r.flags [] t
    match rest with
    | ':' :: rest => return (r.opened flags, rest)
    | _ => return ({ r with flags, repeatable := false }, rest.tail)
  | t => some (r.opened r.flags, t)

/-- Reads an atom that is admitted. -/
def atom? (r : Reading) (atom : Atom) (rest : Text) : Option (Reading × Text) :=
  if atom.isAdmitted r.flags then some (r.atom, rest) else none

/-- Reads one element, whose first character is `c`. -/
def step? (r : Reading) (c : Char) (t : Text) : Option (Reading × Text) :=
  match c with
  | '(' => group? r t
  | ')' =>
    match r.outer with
    | [] => none
    | flags :: outer => some ({ r with flags, outer, repeatable := true }, t)
  | '|' => some ({ r with repeatable := false }, t)
  | '?' => if r.repeatable then some (r, t) else none
  | '*' => if r.repeatable then some (r, t) else none
  | '+' => if r.repeatable then some (r, t) else none
  | '{' => none
  | '[' => do
    let start ← classStart? r.flags t
    let rest ← afterClass? r.flags (start.length + 1) 0 .first start
    return (r.atom, rest)
  | '\\' => do
    let (atom, rest) ← escape? r.flags t
    atom? r atom rest
  | '.' => atom? r .any t
  | '^' => atom? r .edge t
  | '$' => atom? r .edge t
  | c => atom? r (.character c) t

/-- Is the rest of a pattern right? `fuel` exceeds the length of the text. -/
def acceptsFrom : (fuel : Nat) → Reading → Text → Bool
  | 0, _, _ => false
  | fuel + 1, r, t =>
    match r.flags.skip t with
    | [] => r.outer.isEmpty
    | c :: t =>
      match step? r c t with
      | none => false
      | some (r, rest) => acceptsFrom fuel r rest

/-- Is the text a pattern? -/
def isPattern (t : Text) : Bool := acceptsFrom (t.length + 1) .start t

end DeclGen.FieldPattern
