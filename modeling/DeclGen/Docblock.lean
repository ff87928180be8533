import DeclGen.Text.Alphanumeric
import DeclGen.Text.Blank

/-!
# Documentation blocks

A documentation block is the text of a comment: `/**`, lines that may start with asterisks, `*/`.
It holds prose and tags; `@var` and `@param` are followed by type expressions.

* `Docblock.clean` : the prose, one line each;
* `Docblock.scanType` : the type expression at the start of a text, brackets matched;
* `Docblock.varType` : the type expression after `@var`;
* `Docblock.paramType` : the type expression of a parameter.
-/

namespace DeclGen.Docblock

/-! ## Prose -/

/-- Drops the given end of a line, if the line ends so. -/
def dropEnd (ending line : Text) : Text :=
  if ending.isSuffixOf line then line.take (line.length - ending.length) else line

/-- Drops the given start of a line, if the line starts so. -/
def dropStart (start line : Text) : Text := (Text.after? start line).getD line

/-- A line without the marks of the comment. -/
def cleanLine (line : Text) : Text :=
  let body := dropEnd "*/".toList (dropStart "/**".toList (Text.trim line))
  Text.trim (body.dropWhile (· = '*'))

/-- The tags whose lines belong to the prose. -/
def preservedTags : List Text :=
  ["@deprecated".toList, "@see".toList, "@link".toList, "@example".toList]

/-- Does the line start with a preserved tag, followed by a blank or nothing? -/
def isPreserved (line : Text) : Bool :=
  preservedTags.any fun tag =>
    match Text.after? tag line with
    | some [] => true
    | some (c :: _) => Text.isBlank c
    | none => false

/-- Does the line belong to the prose? Empty lines and the lines of most tags do not. -/
def isProse (line : Text) : Bool :=
  match line with
  | [] => false
  | '@' :: _ => isPreserved line
  | _ => true

/-- The lines of the prose. -/
def proseLines (raw : Text) : List Text := ((Text.lines raw).map cleanLine).filter isProse

/-- The prose, if there is any. -/
def clean (raw : Text) : Option Text :=
  match proseLines raw with
  | [] => none
  | lines => some (List.intercalate ['\n'] lines)

/-! ## Type expressions -/

/-- What to do with blanks while a type expression is read. -/
inductive Mode where
  /-- Nothing is pending. -/
  | reading
  /-- A line break inside brackets was read: the blanks and asterisks that follow belong to it. -/
  | folding
  /-- Blanks beside a bar are dropped. -/
  | joining
  deriving DecidableEq

/-- A type expression that was read, the number of brackets left open, and the text after it. -/
structure Scan where
  taken : Text
  depth : Nat
  rest : Text
  deriving DecidableEq, Repr

/-- Puts a character before what was read. -/
def Scan.push (c : Char) (s : Scan) : Scan := { s with taken := c :: s.taken }

/-- Does the character continue a line break inside brackets? The end of the comment does not. -/
def continuesBreak (c : Char) (t : Text) : Bool :=
  Text.isSpacing c || (c = '*' && t.head? != some '/')

/-- Do the blanks at the start of `t` stand beside a bar, so that the expression goes on? -/
def joinsBar (afterBar : Bool) (t : Text) : Bool :=
  let next := Text.trimStart t
  (afterBar || next.head? = some '|') && !"*/".toList.isPrefixOf next

/-- Reads a type expression inside `depth` brackets; `afterBar` tells that the last character taken
is a bar. Outside brackets it ends at a blank that is not beside a bar, at `$` and at the end of the
comment; inside, a line break is taken as one space. -/
def scan (mode : Mode) (depth : Nat) (afterBar : Bool) : Text → Scan
  | [] => ⟨[], depth, []⟩
  | c :: t =>
    if mode = .folding && continuesBreak c t then scan .folding depth afterBar t
    else if mode = .joining && Text.isBlank c then scan .joining depth afterBar t
    else if c ∈ ['{', '<', '('] then (scan .reading (depth + 1) false t).push c
    else if c ∈ ['}', '>', ')'] then
      if depth = 0 then ⟨[], depth, c :: t⟩ else (scan .reading (depth - 1) false t).push c
    else if depth = 0 then
      if c = '$' || (c = '*' && t.head? = some '/') then ⟨[], depth, c :: t⟩
      else if Text.isSpacing c then
        if joinsBar afterBar (c :: t) then scan .joining depth afterBar t
        else ⟨[], depth, c :: t⟩
      else (scan .reading depth (c = '|') t).push c
    else if c = '\n' || c = '\r' then (scan .folding depth false t).push ' '
    else (scan .reading depth (c = '|') t).push c

/-- The type expression at the start of a text and what follows it, unless it is empty or its
brackets do not match. -/
def scanType (t : Text) : Option (Text × Text) :=
  let found := scan .reading 0 false (Text.trimStart t)
  let type := Text.trim found.taken
  if found.depth = 0 && type != [] then some (type, found.rest) else none

/-! ## Tags -/

/-- What follows each occurrence of the tag, if it is a blank. -/
def tagTails (tag : Text) : Text → List Text
  | [] => []
  | c :: t =>
    match Text.after? tag (c :: t) with
    | some (b :: rest) =>
      if Text.isBlank b then (b :: rest) :: tagTails tag t else tagTails tag t
    | _ => tagTails tag t

/-- The type expression after the first `@var` that one follows. -/
def varType (raw : Text) : Option Text :=
  (tagTails "@var".toList raw).findSome? fun rest => (scanType rest).map Prod.fst

/-- Does the character continue the name of a parameter? -/
def inParameter (c : Char) : Bool := Text.isAlphanumeric c || c = '_'

/-- Does the text start with a dollar sign and the whole name `param`? -/
def namesParameter (param : Text) : Text → Bool
  | '$' :: name =>
    match Text.after? param name with
    | some tail => !tail.head?.any inParameter
    | none => false
  | _ => false

/-- The type expression between the first `@param` and the parameter's name. -/
def paramType (raw param : Text) : Option Text :=
  (tagTails "@param".toList raw).findSome? fun rest =>
    match scanType rest with
    | some (type, after) => if namesParameter param (Text.trimStart after) then some type else none
    | none => none

end DeclGen.Docblock
