import DeclGen.Proofs.Text.Bytes
import DeclGen.TypeExpr.Diagnosis

/-!
# Reading type expressions byte by byte

The readers of type expressions need no more than a cursor: an offset into the text, the count of the nestings that
are open, and the record keys declared again so far. They look at one byte at a time, go back where they looked too
far, and cut names and keys out of the text by their offsets. A cut inside of a character fails; each call of a reader
and each turn of a loop is paid with one unit of fuel.

* `Cursor`, `Stop`, `Reading` : what a reading holds, why it stops, and steps that move a cursor;
* `peek`, `eat`, `skip`, `word`, `entryKey` : bytes, words and keys of entries;
* `Turn`, `loop` : loops, turn by turn;
* `Readers` : the readers that call one another; `Readers.next` : each over those with one call less; `readers` : those
  that may make so many calls;
* `root`, `diagnose` : reading a whole type expression.
-/

namespace DeclGen.TypeExpr.Bytewise
open Text (bytes isSpacing)

/-- What a reading holds beside the text. -/
structure Cursor where
  /-- The offset of the byte that comes next. -/
  pos : Nat
  /-- How many nestings are open. -/
  nesting : Nat
  /-- The record keys declared again, in the order in which the later entries end. -/
  redeclared : List Text
  deriving DecidableEq, Repr

/-- Why a reading stops without a value. -/
inductive Stop where
  /-- The text goes on with something else at the offset `position`. -/
  | malformed (position : Nat) (reason : Reason)
  /-- A reader is called where the mark that it starts with does not stand. -/
  | misplaced (position : Nat) (mark : Char)
  /-- A part of the text was cut out at an offset inside of a character, or beyond the end. -/
  | torn
  /-- The fuel is used up. -/
  | exhausted
  deriving DecidableEq, Repr

/-- Moves a cursor to give a value. The cursor is there, too, when it stops. -/
structure Reading (α : Type) where
  run : Cursor → Except Stop α × Cursor

variable {α β σ : Type}

instance : Monad Reading where
  pure a := ⟨fun c => (.ok a, c)⟩
  bind x f := ⟨fun c =>
    match x.run c with
    | (.ok a, c) => (f a).run c
    | (.error why, c) => (.error why, c)⟩

/-! ## Steps -/

def position : Reading Nat := ⟨fun c => (.ok c.pos, c)⟩

def moveTo (pos : Nat) : Reading Unit := ⟨fun c => (.ok (), { c with pos })⟩

def bump : Reading Unit := ⟨fun c => (.ok (), { c with pos := c.pos + 1 })⟩

/-- Takes down keys that were declared again. -/
def note (keys : List Text) : Reading Unit := ⟨fun c => (.ok (), { c with redeclared := c.redeclared ++ keys })⟩

def stop (why : Stop) : Reading α := ⟨fun c => (.error why, c)⟩

def malformed (reason : Reason) : Reading α := ⟨fun c => (.error (.malformed c.pos reason), c)⟩

def misplaced (mark : Char) : Reading α := ⟨fun c => (.error (.misplaced c.pos mark), c)⟩

/-- Reads with one more nesting open, unless there are too many. -/
def nested (read : Reading α) : Reading α := ⟨fun c =>
  if maxNesting ≤ c.nesting then (malformed .tooDeep).run c
  else
    match read.run { c with nesting := c.nesting + 1 } with
    | (result, c) => (result, { c with nesting := c.nesting - 1 })⟩

/-- What a turn of a loop comes to: another turn, or the end of the loop. -/
inductive Turn (σ α : Type) where
  | again (state : σ)
  | done (value : α)

/-- Takes turns to the end of the loop. -/
def loop (turn : σ → Reading (Turn σ α)) : (fuel : Nat) → σ → Reading α
  | 0, _ => stop .exhausted
  | fuel + 1, state => do
    match ← turn state with
    | .again state => loop turn fuel state
    | .done value => return value

section Source
variable (src : Text)

/-- The next byte, as the character of its code. -/
def peek : Reading (Option Char) := ⟨fun c =>
  (.ok ((bytes src)[c.pos]?.map Char.ofUInt8), c)⟩

/-- Moves over the character, if it comes next. -/
def eat (d : Char) : Reading Bool := do
  if (← peek src) = some d then
    bump
    return true
  else return false

/-- Moves over bytes one by one as long as they are of the class. -/
def skip (p : Char → Bool) : Reading Unit := ⟨fun c =>
  (.ok (), { c with pos := c.pos + (((bytes src).drop c.pos).takeWhile fun b => p (Char.ofUInt8 b)).length })⟩

/-- The part of the text between two offsets. -/
def slice (start stop : Nat) : Reading Text := ⟨fun c =>
  match Text.between? start stop src with
  | some part => (.ok part, c)
  | none => (.error .torn, c)⟩

/-- Reads a word of a class. -/
def word (p : Char → Bool) : Reading Text := do
  let start ← position
  skip src p
  slice src start (← position)

/-! ## Keys of record entries -/

/-- Reads a key, quoted or bare, or stays where it is. -/
def key : Reading (Option Text) := do
  let start ← position
  match ← peek src with
  | none => return none
  | some c =>
    if c = '\'' || c = '"' then
      bump
      let name ← word src (· != c)
      if ← eat src c then return some name
      else
        moveTo start
        return none
    else if inKey c then
      let name ← word src inKey
      return some name
    else return none

/-- Reads the key of an entry with its colon: the key, and whether it may be absent. Without a colon it goes back. -/
def entryKey : Reading (Option (Text × Bool)) := do
  let start ← position
  match ← key src with
  | none => return none
  | some name =>
    skip src isSpacing
    let optional ← eat src '?'
    skip src isSpacing
    if ← eat src ':' then return some (name, optional)
    else
      moveTo start
      return none

/-! ## Readers -/

/-- The readers that call one another. -/
structure Readers where
  type : Reading TypeNode
  union : Reading TypeNode
  member : Reading TypeNode
  suffixed : Reading TypeNode
  atom : Reading TypeNode
  afterName : Text → Reading TypeNode
  record : Reading TypeNode
  arguments : Reading (List TypeNode)
  argument : Reading TypeNode

namespace Readers
variable (r : Readers)

/-- `?` type, or a union. -/
def typeStep : Reading TypeNode := do
  skip src isSpacing
  if ← eat src '?' then
    let inner ← nested r.type
    return inner.nullable
  else r.union

/-- A bar and a member. -/
def memberTurn (members : List TypeNode) : Reading (Turn (List TypeNode) (List TypeNode)) := do
  if ← eat src '|' then
    let next ← r.member
    skip src isSpacing
    return .again (members ++ [next])
  else return .done members

/-- Members with bars between them. -/
def unionStep (fuel : Nat) : Reading TypeNode := do
  let first ← r.suffixed
  skip src isSpacing
  if (← peek src) = some '|' then
    let members ← loop (r.memberTurn src) fuel [first]
    return .union members
  else return first

/-- A member of a union, perhaps with a `?`. -/
def memberStep : Reading TypeNode := do
  skip src isSpacing
  if ← eat src '?' then
    let inner ← nested r.suffixed
    return inner.nullable
  else r.suffixed

/-- A suffix. -/
def suffixTurn (node : TypeNode) : Reading (Turn TypeNode TypeNode) := do
  let start ← position
  skip src isSpacing
  if ← eat src '[' then
    skip src isSpacing
    if ← eat src ']' then return .again (.array node)
    else malformed .missingBracket
  else
    moveTo start
    return .done node

/-- An atom with its suffixes. -/
def suffixedStep (fuel : Nat) : Reading TypeNode := do
  let node ← r.atom
  loop (suffixTurn src) fuel node

/-- A record, a type in parentheses, or a name with what follows it. -/
def atomStep : Reading TypeNode := do
  skip src isSpacing
  match ← peek src with
  | none => malformed .endOfText
  | some c =>
    if c = '{' then nested r.record
    else if c = '(' then
      bump
      let inner ← nested r.type
      skip src isSpacing
      if ← eat src ')' then return inner
      else malformed .missingParenthesis
    else if isNameStart c then
      let name ← word src inName
      r.afterName name
    else malformed .missingType

/-- What may follow a name. -/
def afterNameStep (name : Text) : Reading TypeNode := do
  let start ← position
  skip src isSpacing
  let next ← peek src
  if next = some '{' ∧ takesShape name = true then nested r.record
  else if next = some '<' then
    let types ← nested r.arguments
    if isCollection name then
      match collectionOf? types with
      | some type => return type
      | none => malformed .tooManyArguments
    else return resolveName name
  else
    moveTo start
    return plainName name

/-- An entry; those without a key count from `index`. -/
def entry (index : Nat) : Reading (RecordEntry TypeNode × Nat) := do
  match ← entryKey src with
  | some (name, optional) =>
    let type ← r.type
    return (⟨name, type, optional⟩, index)
  | none =>
    let type ← r.type
    return (⟨Text.ofNat index, type, false⟩, index + 1)

/-- The closing brace, or an entry and a comma. The state is what was declared and the count of entries without a
key. -/
def entryTurn (state : List (RecordEntry TypeNode) × Nat) :
    Reading (Turn (List (RecordEntry TypeNode) × Nat) (List (RecordEntry TypeNode))) := do
  skip src isSpacing
  if ← eat src '}' then return .done state.1
  else
    let (entry, index) ← r.entry src state.2
    let (declared, again) := declare entry state.1
    note (if again then [entry.key] else [])
    skip src isSpacing
    if ← eat src ',' then return .again (declared, index)
    else if ← eat src '}' then return .done declared
    else malformed .missingEntryEnd

/-- A record. -/
def recordStep (fuel : Nat) : Reading TypeNode := do
  if ← eat src '{' then
    let entries ← loop (r.entryTurn src) fuel ([], 0)
    return .record entries
  else misplaced '{'

/-- A comma and an argument, or the closing angle. -/
def argumentTurn (types : List TypeNode) : Reading (Turn (List TypeNode) (List TypeNode)) := do
  skip src isSpacing
  if ← eat src ',' then
    let next ← r.argument
    return .again (types ++ [next])
  else if ← eat src '>' then return .done types
  else malformed .missingArgumentEnd

/-- Type arguments. -/
def argumentsStep (fuel : Nat) : Reading (List TypeNode) := do
  if ← eat src '<' then
    let first ← r.argument
    loop (r.argumentTurn src) fuel [first]
  else misplaced '<'

/-- A type argument; the bounds of integer ranges count as `any`. -/
def argumentStep : Reading TypeNode := do
  skip src isSpacing
  match ← peek src with
  | none => r.type
  | some c =>
    if c = '-' || c.isDigit then
      bump
      skip src Char.isDigit
      return .any
    else r.type

/-- The readers over those with one call less. -/
def next (fuel : Nat) : Readers where
  type := r.typeStep src
  union := r.unionStep src fuel
  member := r.memberStep src
  suffixed := r.suffixedStep src fuel
  atom := r.atomStep src
  afterName := r.afterNameStep src
  record := r.recordStep src fuel
  arguments := r.argumentsStep src fuel
  argument := r.argumentStep src

end Readers

/-- The readers that make at most `fuel` calls inside one another, and as many turns in a loop. -/
def readers : (fuel : Nat) → Readers
  | 0 =>
    { type := stop .exhausted, union := stop .exhausted, member := stop .exhausted, suffixed := stop .exhausted,
      atom := stop .exhausted, afterName := fun _ => stop .exhausted, record := stop .exhausted,
      arguments := stop .exhausted, argument := stop .exhausted }
  | fuel + 1 => (readers fuel).next src fuel

/-! ## Whole texts -/

/-- Reads a whole type expression. -/
def root (fuel : Nat) : Reading TypeNode := do
  skip src isSpacing
  if (← peek src) = none then malformed .emptyText
  else
    let type ← (readers src fuel).type
    skip src isSpacing
    if (← peek src) = none then return type
    else malformed .trailingInput

/-- The type of a type expression with its warnings, if neither the fuel is used up nor a character torn. -/
def diagnose (fuel : Nat) : Option Diagnosis :=
  match (root src fuel).run ⟨0, 0, []⟩ with
  | (.ok type, c) => some ⟨type, c.redeclared.map .duplicateKey⟩
  | (.error (.malformed position reason), _) => some ⟨.any, [.malformed src position reason]⟩
  | (.error _, _) => none

end Source

end DeclGen.TypeExpr.Bytewise
