import DeclGen.CommandLine.FieldPattern

/-!
# Log filters

A log filter is a list of directives between commas: a level, a target, or a target with a span and
fields, and a level after an equals sign.

* `LogFilter.isLevel` : is a text a level?
* `LogFilter.isNumber`, `LogFilter.isField` : is a text a number, or a field?
* `LogFilter.isDirective`, `LogFilter.isFilter` : is a text a directive, or a filter?
-/

namespace DeclGen.LogFilter

/-- The names of the levels. -/
def levels : List Text :=
  ["off".toList, "error".toList, "warn".toList, "info".toList, "debug".toList, "trace".toList]

/-- Is the text a level, by name in any case, or by number? -/
def isLevel (t : Text) : Bool :=
  let digits :=
    match t with
    | '+' :: digits => digits
    | digits => digits
  (Text.toNat? digits).any (· ≤ 5) || levels.contains (t.map Char.toLower)

/-! ## Fields -/

/-- Is the text a decimal number without a sign? The point may stand at either end of the digits, and
an exponent may follow. -/
def isDecimal (t : Text) : Bool :=
  let whole := t.takeWhile Char.isDigit
  let (fraction, rest) :=
    match t.dropWhile Char.isDigit with
    | '.' :: rest => (rest.takeWhile Char.isDigit, rest.dropWhile Char.isDigit)
    | rest => ([], rest)
  let exponent :=
    match rest with
    | [] => true
    | c :: digits => c.toLower = 'e' && (Text.toInt? digits).isSome
  (!whole.isEmpty || !fraction.isEmpty) && exponent

/-- The names of what is not finite. -/
def notFinite : List Text := ["inf".toList, "infinity".toList, "nan".toList]

/-- Is the text a number? -/
def isNumber (t : Text) : Bool :=
  let t :=
    match t with
    | '+' :: t => t
    | '-' :: t => t
    | t => t
  isDecimal t || notFinite.contains (t.map Char.toLower)

/-- Is the text a field: a name, or a name and a value? A second equals sign ends the value, and what
follows it does not count. -/
def isField (t : Text) : Bool :=
  match Text.split (· = '=') t with
  | _ :: value :: _ => isNumber value || FieldPattern.isPattern value
  | _ => !t.isEmpty

/-! ## Directives -/

/-- Where in a directive a character stands. -/
inductive Place where
  | start
  | levelOrTarget
  | span
  /-- In a field that starts at the given place. -/
  | field (start : Nat)
  | fields
  /-- After a span. -/
  | target
  deriving DecidableEq, Repr

/-- The characters a target may start with. -/
def startsTarget (c : Char) : Bool := c = '-' || c = ':' || c = '_' || Text.isAlphanumeric c

/-- Is what stands after `offset` bytes of a directive a level, or nothing? -/
def levelAfter (directive : Text) (offset : Nat) : Bool :=
  (Text.dropBytes? offset directive).any fun level => level.isEmpty || isLevel level

/-- Is the rest of a directive right? The blanks around it are dropped; `offset` bytes are read of
what is left, and its places are those of the fields and the level in the whole `directive`. -/
def acceptsFrom (directive : Text) (place : Place) (offset : Nat) : Text → Bool
  | [] => place = .levelOrTarget || place = .target
  | c :: t =>
    let next := offset + c.utf8Size
    match place with
    | .start =>
      if c = '[' then acceptsFrom directive .span next t
      else startsTarget c && acceptsFrom directive .levelOrTarget next t
    | .levelOrTarget =>
      if c = '=' then levelAfter directive next
      else if c = '[' then acceptsFrom directive .span next t
      else acceptsFrom directive .levelOrTarget next t
    | .span =>
      if c = ']' then acceptsFrom directive .target next t
      else if c = '{' then acceptsFrom directive (.field next) next t
      else acceptsFrom directive .span next t
    | .field start =>
      if c = '}' then
        (Text.slice? start offset directive).any isField && acceptsFrom directive .fields next t
      else acceptsFrom directive (.field start) next t
    | .fields => c = ']' && acceptsFrom directive .target next t
    | .target => c = '=' && levelAfter directive next

/-- Is the text a directive? -/
def isDirective (t : Text) : Bool := acceptsFrom t .start 0 (Text.trim t)

/-- Is the text a filter? Empty directives do not count. -/
def isFilter (t : Text) : Bool :=
  ((Text.split (· = ',') t).filter (· != [])).all isDirective

end DeclGen.LogFilter
