import DeclGen.Xml.Fault

/-!
# References in texts and attribute values

* `Xml.charOf` : the character of a numeric reference;
* `Xml.resolve` : the text of a reference;
* `Xml.unescape` : a text with its references resolved;
* `Xml.decodeText` : the content of an element, with CDATA sections copied as they are.
-/

namespace DeclGen.Xml

/-! ## Numeric references -/

/-- The value of a digit in bases up to sixteen. -/
def digitValue (c : Char) : Nat :=
  if c.isDigit then c.toNat - '0'.toNat
  else if 'a' ≤ c && c ≤ 'f' then c.toNat - 'a'.toNat + 10
  else if 'A' ≤ c && c ≤ 'F' then c.toNat - 'A'.toNat + 10
  else 16

/-- The number that digits denote, read after `n`; it has at most 32 bits. -/
def numberFrom (base : Nat) (n : Nat) : Text → Except NumberFault Nat
  | [] => .ok n
  | c :: t =>
    if base ≤ digitValue c then .error .invalidDigit
    else if 2 ^ 32 ≤ n * base + digitValue c then .error .tooLarge
    else numberFrom base (n * base + digitValue c) t

/-- The number that one or more digits denote. -/
def number (base : Nat) (t : Text) : Except NumberFault Nat :=
  if t = [] then .error .noDigits else numberFrom base 0 t

/-- Is the number a Unicode scalar value? -/
def isScalar (n : Nat) : Bool := n < 0xD800 || (0xDFFF < n && n < 0x110000)

/-- The code of a numeric reference. -/
def codeOf (base : Nat) (digits : Text) : Except ReferenceFault Nat :=
  if digits.head? = some '+' || digits.head? = some '-' then .error .signed
  else
    match number base digits with
    | .ok n => .ok n
    | .error fault => .error (.number fault)

/-- The character of a numeric reference, written after `&#`: hexadecimal after an `x`. -/
def charOf (t : Text) : Except ReferenceFault Char := do
  let code ←
    match t with
    | 'x' :: digits => codeOf 16 digits
    | digits => codeOf 10 digits
  if code = 0 then .error .zero
  else if isScalar code then return Char.ofNat code
  else .error (.noScalar code)

/-! ## References -/

/-- The five predefined entities. -/
def predefined : List (Text × Char) :=
  [("lt".toList, '<'), ("gt".toList, '>'), ("amp".toList, '&'), ("apos".toList, '\''),
    ("quot".toList, '"')]

/-- The character of a reference whose name, between `&` and `;`, starts at the offset `start`. -/
def resolve (start : Nat) (name : Text) : Except EscapeFault Char :=
  match name with
  | '#' :: digits =>
    match charOf digits with
    | .ok c => .ok c
    | .error fault => .error (.character fault)
  | name =>
    match predefined.lookup name with
    | some c => .ok c
    | none => .error (.unrecognized start (start + Text.size name) name)

/-- Resolves the references in the rest of a text of `total` bytes; `offset` is the offset of the
rest, and `pending` the offset and the reversed name of a reference that has begun. -/
def unescapeFrom (total : Nat) (offset : Nat) (pending : Option (Nat × Text)) :
    Text → Except EscapeFault Text
  | [] =>
    match pending with
    | none => .ok []
    | some (start, _) => .error (.unterminated start total)
  | c :: t =>
    match pending with
    | none =>
      if c = '&' then unescapeFrom total (offset + c.utf8Size) (some (offset, [])) t
      else do
        let rest ← unescapeFrom total (offset + c.utf8Size) none t
        return c :: rest
    | some (start, name) =>
      if c = '&' then .error (.unterminated start total)
      else if c = ';' then do
        let resolved ← resolve (start + 1) name.reverse
        let rest ← unescapeFrom total (offset + c.utf8Size) none t
        return resolved :: rest
      else unescapeFrom total (offset + c.utf8Size) (some (start, c :: name)) t

/-- A text with its references resolved. -/
def unescape (t : Text) : Except EscapeFault Text := unescapeFrom (Text.size t) 0 none t

/-! ## Element content -/

/-- Why the content of an element has no text. -/
inductive ContentFault where
  | escape (fault : EscapeFault)
  | unterminatedCData
  deriving DecidableEq, Repr

/-- The start of a CDATA section. -/
def cdataStart : Text := "<![CDATA[".toList

/-- The end of a CDATA section. -/
def cdataEnd : Text := "]]>".toList

/-- Resolves references, as a step of reading content. -/
def unescapePiece (t : Text) : Except ContentFault Text :=
  match unescape t with
  | .ok text => .ok text
  | .error fault => .error (.escape fault)

/-- Decodes content with at most `fuel` CDATA sections. -/
def decodeFrom : (fuel : Nat) → Text → Except ContentFault Text
  | 0, t => unescapePiece t
  | fuel + 1, t =>
    match Text.cut? cdataStart t with
    | none => unescapePiece t
    | some (before, body) => do
      let before ← unescapePiece before
      match Text.cut? cdataEnd body with
      | none => .error .unterminatedCData
      | some (verbatim, rest) =>
        let rest ← decodeFrom fuel rest
        return before ++ verbatim ++ rest

/-- The text of an element's content: references outside CDATA sections are resolved, each piece
between sections on its own, and the sections are copied. -/
def decodeText (t : Text) : Except ContentFault Text := decodeFrom t.length t

end DeclGen.Xml
