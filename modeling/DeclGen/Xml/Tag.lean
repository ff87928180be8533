import DeclGen.Xml.Fault

/-!
# Tags and their attributes

The content of a tag is what stands between its angles: a name, then attributes.

* `Xml.isSpace` : the blanks of the markup;
* `Xml.tagName`, `Xml.localName` : the name of a tag, with and without what precedes a colon;
* `Xml.attributes` : the attributes from left to right, up to one that cannot be read.
-/

namespace DeclGen.Xml

/-- Space, carriage return, line feed and tab. -/
def isSpace (c : Char) : Bool := c = ' ' || c = '\r' || c = '\n' || c = '\t'

/-- The name at the start of a tag's content. -/
def tagName (content : Text) : Text := content.takeWhile (!isSpace ·)

/-- What follows the first colon of a name: all of it if there is none. -/
def localName (name : Text) : Text :=
  match name.dropWhile (· != ':') with
  | [] => name
  | _ :: rest => rest

/-! ## Attributes -/

/-- A key and its value, references not resolved. -/
abbrev Attribute := Text × Text

/-- Does the character end a key? -/
def endsKey (c : Char) : Bool := c = '=' || isSpace c

/-- Is the character a quote? -/
def isQuote (c : Char) : Bool := c = '"' || c = '\''

/-- Reads the value after an equals sign: the value and what follows its closing quote. Offsets are
counted in a content of `total` bytes. -/
def attributeValue (total : Nat) (t : Text) : Except AttributeFault (Text × Text) :=
  match t.dropWhile isSpace with
  | [] => .error (.expectedValue total)
  | q :: t =>
    if isQuote q then
      match t.dropWhile (· != q) with
      | [] => .error (.missingQuote total q)
      | _ :: rest => .ok (t.takeWhile (· != q), rest)
    else .error (.unquotedValue (total - Text.size (q :: t)))

/-- Reads attributes from the rest of a content of `total` bytes; `seen` are the keys before it with
their offsets, and `fuel` is at least the length of the rest. A key has at least one character,
whatever that is. -/
def attributesFrom (total : Nat) : (fuel : Nat) → (seen : List (Text × Nat)) → Text →
    List (Except AttributeFault Attribute)
  | 0, _, _ => []
  | fuel + 1, seen, t =>
    match t.dropWhile isSpace with
    | [] => []
    | c :: t =>
      let start := total - Text.size (c :: t)
      let key := c :: t.takeWhile (!endsKey ·)
      match (t.dropWhile (!endsKey ·)).dropWhile isSpace with
      | [] => [.error (.expectedEquals total)]
      | d :: rest =>
        if d = '=' then
          match seen.lookup key with
          | some previous => [.error (.duplicated start previous)]
          | none =>
            match attributeValue total rest with
            | .error fault => [.error fault]
            | .ok (value, rest) =>
              .ok (key, value) :: attributesFrom total fuel ((key, start) :: seen) rest
        else [.error (.expectedEquals (total - Text.size (d :: rest)))]

/-- The attributes of a tag, from left to right, up to one that cannot be read. -/
def attributes (content : Text) : List (Except AttributeFault Attribute) :=
  attributesFrom (Text.size content) content.length [] (content.dropWhile (!isSpace ·))

end DeclGen.Xml
