import DeclGen.Text.Basic

/-!
# What is wrong with a document's markup

* `Xml.Unclosed` : markup that has no end, or that starts like none;
* `Xml.IllFormed` : markup that does not fit together;
* `Xml.Fault` : either of them;
* `Xml.AttributeFault` : an attribute that cannot be read;
* `Xml.NumberFault`, `Xml.ReferenceFault`, `Xml.EscapeFault` : a reference that cannot be resolved;
* the function `message` of each type is its wording.
-/

namespace DeclGen.Xml

/-- Markup that has no end, or that starts like none. -/
inductive Unclosed where
  | unknownMarkup
  | instruction
  | declaration
  | comment
  | doctype
  | cdata
  | tag
  | singleQuoted
  | doubleQuoted
  deriving DecidableEq, Repr

/-- The wording for markup whose end `mark` is missing. -/
def missingEnd (what mark : Text) : Text :=
  what ++ " not closed: `".toList ++ mark ++ "` not found before end of input".toList

/-- The wording for markup without an end. -/
def Unclosed.message : Unclosed → Text
  | unknownMarkup => "unknown or missed symbol in markup".toList
  | instruction => missingEnd "processing instruction".toList "?>".toList
  | declaration => missingEnd "XML declaration".toList "?>".toList
  | comment => missingEnd "comment".toList "-->".toList
  | doctype => missingEnd "DOCTYPE".toList ">".toList
  | cdata => missingEnd "CDATA".toList "]]>".toList
  | tag => missingEnd "tag".toList ">".toList
  | singleQuoted => missingEnd "attribute value".toList "'".toList
  | doubleQuoted => missingEnd "attribute value".toList "\"".toList

/-- An end tag as the messages write it. -/
def endTag (name : Text) : Text := "`</".toList ++ name ++ ">`".toList

/-- Markup that does not fit together. -/
inductive IllFormed where
  | namelessDoctype
  /-- An element has no end tag. -/
  | missingEndTag (name : Text)
  /-- An end tag stands outside all elements. -/
  | unmatchedEndTag (name : Text)
  /-- An end tag is not that of the innermost element. -/
  | mismatchedEndTag (expected found : Text)
  | unclosedReference
  deriving DecidableEq, Repr

/-- The wording for markup that does not fit together. -/
def IllFormed.message : IllFormed → Text
  | namelessDoctype =>
    "`<!DOCTYPE>` declaration does not contain a name of a document type".toList
  | missingEndTag name =>
    "start tag not closed: ".toList ++ endTag name ++ " not found before end of input".toList
  | unmatchedEndTag name =>
    "close tag ".toList ++ endTag name ++ " does not match any open tag".toList
  | mismatchedEndTag expected found =>
    "expected ".toList ++ endTag expected ++ ", but ".toList ++ endTag found ++
      " was found".toList
  | unclosedReference => missingEnd "entity or character reference".toList ";".toList

/-- What is wrong with a document's markup. -/
inductive Fault where
  | unclosed (what : Unclosed)
  | illFormed (what : IllFormed)
  deriving DecidableEq, Repr

/-- The wording without the class of the fault. -/
def Fault.detail : Fault → Text
  | unclosed what => what.message
  | illFormed what => what.message

/-- The wording for a fault of the markup. -/
def Fault.message : Fault → Text
  | unclosed what => "syntax error: ".toList ++ what.message
  | illFormed what => "ill-formed document: ".toList ++ what.message

/-! ## Attributes -/

/-- An attribute that cannot be read; positions are byte offsets in the tag's content. -/
inductive AttributeFault where
  | expectedEquals (position : Nat)
  | expectedValue (position : Nat)
  | unquotedValue (position : Nat)
  | missingQuote (position : Nat) (quote : Char)
  | duplicated (position previous : Nat)
  deriving DecidableEq, Repr

/-- The wording for an attribute that cannot be read. -/
def AttributeFault.message : AttributeFault → Text
  | expectedEquals position =>
    "position ".toList ++ Text.ofNat position ++
      ": attribute key must be directly followed by `=` or space".toList
  | expectedValue position =>
    "position ".toList ++ Text.ofNat position ++
      ": `=` must be followed by an attribute value".toList
  | unquotedValue position =>
    "position ".toList ++ Text.ofNat position ++
      ": attribute value must be enclosed in `\"` or `'`".toList
  | missingQuote position quote =>
    "position ".toList ++ Text.ofNat position ++ ": missing closing quote `".toList ++
      quote :: "` in attribute value".toList
  | duplicated position previous =>
    "position ".toList ++ Text.ofNat position ++
      ": duplicated attribute, previous declaration at position ".toList ++ Text.ofNat previous

/-! ## References -/

/-- Digits that denote no number of 32 bits. -/
inductive NumberFault where
  | noDigits
  | invalidDigit
  | tooLarge
  deriving DecidableEq, Repr

/-- The wording for digits that denote no number. -/
def NumberFault.message : NumberFault → Text
  | noDigits => "cannot parse integer from empty string".toList
  | invalidDigit => "invalid digit found in string".toList
  | tooLarge => "number too large to fit in target type".toList

/-- A character reference that denotes no character. -/
inductive ReferenceFault where
  | signed
  | number (fault : NumberFault)
  | zero
  | noScalar (code : Nat)
  deriving DecidableEq, Repr

/-- The wording for a character reference that denotes no character. -/
def ReferenceFault.message : ReferenceFault → Text
  | signed => "unexpected number sign".toList
  | number fault => fault.message
  | zero => "0x0 character is not permitted in XML".toList
  | noScalar code => "`".toList ++ Text.ofNat code ++ "` is not a valid codepoint".toList

/-- A reference that cannot be resolved; ranges are byte offsets in the text with the reference. -/
inductive EscapeFault where
  | unterminated (start stop : Nat)
  | unrecognized (start stop : Nat) (name : Text)
  | character (fault : ReferenceFault)
  deriving DecidableEq, Repr

/-- A range of offsets as the messages write it. -/
def rangeText (start stop : Nat) : Text := Text.ofNat start ++ "..".toList ++ Text.ofNat stop

/-- The wording for a reference that cannot be resolved. -/
def EscapeFault.message : EscapeFault → Text
  | unterminated start stop =>
    "Error while escaping character at range ".toList ++ rangeText start stop ++
      ": Cannot find ';' after '&'".toList
  | unrecognized start stop name =>
    "at ".toList ++ rangeText start stop ++ ": unrecognized entity `".toList ++ name ++
      "`".toList
  | character fault => "invalid character reference: ".toList ++ fault.message

/-- The wordings of the faults behind this one, the nearest first. -/
def EscapeFault.causes : EscapeFault → List Text
  | character (.number fault) => [fault.message, fault.message]
  | character fault => [fault.message]
  | _ => []

end DeclGen.Xml
