import DeclGen.Xml.Escape

/-!
# What is wrong with an entity document

* `DocumentError` : why a document has no entities;
* `DocumentError.message` : the wording;
* `DocumentError.causes` : the wordings of what lies behind it, the nearest first.
-/

namespace DeclGen

/-- Why a document has no entities. -/
inductive DocumentError where
  | markup (fault : Xml.Fault)
  | malformedAttribute (fault : Xml.AttributeFault)
  | escape (fault : Xml.EscapeFault)
  | missingAttribute (element key : Text)
  | invalidAttribute (element key value : Text)
  | noEntity
  | unterminatedEntity (name : Text)
  | unterminatedField (name : Text)
  /-- The content of an element does not start or end between two characters. -/
  | contentOutOfRange
  | unterminatedCData
  deriving DecidableEq, Repr

namespace DocumentError

/-- The wording for a document of the wrong shape. -/
def misshapen (what : Text) : Text := "invalid entity document: ".toList ++ what

/-- The wording for what is wrong with a document. -/
def message : DocumentError → Text
  | markup fault => "XML parsing error: ".toList ++ fault.message
  | malformedAttribute fault => "XML attribute error: ".toList ++ fault.message
  | escape fault => "XML escape error: ".toList ++ fault.message
  | missingAttribute element key =>
    "missing required attribute '".toList ++ key ++ "' on element '".toList ++ element ++
      ['\'']
  | invalidAttribute element key value =>
    "invalid value '".toList ++ value ++ "' for attribute '".toList ++ key ++
      "' on element '".toList ++ element ++ ['\'']
  | noEntity => misshapen "no entity element found".toList
  | unterminatedEntity name => misshapen ("unterminated entity '".toList ++ name ++ ['\''])
  | unterminatedField name => misshapen ("unterminated field '".toList ++ name ++ ['\''])
  | contentOutOfRange => misshapen "element content out of range".toList
  | unterminatedCData => misshapen "unterminated CDATA section".toList

/-- The wordings of what lies behind the error, the nearest first. -/
def causes : DocumentError → List Text
  | markup fault => [fault.message, fault.detail]
  | malformedAttribute fault => [fault.message]
  | escape fault => fault.message :: fault.causes
  | _ => []

end DocumentError

end DeclGen
