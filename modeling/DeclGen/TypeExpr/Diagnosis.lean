import DeclGen.TypeExpr.Parser

/-!
# The type of a type expression

Every type expression has a type: one that cannot be read means `any`, and a warning tells where reading
gave up.

* `TypeExpr.Warning` : what is odd about a type expression, `Warning.message` its wording;
* `TypeExpr.diagnose` : the type and the warnings;
* `TypeExpr.parse` : the type alone.
-/

namespace DeclGen.TypeExpr

/-- What is odd about a type expression. -/
inductive Warning where
  /-- A record declares `key` again; the later entry counts. -/
  | duplicateKey (key : Text)
  /-- Reading `input` gave up at the byte offset `position`. -/
  | malformed (input : Text) (position : Nat) (reason : Reason)
  deriving DecidableEq, Repr

/-- The wording of a warning. -/
def Warning.message : Warning → Text
  | duplicateKey key => "duplicate record key '".toList ++ key ++ ['\'']
  | malformed input position reason =>
    "malformed annotation '".toList ++ input ++ "' at offset ".toList ++ Text.ofNat position ++
      ": ".toList ++ reason.message

/-- The type of a type expression, and what is odd about it. -/
structure Diagnosis where
  type : TypeNode
  warnings : List Warning

/-- The type of a type expression with its warnings. One that cannot be read has a single
warning, whatever was noted before. -/
def diagnose (t : Text) : Diagnosis :=
  match parseRoot t with
  | .ok found => ⟨found.value, found.redeclared.map .duplicateKey⟩
  | .error failure => ⟨.any, [.malformed t (t.size - failure.rest.size) failure.reason]⟩

/-- The type of a type expression. -/
def parse (t : Text) : TypeNode := (diagnose t).type

end DeclGen.TypeExpr
