import DeclGen.Text.Basic

/-!
# Blank characters and trimming

* `Text.isBlank` : the Unicode property `White_Space`;
* `Text.isSpacing` : the five ASCII blanks that may stand between the tokens of a type expression;
* `Text.trimStart`, `Text.trimEnd`, `Text.trim` : dropping blanks at the ends;
* `Text.skipSpacing` : dropping ASCII blanks at the start.
-/

namespace DeclGen.Text

/-- The Unicode property `White_Space`. -/
def isBlank (c : Char) : Bool :=
  let n := c.toNat
  (9 ≤ n && n ≤ 13) || n = 0x20 || n = 0x85 || n = 0xA0 || n = 0x1680 ||
    (0x2000 ≤ n && n ≤ 0x200A) || n = 0x2028 || n = 0x2029 || n = 0x202F || n = 0x205F ||
    n = 0x3000

/-- Space, tab, line feed, carriage return and form feed; the vertical tab is not among them. -/
def isSpacing (c : Char) : Bool :=
  c = ' ' || c = '\t' || c = '\n' || c = '\r' || c = '\x0c'

/-- Drops the blanks at the start. -/
def trimStart (t : Text) : Text := t.dropWhile isBlank

/-- Drops the blanks at the end. -/
def trimEnd (t : Text) : Text := (t.reverse.dropWhile isBlank).reverse

/-- Drops the blanks at both ends. -/
def trim (t : Text) : Text := trimEnd (trimStart t)

/-- Drops the ASCII blanks at the start. -/
def skipSpacing (t : Text) : Text := t.dropWhile isSpacing

theorem isBlank_of_isSpacing {c : Char} (h : isSpacing c = true) : isBlank c = true := by
  simp only [isSpacing, Bool.or_eq_true, decide_eq_true_eq] at h
  rcases h with (((rfl | rfl) | rfl) | rfl) | rfl <;> decide

end DeclGen.Text
