import DeclGen.Xml.Tag

/-!
# Document type declarations

* `Xml.Doctype.Place` : where in a declaration a character stands;
* `Xml.Doctype.close?` : the declaration up to its closing angle, and what follows it.
-/

namespace DeclGen.Xml.Doctype

/-- Where in a document type declaration a character stands. -/
inductive Place where
  /-- Before the internal subset, in a quoted string if there is a quote. -/
  | outer (quote : Option Char)
  /-- In the internal subset, between markup. -/
  | subset
  /-- In the characters that tell what markup this is; `more` of them follow this one, then comes
  `inside`. -/
  | keyword (more : Nat) (inside : Place)
  /-- In a comment of the subset; `dashes` dashes precede. -/
  | comment (dashes : Nat)
  /-- In an instruction of the subset; the flag tells that a question mark precedes. -/
  | instruction (afterMark : Bool)
  /-- In a declaration of an entity, of attributes or of a notation. -/
  | quoted (quote : Option Char)
  /-- In other markup of the subset, where quotes and brackets mean nothing. -/
  | plain
  /-- After the subset. -/
  | closing
  deriving DecidableEq, Repr

/-- The quote that is open after a character. -/
def quoteAfter (quote : Option Char) (c : Char) : Option Char :=
  match quote with
  | some q => if c = q then none else some q
  | none => if isQuote c then some c else none

/-- Where markup of the subset leads, given what follows its opening angle. -/
def enter (t : Text) : Place :=
  if "!--".toList.isPrefixOf t then .keyword 2 (.comment 0)
  else if t.head? = some '?' then .keyword 0 (.instruction false)
  else if "!ENTITY".toList.isPrefixOf t || "!ATTLIST".toList.isPrefixOf t ||
    "!NOTATION".toList.isPrefixOf t then .quoted none
  else .plain

/-- The place after a character, given what follows it; `none` once the declaration is closed. -/
def step (place : Place) (c : Char) (t : Text) : Option Place :=
  match place with
  | .outer none =>
    if c = '>' then none
    else if c = '[' then some .subset
    else some (.outer (quoteAfter none c))
  | .outer quote => some (.outer (quoteAfter quote c))
  | .subset =>
    if c = ']' then some .closing else if c = '<' then some (enter t) else some .subset
  | .keyword (more + 1) inside => some (.keyword more inside)
  | .keyword 0 inside => some inside
  | .comment dashes =>
    if c = '-' then some (.comment (dashes + 1))
    else if c = '>' && 2 ≤ dashes then some .subset
    else some (.comment 0)
  | .instruction afterMark =>
    if c = '>' && afterMark then some .subset else some (.instruction (c = '?'))
  | .quoted none => if c = '>' then some .subset else some (.quoted (quoteAfter none c))
  | .quoted quote => some (.quoted (quoteAfter quote c))
  | .plain => if c = '>' then some .subset else some .plain
  | .closing => if c = '>' then none else some .closing

/-- The characters up to the angle that closes the declaration, and those after it. -/
def close? (place : Place) : Text → Option (Text × Text)
  | [] => none
  | c :: t =>
    match step place c t with
    | none => some ([], t)
    | some next => (close? next t).map fun (inside, rest) => (c :: inside, rest)

theorem eq_angle_of_step {place : Place} {c : Char} {t : Text} (h : step place c t = none) :
    c = '>' := by
  unfold step at h
  split at h <;> grind

theorem eq_append_of_close? {place : Place} {t content rest : Text}
    (h : close? place t = some (content, rest)) : t = content ++ '>' :: rest := by
  induction t generalizing place content with
  | nil => simp [close?] at h
  | cons c t ih =>
    rw [close?] at h
    split at h
    · next closed =>
      simp only [Option.some.injEq, Prod.mk.injEq] at h
      simp [← h.1, ← h.2, eq_angle_of_step closed]
    · next next _ =>
      cases hc : close? next t with
      | none => simp [hc] at h
      | some found =>
        obtain ⟨inside, after⟩ := found
        simp only [hc, Option.map_some, Option.some.injEq, Prod.mk.injEq] at h
        obtain ⟨rfl, rfl⟩ := h
        simp [ih hc]

end DeclGen.Xml.Doctype
