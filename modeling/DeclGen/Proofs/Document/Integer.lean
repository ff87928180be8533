import DeclGen.Proofs.Decimal
import DeclGen.Proofs.Document.Member
import DeclGen.Proofs.Document.Respelling
import DeclGen.Proofs.TypeScript.Enumeration
import Mathlib.Algebra.Group.Int.Defs

/-!
# Integers in documents

The text of a member of an integer enumeration is a decimal number of 64 bits, or the document is refused.

* `Denotes64` : what such a text denotes; `readInteger_eq_some_iff` : it is read as that;
* `IsCase` : an element is a member with a name and a text; `IsCase.entityChild_integer`, `IsCase.entityChild_error` :
  what it does to its entity;
* `parse_child` : what a child does to the document; `parse_case_iff` : what a member with an integer does, and what is
  written for it.
-/

namespace DeclGen.Document
open Xml (Markup Element)
open TypeScript (Options propertyKey render enumeration)

/-! ## Texts -/

/-- Without the blanks around it, the text denotes an integer, and the integer has 64 bits. -/
def Denotes64 (raw : Text) (n : Int) : Prop := Text.Denotes (Text.trim raw) n ∧ -2 ^ 63 ≤ n ∧ n < 2 ^ 63

variable {raw : Text} {n : Int}

theorem integerRange_iff : (integerRange.1 ≤ n ∧ n ≤ integerRange.2) ↔ -2 ^ 63 ≤ n ∧ n < 2 ^ 63 := by
  simp only [integerRange]
  omega

theorem readInteger_eq_some_iff : readInteger (Text.trim raw) = some n ↔ Denotes64 raw n := by
  rw [Denotes64, ← Text.toInt?_eq_some_iff, ← integerRange_iff, readInteger]
  cases Text.toInt? (Text.trim raw) with
  | none => simp
  | some m =>
    simp only [Option.some.injEq]
    split
    · next fits =>
      rw [Option.some.injEq]
      exact ⟨fun same => ⟨same, same ▸ fits⟩, And.left⟩
    · next misfits => exact iff_of_false (by simp) fun h => misfits (h.1 ▸ h.2)

/-- What is written is read back. -/
theorem denotes64_ofInt (h : Denotes64 raw n) : Denotes64 (Text.ofInt n) n := by
  rw [← readInteger_eq_some_iff]
  exact readInteger_ofInt (integerRange_iff.2 h.2)

/-! ## Elements -/

/-- The element is a member with the name and the text, be it in an attribute or between the tags. -/
structure IsCase (marked : Bool) (x : Element) (name raw : Text) : Prop where
  element : elementName x.tag = "case".toList
  read : ∃ found text, foldAttributes x.tag ⟨none, none⟩ CaseAttributes.add = .ok found ∧ found.name = some name ∧
    innerText marked x = .ok text ∧ (found.value <|> text) = some raw

variable {marked : Bool} {x : Element} {name : Text} {e : OpenEntity}

theorem IsCase.entityChild_eq (h : IsCase marked x name raw) (integers : e.entity.kind.backing = some .integer) :
    entityChild marked e x = (caseValue (some .integer) name (some raw)).map fun value =>
      e.take (.member ⟨name, value⟩) := by
  obtain ⟨element, found, text, attributes, named, inner, value⟩ := h
  rw [entityChild, integers, contribution_case element, inner, ok_bind, readCase, attributes, ok_bind, named]
  simp only [value]
  cases caseValue (some .integer) name (some raw) <;> rfl

theorem IsCase.entityChild_integer (h : IsCase marked x name raw) (integers : e.entity.kind.backing = some .integer)
    (denotes : Denotes64 raw n) : entityChild marked e x = .ok (e.take (.member ⟨name, .integer n⟩)) := by
  rw [h.entityChild_eq integers, caseValue, readInteger_eq_some_iff.2 denotes]
  rfl

theorem IsCase.entityChild_error (h : IsCase marked x name raw) (integers : e.entity.kind.backing = some .integer)
    (none : ¬ ∃ n, Denotes64 raw n) :
    entityChild marked e x = .error (.invalidAttribute "case".toList "value".toList raw) := by
  have unread : readInteger (Text.trim raw) = .none :=
    Option.eq_none_iff_forall_ne_some.2 fun n read => none ⟨n, readInteger_eq_some_iff.1 read⟩
  rw [h.entityChild_eq integers, caseValue, unread]
  rfl

/-! ## Documents -/

/-- The member is written on a line of its own. -/
theorem render_of_has {d : Entity} {kind : Kind} {m : Member} (h : d.Has kind m)
    (integers : kind.backing = some .integer) (options : Options) : ∃ front back,
    render options d.resolve = front ++ '\n' :: (TypeScript.memberText options m ++ back) ∧
    (back.head? = some ',' ∨ back.head? = some '\n') := by
  have same : d.resolve.kind = kind := h.kind
  have written : render options d.resolve = enumeration options d.resolve := by
    cases kind with
    | record => exact absurd integers (by simp [Kind.backing])
    | enumeration backing => rw [render, same]
  rw [written]
  exact TypeScript.enumeration_of_mem options h.member

section Documents
variable {before : Text} {opened : List Text} {s : State} (known : Markup.opened? (unmarked before) = some opened)
  (hs : readUpTo before = .ok s) (here : s.place = .inEntity e) (hx : x.WellFormed)
include known hs here hx

/-- A child is read from where the document stands in front of it. -/
theorem parse_child (after : Text) : parse (before ++ (x.source ++ after)) =
    entityChild (isMarked before) e x >>= fun e' => resume opened (s.atPlace (.inEntity e')) after := by
  have place : s.atPlace (.inEntity e) = s := by rw [State.atPlace, ← here]
  rw [parse_element known hx, hs, ok_bind, ← place, foldlM_entityChild hx, ← marked_of_readUpTo hs]
  cases entityChild s.marked e x <;> rfl

theorem parse_case_integer (integers : e.entity.kind.backing = some .integer)
    (case : IsCase (isMarked before) x name raw) (denotes : Denotes64 raw n) (after : Text) :
    parse (before ++ (x.source ++ after)) =
      resume opened (s.atPlace (.inEntity (e.take (.member ⟨name, .integer n⟩)))) after := by
  rw [parse_child known hs here hx, case.entityChild_integer integers denotes, ok_bind]

theorem parse_case_error (integers : e.entity.kind.backing = some .integer)
    (case : IsCase (isMarked before) x name raw) (none : ¬ ∃ n, Denotes64 raw n) (after : Text) :
    parse (before ++ (x.source ++ after)) = .error (.invalidAttribute "case".toList "value".toList raw) := by
  rw [parse_child known hs here hx, case.entityChild_error integers none, error_bind]

/-- **Integers of 64 bits and nothing else.** Behind whatever stands before a member of an integer enumeration, its
text is read as the integer of 64 bits that it denotes: the document is accepted iff it denotes one and what follows
the member is as it should be. The integer is written as the one canonical text that denotes it, and is read back from
that. Any other text is an invalid attribute, whatever follows. -/
theorem parse_case_iff (integers : e.entity.kind.backing = some .integer)
    (case : IsCase (isMarked before) x name raw) (after : Text) :
    ((∃ es, parse (before ++ (x.source ++ after)) = .ok es) ↔
      (∃ n, Denotes64 raw n) ∧ ∃ es, resume opened s after = .ok es) ∧
    (∀ n, Denotes64 raw n →
      parse (before ++ (x.source ++ after)) =
        resume opened (s.atPlace (.inEntity (e.take (.member ⟨name, .integer n⟩)))) after ∧
      (∀ es, parse (before ++ (x.source ++ after)) = .ok es → ∃ d ∈ es, d.Has e.entity.kind ⟨name, .integer n⟩ ∧
        ∀ options : Options, ∃ front back, render options d.resolve =
          front ++ '\n' :: (options.indent ++ propertyKey name ++ " = ".toList ++ Text.ofInt n ++ back) ∧
          (back.head? = some ',' ∨ back.head? = some '\n')) ∧
      (∀ t, t = Text.ofInt n ↔ Text.IsCanonical t ∧ Text.Denotes t n) ∧ Denotes64 (Text.ofInt n) n) ∧
    ((¬ ∃ n, Denotes64 raw n) → parse (before ++ (x.source ++ after)) =
      .error (.invalidAttribute "case".toList "value".toList raw)) := by
  have accepts (n : Int) (denotes : Denotes64 raw n) :
      (∃ es, parse (before ++ (x.source ++ after)) = .ok es) ↔ ∃ es, resume opened s after = .ok es := by
    have same : (s.atPlace (.inEntity (e.take (.member ⟨name, .integer n⟩)))).bare = s.bare := by
      rw [State.bare, State.bare, here]
      rfl
    rw [parse_case_integer known hs here hx integers case denotes]
    exact resume_accepts_iff same after
  refine ⟨⟨?_, ?_⟩, fun n denotes => ⟨?_, ?_, fun _ => Text.eq_ofInt_iff, denotes64_ofInt denotes⟩, fun none => ?_⟩
  · rintro ⟨es, accepted⟩
    by_cases integer : ∃ n, Denotes64 raw n
    · obtain ⟨n, denotes⟩ := integer
      exact ⟨⟨n, denotes⟩, (accepts n denotes).1 ⟨es, accepted⟩⟩
    · rw [parse_case_error known hs here hx integers case integer] at accepted
      exact absurd accepted (by simp)
  · rintro ⟨⟨n, denotes⟩, accepted⟩
    exact (accepts n denotes).2 accepted
  · exact parse_case_integer known hs here hx integers case denotes after
  · intro es accepted
    rw [parse_case_integer known hs here hx integers case denotes after] at accepted
    have carries : (s.atPlace (.inEntity (e.take (.member ⟨name, .integer n⟩)))).Carries e.entity.kind
        ⟨name, .integer n⟩ := .inr ⟨_, rfl, rfl, List.mem_append_right _ (List.mem_singleton.2 rfl)⟩
    obtain ⟨d, hd, has⟩ := carries.of_resume accepted
    refine ⟨d, hd, has, fun options => ?_⟩
    have line := render_of_has has integers options
    rwa [TypeScript.memberText, TypeScript.valueText] at line
  · exact parse_case_error known hs here hx integers case none after

end Documents

/-- The limits, the first with a sign, zeros and blanks, and the integer behind the greatest. -/
theorem parse_case_iff_limits :
    let before := "<entity name='E' kind='enum' backing='int'>".toList
    let x (raw : Text) : Element := .around "case name='A'".toList (.gap raw) "case".toList
    let after := "</entity>".toList
    let document (raw : String) : Text := before ++ ((x raw.toList).source ++ after)
    let accepts (raw : String) (n : Int) : Prop := (∃ es, parse (document raw) = .ok es) ∧
      ∀ es, parse (document raw) = .ok es → ∃ d ∈ es, ⟨"A".toList, .integer n⟩ ∈ d.members
    accepts "\u2003+00009223372036854775807\n" 9223372036854775807 ∧
    accepts "-9223372036854775808" (-9223372036854775808) ∧
    parse (document "9223372036854775808") =
      .error (.invalidAttribute "case".toList "value".toList "9223372036854775808".toList) := by
  intro before x after document accepts
  let s : State := ⟨false, [], [],
    .inEntity ⟨.ofName (.enumeration (some .integer)) "E".toList, "E".toList, none⟩⟩
  have known : Markup.opened? (unmarked before) = some ["entity".toList] := by decide +kernel
  have hs : readUpTo before = .ok s := rfl
  have rest : resume ["entity".toList] s after = .ok [.ofName (.enumeration (some .integer)) "E".toList] := by
    decide +kernel
  have element : elementName "case name='A'".toList = "case".toList := by decide
  have case (raw : Text) (inner : innerText false (x raw) = .ok (some raw)) : IsCase false (x raw) "A".toList raw :=
    ⟨element, ⟨some "A".toList, none⟩, some raw, rfl, rfl, inner, rfl⟩
  have reads (raw : String) (n : Int) (hx : (x raw.toList).WellFormed)
      (inner : innerText false (x raw.toList) = .ok (some raw.toList))
      (read : readInteger (Text.trim raw.toList) = some n) : accepts raw n := by
    have denotes := readInteger_eq_some_iff.1 read
    have law := parse_case_iff known hs rfl hx rfl (case _ inner) after
    refine ⟨law.1.2 ⟨⟨n, denotes⟩, _, rest⟩, fun es accepted => ?_⟩
    obtain ⟨d, hd, has, -⟩ := (law.2.1 n denotes).2.1 es accepted
    exact ⟨d, hd, has.member⟩
  refine ⟨reads _ _ (by decide +kernel) rfl (by decide +kernel), reads _ _ (by decide +kernel) rfl (by decide +kernel),
    (parse_case_iff known hs rfl (by decide +kernel) rfl (case _ rfl) after).2.2 ?_⟩
  rintro ⟨n, denotes⟩
  have unread : readInteger (Text.trim "9223372036854775808".toList) = none := by decide +kernel
  rw [readInteger_eq_some_iff.2 denotes] at unread
  exact absurd unread (by simp)

end DeclGen.Document
