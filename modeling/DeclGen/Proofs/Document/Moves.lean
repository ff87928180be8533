import DeclGen.Document.Reader
import DeclGen.Proofs.Outcome

/-!
# What a piece of markup does

* `Moves` : the states that pieces lead to, place by place;
* `moves_of_step` : a step is one of these moves;
* `finish_eq_ok_iff` : what is read at the end.
-/

namespace DeclGen.Document
open Xml (Markup)

/-- A piece leads from a state to another one. The last piece of a child is told from the others by `Collected.add?`. -/
inductive Moves (s : State) : Place → Markup → State → Prop
  /-- Only the tags of entities and of namespaces have a meaning outside entities. -/
  | outside {piece : Markup} (other : ∀ tag, piece = .opening tag → elementName tag ≠ "entity".toList) :
    Moves s .outside piece s
  | scope {tag : Text} (scope : Text) (name : elementName tag = "entities".toList) :
    Moves s .outside (.opening tag) { s with scope }
  | entity {tag : Text} {read : Entity × Text} (name : elementName tag = "entity".toList)
    (h : readEntity s.scope tag = .ok read) :
    Moves s .outside (.opening tag) { s with place := .inEntity ⟨read.1, read.2, none⟩ }
  | emptyEntity {tag : Text} {read : Entity × Text} (h : readEntity s.scope tag = .ok read) :
    Moves s .outside (.selfClosing tag) { s with entities := s.entities ++ [read.1] }
  /-- What opens and closes nothing may be passed over. -/
  | inEntity {e : OpenEntity} {piece : Markup} (idle : ∀ opened, Markup.nest opened piece = .ok opened) :
    Moves s (.inEntity e) piece s
  | field {e : OpenEntity} {tag : Text} {f : Field} (name : elementName tag = "field".toList)
    (h : readField tag = .ok f) : Moves s (.inEntity e) (.opening tag) { s with place := .inField e ⟨f, none⟩ }
  | child {e : OpenEntity} {tag : Text} (other : elementName tag ≠ "field".toList) :
    Moves s (.inEntity e) (.opening tag) { s with place := .inEntityChild e (collect tag) }
  | emptyField {e : OpenEntity} {tag : Text} {f : Field} (h : readField tag = .ok f) :
    Moves s (.inEntity e) (.selfClosing tag) { s with place := .inEntity { e with entity := e.entity.addField f } }
  | emptyCase {e : OpenEntity} {tag : Text} {m : Member} (h : readCase e.entity.kind.backing tag none = .ok m) :
    Moves s (.inEntity e) (.selfClosing tag) { s with place := .inEntity { e with entity := e.entity.addMember m } }
  | endEntity {e : OpenEntity} {ending : Text} :
    Moves s (.inEntity e) (.closing ending) { s with entities := s.entities ++ [closeEntity e], place := .outside }
  | inField {e : OpenEntity} {f : OpenField} {piece : Markup} (idle : ∀ opened, Markup.nest opened piece = .ok opened) :
    Moves s (.inField e f) piece s
  | fieldChild {e : OpenEntity} {f : OpenField} {tag : Text} :
    Moves s (.inField e f) (.opening tag) { s with place := .inFieldChild e f (collect tag) }
  | endField {e : OpenEntity} {f : OpenField} {ending : Text} :
    Moves s (.inField e f) (.closing ending)
      { s with place := .inEntity { e with entity := e.entity.addField (closeField f) } }
  | inEntityChild {e : OpenEntity} {c c' : Collected} {piece : Markup} (more : c.add? piece = some c') :
    Moves s (.inEntityChild e c) piece { s with place := .inEntityChild e c' }
  | endEntityChild {e e' : OpenEntity} {c : Collected} {piece : Markup} (last : c.add? piece = none)
    (h : closeEntityChild s.marked e c = .ok e') : Moves s (.inEntityChild e c) piece { s with place := .inEntity e' }
  | inFieldChild {e : OpenEntity} {f : OpenField} {c c' : Collected} {piece : Markup} (more : c.add? piece = some c') :
    Moves s (.inFieldChild e f c) piece { s with place := .inFieldChild e f c' }
  | endFieldChild {e : OpenEntity} {f f' : OpenField} {c : Collected} {piece : Markup} (last : c.add? piece = none)
    (h : closeFieldChild s.marked f c = .ok f') : Moves s (.inFieldChild e f c) piece { s with place := .inField e f' }

variable {s s' : State} {e : OpenEntity} {f : OpenField} {piece : Markup}

theorem moves_of_stepOutside (h : stepOutside s piece = .ok s') : Moves s .outside piece s' := by
  cases piece with
  | opening tag =>
    simp only [stepOutside] at h
    split at h
    · next name =>
      obtain ⟨scope, -, h⟩ := bind_eq_ok_iff.1 h
      exact Except.ok.inj h ▸ .scope _ name
    · split at h
      · next name =>
        obtain ⟨read, hr, h⟩ := bind_eq_ok_iff.1 h
        exact Except.ok.inj h ▸ .entity name hr
      · next other => exact Except.ok.inj h ▸ .outside fun _ same => Markup.opening.inj same ▸ other
  | selfClosing tag =>
    simp only [stepOutside] at h
    split at h
    · obtain ⟨read, hr, h⟩ := bind_eq_ok_iff.1 h
      exact Except.ok.inj h ▸ .emptyEntity hr
    · exact Except.ok.inj h ▸ .outside (by simp)
  | closing ending => exact Except.ok.inj h ▸ .outside (by simp)
  | inert source => exact Except.ok.inj h ▸ .outside (by simp)

theorem moves_of_stepInEntity (h : stepInEntity s e piece = .ok s') : Moves s (.inEntity e) piece s' := by
  cases piece with
  | opening tag =>
    simp only [stepInEntity] at h
    split at h
    · next name =>
      obtain ⟨f, hf, h⟩ := bind_eq_ok_iff.1 h
      exact Except.ok.inj h ▸ .field name hf
    · next other => exact Except.ok.inj h ▸ .child other
  | selfClosing tag =>
    simp only [stepInEntity] at h
    split at h
    · obtain ⟨f, hf, h⟩ := bind_eq_ok_iff.1 h
      exact Except.ok.inj h ▸ .emptyField hf
    · split at h
      · obtain ⟨m, hm, h⟩ := bind_eq_ok_iff.1 h
        exact Except.ok.inj h ▸ .emptyCase hm
      · exact Except.ok.inj h ▸ .inEntity fun _ => rfl
  | closing ending => exact Except.ok.inj h ▸ .endEntity
  | inert source => exact Except.ok.inj h ▸ .inEntity fun _ => rfl

theorem moves_of_stepInField (h : stepInField s e f piece = .ok s') : Moves s (.inField e f) piece s' := by
  cases piece with
  | opening tag => exact Except.ok.inj h ▸ .fieldChild
  | selfClosing tag => exact Except.ok.inj h ▸ .inField fun _ => rfl
  | closing ending => exact Except.ok.inj h ▸ .endField
  | inert source => exact Except.ok.inj h ▸ .inField fun _ => rfl

/-- **A step is a move.** -/
theorem moves_of_step (h : step s piece = .ok s') : Moves s s.place piece s' := by
  unfold step at h
  split at h
  · next here => exact here ▸ moves_of_stepOutside h
  · next here => exact here ▸ moves_of_stepInEntity h
  · next here => exact here ▸ moves_of_stepInField h
  · next e c here =>
    rw [here]
    split at h
    · next more => exact Except.ok.inj h ▸ .inEntityChild more
    · next last =>
      obtain ⟨e', he, h⟩ := bind_eq_ok_iff.1 h
      exact Except.ok.inj h ▸ .endEntityChild last he
  · next e f c here =>
    rw [here]
    split at h
    · next more => exact Except.ok.inj h ▸ .inFieldChild more
    · next last =>
      obtain ⟨f', hf, h⟩ := bind_eq_ok_iff.1 h
      exact Except.ok.inj h ▸ .endFieldChild last hf

theorem finish_eq_ok_iff {es : List Entity} :
    finish s = .ok es ↔ s.place.unfinished = none ∧ s.entities ≠ [] ∧ s.entities = es := by
  unfold finish
  cases s.place.unfinished with
  | some error => simp
  | none => simp only [guard_eq_ok_iff, List.isEmpty_iff, Except.ok.injEq, true_and, ne_eq]

end DeclGen.Document
