import DeclGen.Proofs.Document.Children
import DeclGen.Proofs.Document.Moves
import DeclGen.Proofs.Xml.Pieces

/-!
# Positions in a document

Where reading stands is told by the elements that are open.

* `OutsideOf`, `InEntityOf`, `InFieldOf` : outside entities, among the children of an entity, of a field;
* `InUnknownOf` : inside a child that has no meaning;
* `Reached` : the pieces lead to a place; `Reached.step`, `Reached.run` : they go on doing so;
* `Reached.eq_outside`, `Reached.exists_inEntity`, `Reached.exists_inField`, `Reached.exists_inEntityChild`,
  `Reached.exists_inFieldChild` : the place at a position.
-/

namespace DeclGen.Document
open Xml (Markup)

variable {s s' : State} {ps qs : List Markup} {opened opened' inner outer : List Text} {piece : Markup} {c : Collected}
  {e : OpenEntity} {f : OpenField} {place : Place}

/-! ## Open elements -/

/-- None of the open elements is an entity. -/
def OutsideOf (opened : List Text) : Prop := ∀ name ∈ opened, Xml.localName name ≠ "entity".toList

/-- The innermost open element is an entity, and it is not inside another one. -/
def InEntityOf : List Text → Prop
  | [] => False
  | name :: outer => Xml.localName name = "entity".toList ∧ OutsideOf outer

/-- The innermost open element is a field of an entity. -/
def InFieldOf : List Text → Prop
  | [] => False
  | name :: outer => Xml.localName name = "field".toList ∧ InEntityOf outer

/-- Some open element is a child of an entity or of a field that has no meaning there. -/
def InUnknownOf (opened : List Text) : Prop :=
  ∃ inner name outer, opened = inner ++ name :: outer ∧
    (InEntityOf outer ∧ Xml.localName name ∉ entityChildren ∨ InFieldOf outer ∧ Xml.localName name ∉ fieldChildren)

instance (opened : List Text) : Decidable (OutsideOf opened) :=
  inferInstanceAs (Decidable (∀ name ∈ opened, Xml.localName name ≠ "entity".toList))

instance : (opened : List Text) → Decidable (InEntityOf opened)
  | [] => inferInstanceAs (Decidable False)
  | name :: outer => inferInstanceAs (Decidable (Xml.localName name = "entity".toList ∧ OutsideOf outer))

instance : (opened : List Text) → Decidable (InFieldOf opened)
  | [] => inferInstanceAs (Decidable False)
  | name :: outer => inferInstanceAs (Decidable (Xml.localName name = "field".toList ∧ InEntityOf outer))

theorem nest_append (h : Markup.nest inner piece = .ok opened) (outer : List Text) :
    Markup.nest (inner ++ outer) piece = .ok (opened ++ outer) := by
  cases piece with
  | inert source =>
    obtain rfl := Except.ok.inj h
    rfl
  | selfClosing tag =>
    obtain rfl := Except.ok.inj h
    rfl
  | opening tag =>
    obtain rfl := Except.ok.inj h
    rfl
  | closing ending =>
    rw [Markup.nest_closing_eq_ok_iff] at h ⊢
    rw [h, List.cons_append]

theorem foldlM_nest_append (h : ps.foldlM Markup.nest inner = .ok opened) (outer : List Text) :
    ps.foldlM Markup.nest (inner ++ outer) = .ok (opened ++ outer) := by
  induction ps generalizing inner with
  | nil =>
    obtain rfl := Except.ok.inj h
    rfl
  | cons piece ps ih =>
    rw [List.foldlM_cons] at h ⊢
    obtain ⟨next, nest, h⟩ := bind_eq_ok_iff.1 h
    rw [nest_append nest outer]
    exact ih h

/-- A piece belongs to what is inside the element `name`, or is its end tag. -/
theorem nest_inside {name : Text} (h : Markup.nest (inner ++ name :: outer) piece = .ok opened) :
    (∃ next, Markup.nest inner piece = .ok next ∧ opened = next ++ name :: outer) ∨
      inner = [] ∧ opened = outer ∧ ∃ ending, piece = .closing ending ∧ Markup.endName ending = name := by
  cases found : Markup.nest inner piece with
  | ok next =>
    rw [nest_append found] at h
    exact Or.inl ⟨next, rfl, (Except.ok.inj h).symm⟩
  | error fault =>
    cases piece with
    | inert source => exact absurd found (by simp [Markup.nest])
    | selfClosing tag => exact absurd found (by simp [Markup.nest])
    | opening tag => exact absurd found (by simp [Markup.nest])
    | closing ending =>
      rw [Markup.nest_closing_eq_ok_iff] at h
      cases inner with
      | nil =>
        obtain ⟨same, outside⟩ := List.cons.inj h
        exact Or.inr ⟨rfl, outside.symm, ending, rfl, same.symm⟩
      | cons first inner =>
        obtain ⟨same, -⟩ := List.cons.inj h
        have closes : Markup.nest (first :: inner) (.closing ending) = .ok inner :=
          Markup.nest_closing_eq_ok_iff.2 (by rw [same])
        exact absurd (found.symm.trans closes) (by simp)

/-! ## Places -/

/-- What was collected inside a child, and the elements that are open inside it. -/
structure Inside (c : Collected) (inner : List Text) : Prop where
  nests : c.pieces.reverse.foldlM Markup.nest [] = .ok inner
  depth : c.depth = inner.count (Xml.tagName c.tag)

/-- The pieces of a document so far lead to a place. -/
inductive Reached : List Markup → Place → Prop
  | outside {ps : List Markup} {opened : List Text} (nests : ps.foldlM Markup.nest [] = .ok opened)
    (position : OutsideOf opened) : Reached ps .outside
  | inEntity {ps : List Markup} {opened : List Text} {e : OpenEntity}
    (nests : ps.foldlM Markup.nest [] = .ok opened) (position : InEntityOf opened) : Reached ps (.inEntity e)
  | inField {ps : List Markup} {opened : List Text} {e : OpenEntity} {f : OpenField}
    (nests : ps.foldlM Markup.nest [] = .ok opened) (position : InFieldOf opened) : Reached ps (.inField e f)
  | inEntityChild {ps : List Markup} {opened inner : List Text} {e : OpenEntity} {c : Collected}
    (nests : ps.foldlM Markup.nest [] = .ok opened) (position : InEntityOf opened)
    (other : elementName c.tag ≠ "field".toList) (inside : Inside c inner) :
    Reached (ps ++ .opening c.tag :: c.pieces.reverse) (.inEntityChild e c)
  | inFieldChild {ps : List Markup} {opened inner : List Text} {e : OpenEntity} {f : OpenField} {c : Collected}
    (nests : ps.foldlM Markup.nest [] = .ok opened) (position : InFieldOf opened) (inside : Inside c inner) :
    Reached (ps ++ .opening c.tag :: c.pieces.reverse) (.inFieldChild e f c)

theorem Inside.collect (tag : Text) : Inside (collect tag) [] := ⟨rfl, rfl⟩

/-- The elements that are open inside a child are above it and those around it. -/
theorem Inside.nests_all (inside : Inside c inner) (nests : ps.foldlM Markup.nest [] = .ok opened) :
    (ps ++ .opening c.tag :: c.pieces.reverse).foldlM Markup.nest [] =
      .ok (inner ++ Xml.tagName c.tag :: opened) := by
  rw [List.foldlM_append, nests, ok_bind, List.foldlM_cons]
  exact foldlM_nest_append inside.nests (Xml.tagName c.tag :: opened)

/-- A child goes on up to its end tag. -/
theorem Inside.add? (inside : Inside c inner)
    (nest : Markup.nest (inner ++ Xml.tagName c.tag :: outer) piece = .ok opened) :
    (∃ c' inner', c.add? piece = some c' ∧ c'.tag = c.tag ∧ c'.pieces = piece :: c.pieces ∧ Inside c' inner') ∨
      c.add? piece = none ∧ inner = [] ∧ opened = outer ∧
        ∃ ending, piece = .closing ending ∧ Markup.endName ending = Xml.tagName c.tag := by
  rcases nest_inside nest with ⟨next, found, -⟩ | ⟨rfl, rfl, ending, rfl, name⟩
  · have nests : [piece].foldlM Markup.nest inner = .ok next := by
      rw [List.foldlM_cons, found]
      rfl
    have added := foldlM_add? inside.depth nests
    have added : c.add? piece = some ⟨c.tag, next.count (Xml.tagName c.tag), piece :: c.pieces⟩ := by
      simpa using added
    refine Or.inl ⟨_, next, added, rfl, rfl, ?_, rfl⟩
    rw [List.reverse_cons, List.foldlM_append, inside.nests, ok_bind, List.foldlM_cons, found]
    rfl
  · refine Or.inr ⟨?_, rfl, rfl, ending, rfl, name⟩
    have depth : c.depth = 0 := inside.depth
    simp only [Collected.add?, name, depth, if_true]

/-! ## One piece -/

theorem nests_concat (nests : ps.foldlM Markup.nest [] = .ok opened) (nest : Markup.nest opened piece = .ok opened') :
    (ps ++ [piece]).foldlM Markup.nest [] = .ok opened' := by
  rw [List.foldlM_append, nests, ok_bind, List.foldlM_cons, nest]
  rfl

theorem OutsideOf.nest (position : OutsideOf opened) (nest : Markup.nest opened piece = .ok opened')
    (other : ∀ tag, piece = .opening tag → elementName tag ≠ "entity".toList) : OutsideOf opened' := by
  cases piece with
  | inert source => exact Except.ok.inj nest ▸ position
  | selfClosing tag => exact Except.ok.inj nest ▸ position
  | opening tag => exact Except.ok.inj nest ▸ List.forall_mem_cons.2 ⟨other tag rfl, position⟩
  | closing ending =>
    obtain rfl := Markup.nest_closing_eq_ok_iff.1 nest
    exact (List.forall_mem_cons.1 position).2

/-- **A piece leads on.** -/
theorem Reached.step (h : Reached ps s.place) (nests : ps.foldlM Markup.nest [] = .ok opened)
    (nest : Markup.nest opened piece = .ok opened') (moves : step s piece = .ok s') :
    Reached (ps ++ [piece]) s'.place := by
  have moves := moves_of_step moves
  have next := nests_concat nests nest
  generalize here : s.place = place at h moves
  cases h with
  | outside before position =>
    obtain rfl := Except.ok.inj (nests.symm.trans before)
    cases moves with
    | outside other => exact here ▸ .outside next (position.nest nest other)
    | scope scope name =>
      refine here ▸ .outside next (position.nest nest fun tag same => ?_)
      rw [← Markup.opening.inj same, name]
      decide
    | entity name read =>
      obtain rfl := Except.ok.inj nest
      exact .inEntity next ⟨name, position⟩
    | emptyEntity read =>
      obtain rfl := Except.ok.inj nest
      exact here ▸ .outside next position
  | inEntity before position =>
    obtain rfl := Except.ok.inj (nests.symm.trans before)
    cases moves with
    | inEntity idle =>
      obtain rfl := Except.ok.inj ((idle opened).symm.trans nest)
      exact here ▸ .inEntity next position
    | field name read =>
      obtain rfl := Except.ok.inj nest
      exact .inField next ⟨name, position⟩
    | @child _ tag other => exact .inEntityChild nests position other (.collect tag)
    | emptyField read =>
      obtain rfl := Except.ok.inj nest
      exact .inEntity next position
    | emptyCase read =>
      obtain rfl := Except.ok.inj nest
      exact .inEntity next position
    | endEntity =>
      obtain rfl := Markup.nest_closing_eq_ok_iff.1 nest
      exact .outside next position.2
  | inField before position =>
    obtain rfl := Except.ok.inj (nests.symm.trans before)
    cases moves with
    | inField idle =>
      obtain rfl := Except.ok.inj ((idle opened).symm.trans nest)
      exact here ▸ .inField next position
    | @fieldChild _ _ tag => exact .inFieldChild nests position (.collect tag)
    | endField =>
      obtain rfl := Markup.nest_closing_eq_ok_iff.1 nest
      exact .inEntity next position.2
  | @inEntityChild ps opened₀ inner e c before position other inside =>
    obtain rfl := Except.ok.inj ((inside.nests_all before).symm.trans nests)
    cases moves with
    | inEntityChild more =>
      rcases inside.add? nest with ⟨c', inner', added, tag, pieces, inside'⟩ | ⟨added, -⟩
      · obtain rfl := Option.some.inj (more.symm.trans added)
        have longer := Reached.inEntityChild (e := e) before position (tag ▸ other) inside'
        rwa [tag, pieces, List.reverse_cons, ← List.cons_append, ← List.append_assoc] at longer
      · exact absurd (more.symm.trans added) (by simp)
    | endEntityChild last closed =>
      rcases inside.add? nest with ⟨c', inner', added, -⟩ | ⟨-, rfl, rfl, -⟩
      · exact absurd (last.symm.trans added) (by simp)
      · exact .inEntity next position
  | @inFieldChild ps opened₀ inner e f c before position inside =>
    obtain rfl := Except.ok.inj ((inside.nests_all before).symm.trans nests)
    cases moves with
    | inFieldChild more =>
      rcases inside.add? nest with ⟨c', inner', added, tag, pieces, inside'⟩ | ⟨added, -⟩
      · obtain rfl := Option.some.inj (more.symm.trans added)
        have longer := Reached.inFieldChild (e := e) (f := f) before position inside'
        rwa [tag, pieces, List.reverse_cons, ← List.cons_append, ← List.append_assoc] at longer
      · exact absurd (more.symm.trans added) (by simp)
    | endFieldChild last closed =>
      rcases inside.add? nest with ⟨c', inner', added, -⟩ | ⟨-, rfl, rfl, -⟩
      · exact absurd (last.symm.trans added) (by simp)
      · exact .inField next position

/-- What is reached piece by piece is reached. -/
theorem Reached.run (h : Reached ps s.place) (nests : ps.foldlM Markup.nest [] = .ok opened)
    (nests' : qs.foldlM Markup.nest opened = .ok opened') (moves : qs.foldlM Document.step s = .ok s') :
    Reached (ps ++ qs) s'.place := by
  induction qs generalizing ps s opened with
  | nil =>
    obtain rfl := Except.ok.inj moves
    rwa [List.append_nil]
  | cons piece qs ih =>
    rw [List.foldlM_cons] at nests' moves
    obtain ⟨inner, nest, nests'⟩ := bind_eq_ok_iff.1 nests'
    obtain ⟨t, moves, others⟩ := bind_eq_ok_iff.1 moves
    have longer := ih (h.step nests nest moves) (nests_concat nests nest) nests' others
    rwa [List.append_assoc] at longer

theorem Reached.of_start {marked : Bool} (nests : ps.foldlM Markup.nest [] = .ok opened)
    (moves : ps.foldlM Document.step (start marked) = .ok s) : Reached ps s.place := by
  have here : Reached [] (start marked).place := .outside rfl fun _ h => absurd h List.not_mem_nil
  exact here.run rfl nests moves

/-! ## The place at a position -/

theorem InEntityOf.not_outsideOf (h : InEntityOf opened) : ¬ OutsideOf opened := by
  cases opened with
  | nil => exact absurd h id
  | cons name outer => exact fun outside => outside name List.mem_cons_self h.1

theorem InFieldOf.not_outsideOf (h : InFieldOf opened) : ¬ OutsideOf opened := by
  cases opened with
  | nil => exact absurd h id
  | cons name outer =>
    exact fun outside => h.2.not_outsideOf fun other ho => outside other (List.mem_cons_of_mem _ ho)

theorem InFieldOf.not_inEntityOf (h : InFieldOf opened) : ¬ InEntityOf opened := by
  cases opened with
  | nil => exact absurd h id
  | cons name outer =>
    intro h'
    exact absurd (h.1.symm.trans h'.1) (by decide)

theorem OutsideOf.of_append {name : Text} (h : OutsideOf (inner ++ name :: outer)) : OutsideOf outer :=
  fun other ho => h other (List.mem_append_right _ (List.mem_cons_of_mem _ ho))

/-- The entity is the outermost one. -/
theorem InEntityOf.outsideOf {name : Text} (h : InEntityOf (inner ++ name :: outer)) : OutsideOf outer := by
  cases inner with
  | nil => exact h.2
  | cons first inner => exact h.2.of_append

section Place
variable (h : Reached ps place) (nests : ps.foldlM Markup.nest [] = .ok opened)
include h nests

theorem Reached.eq_outside (position : OutsideOf opened) : place = .outside := by
  cases h with
  | outside => rfl
  | inEntity before inside =>
    obtain rfl := Except.ok.inj (before.symm.trans nests)
    exact absurd position inside.not_outsideOf
  | inField before inside =>
    obtain rfl := Except.ok.inj (before.symm.trans nests)
    exact absurd position inside.not_outsideOf
  | inEntityChild before inside other child =>
    obtain rfl := Except.ok.inj ((child.nests_all before).symm.trans nests)
    exact absurd position.of_append inside.not_outsideOf
  | inFieldChild before inside child =>
    obtain rfl := Except.ok.inj ((child.nests_all before).symm.trans nests)
    exact absurd position.of_append inside.not_outsideOf

theorem Reached.exists_inEntity (position : InEntityOf opened) : ∃ e, place = .inEntity e := by
  cases h with
  | outside before outside =>
    obtain rfl := Except.ok.inj (before.symm.trans nests)
    exact absurd outside position.not_outsideOf
  | @inEntity _ _ e => exact ⟨e, rfl⟩
  | inField before inside =>
    obtain rfl := Except.ok.inj (before.symm.trans nests)
    exact absurd position inside.not_inEntityOf
  | inEntityChild before inside other child =>
    obtain rfl := Except.ok.inj ((child.nests_all before).symm.trans nests)
    exact absurd position.outsideOf inside.not_outsideOf
  | inFieldChild before inside child =>
    obtain rfl := Except.ok.inj ((child.nests_all before).symm.trans nests)
    exact absurd position.outsideOf inside.not_outsideOf

theorem Reached.exists_inField (position : InFieldOf opened) : ∃ e f, place = .inField e f := by
  cases h with
  | outside before outside =>
    obtain rfl := Except.ok.inj (before.symm.trans nests)
    exact absurd outside position.not_outsideOf
  | inEntity before inside =>
    obtain rfl := Except.ok.inj (before.symm.trans nests)
    exact absurd inside position.not_inEntityOf
  | @inField _ _ e f => exact ⟨e, f, rfl⟩
  | @inEntityChild _ _ inner _ c before inside other child =>
    obtain rfl := Except.ok.inj ((child.nests_all before).symm.trans nests)
    cases inner with
    | nil => exact absurd position.1 other
    | cons first inner => exact absurd (InEntityOf.outsideOf position.2) inside.not_outsideOf
  | @inFieldChild _ _ inner _ _ _ before inside child =>
    obtain rfl := Except.ok.inj ((child.nests_all before).symm.trans nests)
    cases inner with
    | nil => exact absurd position.2 inside.not_inEntityOf
    | cons first inner => exact absurd (InEntityOf.outsideOf position.2) inside.not_outsideOf

end Place

/-- There is one entity around an open element, and one child of it. -/
theorem InEntityOf.unique {name name' : Text} {inner' outer' : List Text} (h : InEntityOf outer) (h' : InEntityOf outer')
    (same : inner ++ name :: outer = inner' ++ name' :: outer') : inner = inner' ∧ name = name' ∧ outer = outer' := by
  rcases List.append_eq_append_iff.1 same with ⟨more, rfl, split⟩ | ⟨more, rfl, split⟩
  · cases more with
    | nil =>
      obtain ⟨rfl, rfl⟩ := List.cons.inj split
      exact ⟨(List.append_nil inner).symm, rfl, rfl⟩
    | cons first more =>
      obtain ⟨-, rfl⟩ := List.cons.inj split
      exact absurd h.outsideOf h'.not_outsideOf
  · cases more with
    | nil =>
      obtain ⟨rfl, rfl⟩ := List.cons.inj split
      exact ⟨List.append_nil inner', rfl, rfl⟩
    | cons first more =>
      obtain ⟨-, rfl⟩ := List.cons.inj split
      exact absurd h'.outsideOf h.not_outsideOf

section Child
variable {name : Text} (h : Reached ps place) (nests : ps.foldlM Markup.nest [] = .ok (inner ++ name :: outer))
include h nests

/-- Inside a child of an entity that child is collected, unless it is a field. -/
theorem Reached.exists_inEntityChild (entity : InEntityOf outer) (other : Xml.localName name ≠ "field".toList) :
    ∃ e c, place = .inEntityChild e c ∧ Xml.tagName c.tag = name := by
  cases h with
  | outside before outside =>
    obtain rfl := Except.ok.inj (before.symm.trans nests)
    exact absurd outside.of_append entity.not_outsideOf
  | inEntity before inside =>
    obtain rfl := Except.ok.inj (before.symm.trans nests)
    exact absurd inside.outsideOf entity.not_outsideOf
  | @inField _ opened _ _ before inside =>
    have same : [] ++ opened = inner ++ name :: outer := Except.ok.inj (before.symm.trans nests)
    cases opened with
    | nil => exact absurd inside id
    | cons field opened =>
      obtain ⟨-, rfl, -⟩ := InEntityOf.unique inside.2 entity same
      exact absurd inside.1 other
  | @inEntityChild _ _ _ e c before inside _ child =>
    have same := Except.ok.inj ((child.nests_all before).symm.trans nests)
    obtain ⟨-, rfl, -⟩ := inside.unique entity same
    exact ⟨e, c, rfl, rfl⟩
  | @inFieldChild _ opened inside' _ _ c before inside child =>
    have same := Except.ok.inj ((child.nests_all before).symm.trans nests)
    cases opened with
    | nil => exact absurd inside id
    | cons field opened =>
      rw [List.append_cons] at same
      obtain ⟨-, rfl, -⟩ := InEntityOf.unique inside.2 entity same
      exact absurd inside.1 other

/-- Inside a child of a field that child is collected. -/
theorem Reached.exists_inFieldChild (field : InFieldOf outer) :
    ∃ e f c, place = .inFieldChild e f c ∧ Xml.tagName c.tag = name := by
  cases outer with
  | nil => exact absurd field id
  | cons fieldName outer =>
    rw [List.append_cons] at nests
    cases h with
    | outside before outside =>
      obtain rfl := Except.ok.inj (before.symm.trans nests)
      exact absurd outside.of_append field.2.not_outsideOf
    | inEntity before inside =>
      obtain rfl := Except.ok.inj (before.symm.trans nests)
      exact absurd inside.outsideOf field.2.not_outsideOf
    | @inField _ opened _ _ before inside =>
      have same : [] ++ opened = inner ++ [name] ++ fieldName :: outer := Except.ok.inj (before.symm.trans nests)
      cases opened with
      | nil => exact absurd inside id
      | cons field' opened =>
        obtain ⟨none, -⟩ := InEntityOf.unique inside.2 field.2 same
        exact absurd none (by simp)
    | @inEntityChild _ _ _ e c before inside other child =>
      have same := Except.ok.inj ((child.nests_all before).symm.trans nests)
      obtain ⟨-, rfl, -⟩ := inside.unique field.2 same
      exact absurd field.1 other
    | @inFieldChild _ opened _ e f c before inside child =>
      have same := Except.ok.inj ((child.nests_all before).symm.trans nests)
      cases opened with
      | nil => exact absurd inside id
      | cons field' opened =>
        rw [List.append_cons] at same
        obtain ⟨same, -⟩ := InEntityOf.unique inside.2 field.2 same
        obtain ⟨-, rfl⟩ := List.append_singleton_inj.1 same
        exact ⟨e, f, c, rfl, rfl⟩

end Child

end DeclGen.Document
