import DeclGen.Proofs.Document.Context

/-!
# Members of an open entity

What is read behind a member does not depend on it, and the member stays in its entity.

* `State.bare` : a state without the members that were read; `step_bare`, `alike_step_bare` : a piece does the same
  without them; `resume_accepts_iff` : so the document is accepted or not;
* `State.Carries` : an entity of some kind has a member; `Carries.of_step`, `Carries.of_resume` : it keeps it.
-/

namespace DeclGen

/-- An entity without its members. -/
def Entity.bare (e : Entity) : Entity := { e with members := [] }

@[simp] theorem Entity.bare_bare (e : Entity) : e.bare.bare = e.bare := rfl

@[simp] theorem Entity.bare_addMember (e : Entity) (m : Member) : (e.addMember m).bare = e.bare := rfl

@[simp] theorem Entity.bare_addField (e : Entity) (f : Field) : (e.addField f).bare = e.bare.addField f := rfl

/-- The entity is of the kind and has the member. -/
structure Entity.Has (kind : Kind) (m : Member) (e : Entity) : Prop where
  kind : e.kind = kind
  member : m ∈ e.members

namespace Document
open Xml (Markup)

/-! ## States without members -/

def OpenEntity.bare (e : OpenEntity) : OpenEntity := { e with entity := e.entity.bare }

def Place.bare : Place → Place
  | outside => outside
  | inEntity e => inEntity e.bare
  | inEntityChild e c => inEntityChild e.bare c
  | inField e f => inField e.bare f
  | inFieldChild e f c => inFieldChild e.bare f c

/-- The state with no members in its entities. -/
def State.bare (s : State) : State := { s with entities := s.entities.map Entity.bare, place := s.place.bare }

variable {s s' : State} {e : OpenEntity} {piece : Markup} {opened : List Text}

theorem closeEntity_bare (e : OpenEntity) : (closeEntity e.bare).bare = (closeEntity e).bare := by
  obtain ⟨entity, name, doc⟩ := e
  cases doc <;> rfl

theorem closeEntityChild_bare (marked : Bool) (e : OpenEntity) (c : Collected) :
    (closeEntityChild marked e.bare c).map OpenEntity.bare = (closeEntityChild marked e c).map OpenEntity.bare := by
  have kind : e.bare.entity.kind = e.entity.kind := rfl
  simp only [closeEntityChild, kind]
  split
  · cases textOf marked c <;> rfl
  · split
    · cases textOf marked c <;> rfl
    · split
      · cases textOf marked c with
        | error error => rfl
        | ok text =>
          rw [ok_bind, ok_bind]
          cases readCase e.entity.kind.backing c.tag (some text) <;> rfl
      · rfl

@[simp] theorem OpenEntity.bare_entity (e : OpenEntity) : e.bare.entity = e.entity.bare := rfl

@[simp] theorem OpenEntity.bare_name (e : OpenEntity) : e.bare.name = e.name := rfl

@[simp] theorem OpenEntity.bare_constructorDoc (e : OpenEntity) : e.bare.constructorDoc = e.constructorDoc := rfl

@[simp] theorem OpenEntity.bare_mk (entity : Entity) (name : Text) (doc : Option Text) :
    OpenEntity.bare ⟨entity, name, doc⟩ = ⟨entity.bare, name, doc⟩ := rfl

@[simp] theorem OpenEntity.bare_bare (e : OpenEntity) : e.bare.bare = e.bare := rfl

@[simp] theorem Place.bare_bare (place : Place) : place.bare.bare = place.bare := by
  cases place <;> rfl

@[simp] theorem State.bare_bare (s : State) : s.bare.bare = s.bare := by
  simp [State.bare]

theorem stepOutside_bare (s : State) (piece : Markup) :
    (stepOutside s.bare piece).map State.bare = (stepOutside s piece).map State.bare := by
  have scope : s.bare.scope = s.scope := rfl
  cases piece with
  | opening tag =>
    simp only [stepOutside, scope]
    split
    · cases readNamespace tag <;> simp [Except.map, State.bare]
    · split
      · cases readEntity s.scope tag <;> simp [Except.map, State.bare]
      · simp [Except.map]
  | selfClosing tag =>
    simp only [stepOutside, scope]
    split
    · cases readEntity s.scope tag <;> simp [Except.map, State.bare]
    · simp [Except.map]
  | closing ending => simp [stepOutside, Except.map]
  | inert source => simp [stepOutside, Except.map]

theorem stepInEntity_bare (s : State) (e : OpenEntity) (piece : Markup) :
    (stepInEntity s.bare e.bare piece).map State.bare = (stepInEntity s e piece).map State.bare := by
  have kind : e.bare.entity.kind = e.entity.kind := rfl
  cases piece with
  | opening tag =>
    simp only [stepInEntity]
    split
    · cases readField tag <;> simp [Except.map, State.bare, Place.bare]
    · simp [Except.map, State.bare, Place.bare]
  | selfClosing tag =>
    simp only [stepInEntity, kind]
    split
    · cases readField tag <;> simp [Except.map, State.bare, Place.bare]
    · split
      · cases readCase e.entity.kind.backing tag none <;> simp [Except.map, State.bare, Place.bare]
      · simp [Except.map]
  | closing ending => simp [stepInEntity, Except.map, State.bare, Place.bare, closeEntity_bare]
  | inert source => simp [stepInEntity, Except.map]

theorem stepInField_bare (s : State) (e : OpenEntity) (f : OpenField) (piece : Markup) :
    (stepInField s.bare e.bare f piece).map State.bare = (stepInField s e f piece).map State.bare := by
  cases piece with
  | opening tag => simp [stepInField, Except.map, State.bare, Place.bare]
  | closing ending => simp [stepInField, Except.map, State.bare, Place.bare]
  | selfClosing tag => simp [stepInField, Except.map]
  | inert source => simp [stepInField, Except.map]

/-- Members make no difference to what a piece does. -/
theorem step_bare (s : State) (piece : Markup) : (step s.bare piece).map State.bare = (step s piece).map State.bare := by
  obtain ⟨marked, scope, entities, place⟩ := s
  cases place with
  | outside => exact stepOutside_bare _ piece
  | inEntity e => exact stepInEntity_bare _ e piece
  | inField e f => exact stepInField_bare _ e f piece
  | inEntityChild e c =>
    have closed := closeEntityChild_bare marked e c
    simp only [step, State.bare, Place.bare]
    cases c.add? piece with
    | some child => simp [Except.map, State.bare, Place.bare]
    | none =>
      revert closed
      cases closeEntityChild marked e.bare c <;> cases closeEntityChild marked e c <;>
        simp [Except.map, State.bare, Place.bare]
  | inFieldChild e f c =>
    simp only [step, State.bare, Place.bare]
    cases c.add? piece with
    | some child => simp [Except.map, State.bare, Place.bare]
    | none => cases closeFieldChild marked f c <;> simp [Except.map, State.bare, Place.bare]

/-- Behind the same state, members apart, reading goes on the same. -/
theorem alike_step_bare (same : s.bare = s'.bare) (piece : Markup) :
    Alike (fun _ => False) (fun t t' => t.bare = t'.bare) (step s piece) (step s' piece) := by
  have mapped : (step s piece).map State.bare = (step s' piece).map State.bare := by
    rw [← step_bare s, same, step_bare]
  cases hs : step s piece with
  | ok t =>
    rw [hs] at mapped
    obtain ⟨t', ht', same'⟩ := map_eq_ok_iff.1 mapped.symm
    rw [ht']
    exact .ok same'.symm
  | error error =>
    cases hs' : step s' piece with
    | ok t' =>
      rw [hs, hs'] at mapped
      exact absurd mapped (by simp [Except.map])
    | error error' =>
      rw [hs, hs'] at mapped
      obtain rfl : error = error' := Except.error.inj mapped
      exact .error error

theorem alike_finish_bare (same : s.bare = s'.bare) : Alike (fun _ => False) (fun _ _ => True) (finish s) (finish s') := by
  have unfinished (s : State) : s.bare.place.unfinished = s.place.unfinished := by
    obtain ⟨marked, scope, entities, place⟩ := s
    cases place <;> rfl
  have empty (s : State) : s.bare.entities.isEmpty = s.entities.isEmpty := List.isEmpty_map
  rw [finish, finish, ← unfinished s, ← empty s, same, unfinished s', empty s']
  split
  · exact .error _
  · split
    · exact .error _
    · exact .ok trivial

/-- Whether a document is accepted does not depend on the members that were read. -/
theorem resume_accepts_iff (same : s.bare = s'.bare) (t : Text) :
    (∃ es, resume opened s t = .ok es) ↔ ∃ es, resume opened s' t = .ok es := by
  have alike : Alike (fun _ => False) (fun _ _ => True) (resume opened s t) (resume opened s' t) := by
    refine (Alike.foldlM (fun _ _ piece h => alike_step_bare h piece) same _).bind fun _ _ h => ?_
    cases (Markup.readIn opened t).fault with
    | some fault => exact .error _
    | none => exact alike_finish_bare h
  revert alike
  generalize resume opened s t = answer
  generalize resume opened s' t = answer'
  intro alike
  cases alike with
  | ok => simp
  | error => simp
  | left never => exact never.elim
  | right _ never => exact never.elim

/-! ## Members stay -/

/-- The entity whose end tag is still to come. -/
def Place.entity? : Place → Option Entity
  | outside => none
  | inEntity e => some e.entity
  | inEntityChild e _ => some e.entity
  | inField e _ => some e.entity
  | inFieldChild e _ _ => some e.entity

theorem Place.entity?_of_finished {place : Place} (h : place.unfinished = none) : place.entity? = none := by
  cases place with
  | outside => rfl
  | inEntity e => exact absurd h (by simp [unfinished])
  | inEntityChild e c => exact absurd h (by simp [unfinished])
  | inField e f => exact absurd h (by simp [unfinished])
  | inFieldChild e f c => exact absurd h (by simp [unfinished])

/-- An entity of the kind has the member, be it complete or open. -/
def State.Carries (kind : Kind) (m : Member) (s : State) : Prop :=
  (∃ e ∈ s.entities, e.Has kind m) ∨ ∃ e ∈ s.place.entity?, e.Has kind m

variable {kind : Kind} {m : Member}

theorem has_applyConstructorDoc {d : Entity} (h : d.Has kind m) (doc : Option Text) :
    (applyConstructorDoc doc d).Has kind m := by
  cases doc with
  | none => exact h
  | some raw => exact ⟨h.kind, h.member⟩

theorem has_addMember {d : Entity} (h : d.Has kind m) (n : Member) : (d.addMember n).Has kind m :=
  ⟨h.kind, List.mem_append_left _ h.member⟩

theorem has_closeEntityChild {marked : Bool} {e' : OpenEntity} {c : Collected} (h : e.entity.Has kind m)
    (closed : closeEntityChild marked e c = .ok e') : e'.entity.Has kind m := by
  simp only [closeEntityChild] at closed
  split at closed
  · obtain ⟨raw, -, closed⟩ := bind_eq_ok_iff.1 closed
    exact Except.ok.inj closed ▸ ⟨h.kind, h.member⟩
  · split at closed
    · obtain ⟨raw, -, closed⟩ := bind_eq_ok_iff.1 closed
      exact Except.ok.inj closed ▸ h
    · split at closed
      · obtain ⟨text, -, closed⟩ := bind_eq_ok_iff.1 closed
        obtain ⟨n, -, closed⟩ := bind_eq_ok_iff.1 closed
        exact Except.ok.inj closed ▸ has_addMember h n
      · exact Except.ok.inj closed ▸ h

/-- A piece takes no member away. -/
theorem State.Carries.of_step (h : s.Carries kind m) (hs : step s piece = .ok s') : s'.Carries kind m := by
  rcases h with ⟨e, he, has⟩ | ⟨d, here, has⟩
  · exact .inl ⟨e, (Grows.of_step hs).entities.subset he, has⟩
  have moves := moves_of_step hs
  have stays (same : s' = s) : s'.Carries kind m := same ▸ .inr ⟨d, here, has⟩
  generalize s.place = place at moves here
  cases moves with
  | outside other => exact absurd here (Option.not_mem_none d)
  | scope scope name => exact absurd here (Option.not_mem_none d)
  | entity name read => exact absurd here (Option.not_mem_none d)
  | emptyEntity read => exact absurd here (Option.not_mem_none d)
  | inEntity idle => exact stays rfl
  | field name read => exact .inr ⟨d, here, has⟩
  | child other => exact .inr ⟨d, here, has⟩
  | emptyField read =>
    obtain rfl := Option.some.inj here
    exact .inr ⟨_, rfl, has.kind, has.member⟩
  | emptyCase read =>
    obtain rfl := Option.some.inj here
    exact .inr ⟨_, rfl, has_addMember has _⟩
  | endEntity =>
    obtain rfl := Option.some.inj here
    exact .inl ⟨_, List.mem_append_right _ (List.mem_singleton.2 rfl), has_applyConstructorDoc has _⟩
  | inField idle => exact stays rfl
  | fieldChild => exact .inr ⟨d, here, has⟩
  | endField =>
    obtain rfl := Option.some.inj here
    exact .inr ⟨_, rfl, has.kind, has.member⟩
  | inEntityChild more => exact .inr ⟨d, here, has⟩
  | endEntityChild last closed =>
    obtain rfl := Option.some.inj here
    exact .inr ⟨_, rfl, has_closeEntityChild has closed⟩
  | inFieldChild more => exact .inr ⟨d, here, has⟩
  | endFieldChild last closed => exact .inr ⟨d, here, has⟩

/-- A member that was read is a member of one of the entities of the document. -/
theorem State.Carries.of_resume (h : s.Carries kind m) {t : Text} {es : List Entity}
    (accepted : resume opened s t = .ok es) : ∃ e ∈ es, e.Has kind m := by
  obtain ⟨final, run, accepted⟩ := bind_eq_ok_iff.1 accepted
  have carries : final.Carries kind m := foldlM_invariant (fun h hs => h.of_step hs) _ run h
  split at accepted
  · exact absurd accepted (by simp)
  · obtain ⟨complete, -, rfl⟩ := finish_eq_ok_iff.1 accepted
    rcases carries with found | ⟨d, here, has⟩
    · exact found
    · rw [Place.entity?_of_finished complete] at here
      exact absurd here (Option.not_mem_none d)

end Document

end DeclGen
