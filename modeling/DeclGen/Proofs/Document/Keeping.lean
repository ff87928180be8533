import DeclGen.Proofs.Document.Moves

/-!
# What reading keeps

An entity is made by its start tag, and changed by its children, by its fields, and at its end tag.

* `Keeps` : a property of entities and one of fields that start tags give and that no change takes away;
* `State.Holds` : the entities read so far have the property, the open ones among them;
* `Keeps.step` : one piece of markup keeps this;
* `Keeps.parse` : all entities of a document have the property, and there is one.
-/

namespace DeclGen.Document
open Xml (Markup)

variable {P : Entity → Prop} {F : Field → Prop}

/-- Start tags give the properties, and nothing behind them takes them away. -/
structure Keeps (P : Entity → Prop) (F : Field → Prop) : Prop where
  start : ∀ {scope content read}, readEntity scope content = .ok read → P read.1
  doc : ∀ {e}, P e → ∀ raw, P { e with doc := Docblock.clean raw }
  constructorDoc : ∀ {e}, P e → ∀ raw, P (applyConstructorDoc raw e)
  member : ∀ {e content text m}, P e → readCase e.kind.backing content text = .ok m → P (e.addMember m)
  field : ∀ {e f}, P e → F f → P (e.addField f)
  startField : ∀ {content f}, readField content = .ok f → F f
  typeExpr : ∀ {f text}, F f → Text.trim text ≠ [] → F { f with typeExpr := some (Text.trim text) }
  finishField : ∀ {f}, F f → ∀ raw, F (finishField f raw)

/-- The entity and the field that are open at a place have the properties. -/
def Place.Holds (P : Entity → Prop) (F : Field → Prop) : Place → Prop
  | outside => True
  | inEntity e => P e.entity
  | inEntityChild e _ => P e.entity
  | inField e f => P e.entity ∧ F f.field
  | inFieldChild e f _ => P e.entity ∧ F f.field

/-- What is read so far has the properties. -/
structure State.Holds (P : Entity → Prop) (F : Field → Prop) (s : State) : Prop where
  entities : ∀ e ∈ s.entities, P e
  place : s.place.Holds P F

variable {s s' : State} {piece : Markup}

theorem State.Holds.addEntity (h : s.Holds P F) {e : Entity} (he : P e) : ∀ d ∈ s.entities ++ [e], P d := by
  intro d hd
  rcases List.mem_append.1 hd with hd | hd
  · exact h.entities d hd
  · rw [List.mem_singleton.1 hd]
    exact he

namespace Keeps
variable (keeps : Keeps P F)
include keeps

/-! ## Children -/

theorem closeEntityChild {marked : Bool} {e e' : OpenEntity} {c : Collected} (he : P e.entity)
    (hc : closeEntityChild marked e c = .ok e') : P e'.entity := by
  simp only [Document.closeEntityChild] at hc
  split at hc
  · obtain ⟨raw, -, hc⟩ := bind_eq_ok_iff.1 hc
    obtain rfl := Except.ok.inj hc
    exact keeps.doc he raw
  · split at hc
    · obtain ⟨raw, -, hc⟩ := bind_eq_ok_iff.1 hc
      obtain rfl := Except.ok.inj hc
      exact he
    · split at hc
      · obtain ⟨text, -, hc⟩ := bind_eq_ok_iff.1 hc
        obtain ⟨member, hm, hc⟩ := bind_eq_ok_iff.1 hc
        obtain rfl := Except.ok.inj hc
        exact keeps.member he hm
      · obtain rfl := Except.ok.inj hc
        exact he

theorem closeFieldChild {marked : Bool} {f f' : OpenField} {c : Collected} (hf : F f.field)
    (hc : closeFieldChild marked f c = .ok f') : F f'.field := by
  simp only [Document.closeFieldChild] at hc
  split at hc
  · obtain ⟨raw, -, hc⟩ := bind_eq_ok_iff.1 hc
    obtain rfl := Except.ok.inj hc
    exact hf
  · split at hc
    · obtain ⟨text, -, hc⟩ := bind_eq_ok_iff.1 hc
      split at hc
      · obtain rfl := Except.ok.inj hc
        exact hf
      · next nonempty =>
        obtain rfl := Except.ok.inj hc
        exact keeps.typeExpr hf nonempty
    · obtain rfl := Except.ok.inj hc
      exact hf

/-! ## Pieces -/

/-- A piece of markup takes nothing away. -/
theorem step (h : s.Holds P F) (hs : step s piece = .ok s') : s'.Holds P F := by
  have moves := moves_of_step hs
  have here := h.place
  generalize s.place = place at moves here
  cases moves with
  | outside other => exact h
  | scope scope name => exact ⟨h.entities, h.place⟩
  | entity name read => exact ⟨h.entities, keeps.start read⟩
  | emptyEntity read => exact ⟨h.addEntity (keeps.start read), h.place⟩
  | inEntity idle => exact h
  | field name read => exact ⟨h.entities, here, keeps.startField read⟩
  | child other => exact ⟨h.entities, here⟩
  | emptyField read => exact ⟨h.entities, keeps.field here (keeps.startField read)⟩
  | emptyCase read => exact ⟨h.entities, keeps.member here read⟩
  | @endEntity e => exact ⟨h.addEntity (keeps.constructorDoc here e.constructorDoc), trivial⟩
  | inField idle => exact h
  | fieldChild => exact ⟨h.entities, here⟩
  | @endField e f => exact ⟨h.entities, keeps.field here.1 (keeps.finishField here.2 f.doc)⟩
  | inEntityChild more => exact ⟨h.entities, here⟩
  | endEntityChild last closed => exact ⟨h.entities, keeps.closeEntityChild here closed⟩
  | inFieldChild more => exact ⟨h.entities, here⟩
  | endFieldChild last closed => exact ⟨h.entities, here.1, keeps.closeFieldChild here.2 closed⟩

/-! ## Documents -/

theorem parseText {marked : Bool} {t : Text} {es : List Entity} (h : parseText marked t = .ok es) :
    es ≠ [] ∧ ∀ e ∈ es, P e := by
  have hstart : (Document.start marked).Holds P F := ⟨fun e he => absurd he List.not_mem_nil, trivial⟩
  obtain ⟨final, hf, h⟩ := bind_eq_ok_iff.1 h
  have hfinal : final.Holds P F := foldlM_invariant (fun h hs => keeps.step h hs) _ hf hstart
  split at h
  · exact absurd h (by simp)
  · obtain ⟨-, nonempty, rfl⟩ := finish_eq_ok_iff.1 h
    exact ⟨nonempty, hfinal.entities⟩

/-- A document has entities, and all of them have the property. -/
theorem parse {t : Text} {es : List Entity} (h : parse t = .ok es) : es ≠ [] ∧ ∀ e ∈ es, P e := by
  unfold Document.parse at h
  split at h
  · exact keeps.parseText h
  · exact keeps.parseText h

end Keeps

end DeclGen.Document
