import DeclGen.Proofs.Document.Attributes
import DeclGen.Proofs.Document.Keeping
import DeclGen.Proofs.Loader.Registry

/-!
# The names of the entities of a document

An entity gets its two names from its start tag, and nothing behind it changes them.

* `Entity.NamedBy` : the entity has the names that a new entity gets from a name;
* `readEntity_namedBy` : the start tag names the entity in this way;
* `Document.parse_namedBy` : so are the entities of a document; `Document.parse_wellNamed` : they are well named.
-/

namespace DeclGen

/-- The entity has the names that a new entity gets from this name. -/
structure Entity.NamedBy (e : Entity) (name : Text) : Prop where
  shortName : e.shortName = Name.short (Name.normalize name)
  qualifiedName : e.qualifiedName = Name.normalize name

theorem Entity.namedBy_ofName (kind : Kind) (name : Text) : (Entity.ofName kind name).NamedBy name := ⟨rfl, rfl⟩

theorem Entity.NamedBy.wellNamed {e : Entity} {name : Text} (h : e.NamedBy name) : e.WellNamed := by
  rw [WellNamed, h.shortName, h.qualifiedName]

namespace Document

theorem readEntity_namedBy {scope content : Text} {read : Entity × Text}
    (h : readEntity scope content = .ok read) : ∃ name, read.1.NamedBy name := by
  obtain ⟨found, name, -, -, rfl⟩ := readEntity_eq_ok_iff.1 h
  exact ⟨_, Entity.namedBy_ofName _ _⟩

theorem applyConstructorDoc_namedBy {e : Entity} {name : Text} (h : e.NamedBy name) (raw : Option Text) :
    (applyConstructorDoc raw e).NamedBy name := by
  unfold applyConstructorDoc
  split
  · exact h
  · exact ⟨h.shortName, h.qualifiedName⟩

theorem keeps_namedBy : Keeps (fun e => ∃ name, e.NamedBy name) fun _ => True where
  start := readEntity_namedBy
  doc h _ := h.imp fun _ named => ⟨named.shortName, named.qualifiedName⟩
  constructorDoc h raw := h.imp fun _ named => applyConstructorDoc_namedBy named raw
  member h _ := h.imp fun _ named => ⟨named.shortName, named.qualifiedName⟩
  field h _ := h.imp fun _ named => ⟨named.shortName, named.qualifiedName⟩
  startField _ := trivial
  typeExpr _ _ := trivial
  finishField _ _ := trivial

/-- The entities of a document are named as new entities are. -/
theorem parse_namedBy {t : Text} {es : List Entity} (h : parse t = .ok es) : ∀ e ∈ es, ∃ name, e.NamedBy name :=
  (keeps_namedBy.parse h).2

/-- The entities of a document are well named. -/
theorem parse_wellNamed {t : Text} {es : List Entity} (h : parse t = .ok es) :
    ∀ e ∈ es, e.WellNamed := by
  intro e he
  obtain ⟨name, named⟩ := parse_namedBy h e he
  exact named.wellNamed

end Document
end DeclGen
