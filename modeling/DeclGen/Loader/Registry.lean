import DeclGen.Document.Reader
import DeclGen.Loader.Basic

/-!
# Entities in memory

* `Registry` : entities with distinct qualified names, in the order of their first insertion;
* `Registry.get?`, `Registry.insert`, `Registry.extend` : look-up and insertion;
* `Registry.ofText` : the entities of a document;
* `Registry.resolve`, `Registry.load`, `Registry.loader` : the registry as a loader.
-/

namespace DeclGen

/-- Entities in the order of their first insertion. -/
structure Registry where
  entities : List Entity

namespace Registry

/-- No entities. -/
def empty : Registry := ⟨[]⟩

/-- The entity of a qualified name. -/
def get? (r : Registry) (name : Text) : Option Entity :=
  r.entities.find? (·.qualifiedName = name)

/-- Is there an entity of this qualified name? -/
def contains (r : Registry) (name : Text) : Bool := (r.get? name).isSome

/-- The qualified names, in order. -/
def names (r : Registry) : List Text := r.entities.map Entity.qualifiedName

/-- Puts an entity into the place of the one with its qualified name, or at the end. -/
def insertIn (e : Entity) : List Entity → List Entity
  | [] => [e]
  | d :: ds => if d.qualifiedName = e.qualifiedName then e :: ds else d :: insertIn e ds

/-- Adds an entity; it takes the place of one with its qualified name. -/
def insert (r : Registry) (e : Entity) : Registry := ⟨insertIn e r.entities⟩

theorem find?_insertIn (e : Entity) (name : Text) (es : List Entity) :
    (insertIn e es).find? (·.qualifiedName = name) =
      if name = e.qualifiedName then some e else es.find? (·.qualifiedName = name) := by
  induction es with
  | nil => grind [insertIn]
  | cons d es ih => grind [insertIn]

theorem get?_insert (r : Registry) (e : Entity) (name : Text) :
    (r.insert e).get? name = if name = e.qualifiedName then some e else r.get? name :=
  find?_insertIn e name r.entities

theorem names_insert (r : Registry) (e : Entity) :
    (r.insert e).names = if e.qualifiedName ∈ r.names then r.names else r.names ++ [e.qualifiedName] := by
  have go : ∀ es : List Entity, (insertIn e es).map Entity.qualifiedName =
      if e.qualifiedName ∈ es.map Entity.qualifiedName then es.map Entity.qualifiedName
      else es.map Entity.qualifiedName ++ [e.qualifiedName] := by
    intro es
    induction es with
    | nil => simp [insertIn]
    | cons d es ih =>
      by_cases h : d.qualifiedName = e.qualifiedName
      · simp [insertIn, h]
      · simp only [insertIn, h, if_false, List.map_cons, ih, List.mem_cons, Ne.symm h, false_or]
        split <;> simp
  exact go r.entities

theorem nodup_names_insert {r : Registry} (e : Entity) (h : r.names.Nodup) :
    (r.insert e).names.Nodup := by
  rw [names_insert]
  split
  · exact h
  · next absent => grind [List.nodup_append]

/-- Adds entities from left to right. -/
def extend (r : Registry) (es : List Entity) : Registry := es.foldl insert r

/-- The entities of a document. -/
def ofText (t : Text) : Except DocumentError Registry := do
  let es ← Document.parse t
  return empty.extend es

/-! ## Loading -/

/-- The qualified name of the only entity with a short name. -/
def onlyNamed (r : Registry) (short : Text) : Option Text :=
  match r.entities.filter (·.shortName = short) with
  | [e] => some e.qualifiedName
  | _ => none

/-- The qualified name that a reference stands for: one of the candidates, or else, for a short
reference, the only entity with that short name. -/
def resolve (r : Registry) (reference scope : Text) : Option Text :=
  match (Loader.candidates reference scope).find? r.contains with
  | some name => some name
  | none => if Name.isQualified reference then none else r.onlyNamed (Name.short reference)

/-- The entity of a qualified name, if it is valid. -/
def load (r : Registry) (name : Text) : Except LoadError Entity :=
  match r.get? name with
  | none => .error (.notFound name)
  | some e =>
    match e.validate with
    | .ok () => .ok e
    | .error error => .error (.invalid error)

/-- The registry as a loader. -/
def loader (r : Registry) : Loader := ⟨r.resolve, r.load, r.entities.length⟩

end Registry

end DeclGen
