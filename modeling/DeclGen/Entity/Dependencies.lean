import DeclGen.Name

/-!
# The entities that an entity refers to

* `Dependencies` : references with distinct short names, in the order of their discovery, and the
  references whose short name another one had taken;
* `Dependencies.insert` : adds a reference, `Dependencies.get?` looks one up;
* `Dependencies.add` : adds a reference and tells whether it is the first one with its short name.
-/

namespace DeclGen

/-- References with distinct short names. -/
structure Dependencies where
  /-- Short names and normalized references, in the order of discovery. -/
  entries : List (Text × Text)
  /-- Normalized references whose short name was taken by another reference. -/
  shadowed : List Text
  deriving DecidableEq, Repr

namespace Dependencies

/-- No references. -/
def empty : Dependencies := ⟨[], []⟩

/-- The reference that a short name stands for. -/
def get? (d : Dependencies) (short : Text) : Option Text := d.entries.lookup short

/-- Is there a reference with this short name? -/
def contains (d : Dependencies) (short : Text) : Bool := (d.get? short).isSome

/-- The short names, in the order of discovery. -/
def names (d : Dependencies) : List Text := d.entries.map Prod.fst

/-- Adds a reference; the first one with a short name keeps it. -/
def insert (d : Dependencies) (reference : Text) : Dependencies :=
  let short := Name.short reference
  let written := Name.normalize reference
  match d.get? short with
  | none => { d with entries := d.entries ++ [(short, written)] }
  | some kept =>
    if kept = written || written ∈ d.shadowed then d
    else { d with shadowed := d.shadowed ++ [written] }

/-- Adds a reference, and tells whether its short name was new. -/
def add (d : Dependencies) (reference : Text) : Dependencies × Bool :=
  (d.insert reference, !d.contains (Name.short reference))

/-- The short names are those of the inserted references, each at its first occurrence. -/
theorem names_insert (d : Dependencies) (reference : Text) :
    (d.insert reference).names =
      if Name.short reference ∈ d.names then d.names else d.names ++ [Name.short reference] := by
  cases h : d.get? (Name.short reference) with
  | none =>
    have absent : Name.short reference ∉ d.names := by
      simp only [get?, List.lookup_eq_none_iff] at h
      simp only [names, List.mem_map, not_exists, not_and]
      intro p hp hs
      simpa [hs] using h p hp
    rw [if_neg absent]
    simp [insert, h, names]
  | some kept =>
    have present : Name.short reference ∈ d.names := by
      obtain ⟨before, after, h, _⟩ := List.lookup_eq_some_iff.1 h
      simp [names, h]
    rw [if_pos present]
    simp only [insert, h]
    split <;> rfl

end Dependencies

end DeclGen
