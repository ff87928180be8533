import DeclGen.Proofs.Distinct
import DeclGen.Proofs.Loader.Registry

/-!
# The order of a registry

A registry keeps its entities in the order of their insertion, and finds them by going through them.
With distinct names at most one entity answers a look-up, and a short name is unique in one order iff it
is in every other, so nothing that is found depends on the order.

* `Registry.get?_of_mem`, `Registry.load_of_valid` : entities are found and loaded under their names;
* `Registry.entities_ofList` : a registry keeps a list with distinct names as it is;
* `Registry.Rearranges` : the same entities in another order; `Rearranges.loader_eq` : the same loader;
* `Registry.rearranges_of_mem_iff`, `Registry.rearranges_of_perm` : registries with the same set of
  entities, or filled from the same list in another order.
-/

namespace DeclGen

namespace Registry
variable {r r' : Registry} {name : Text}

/-! ## Distinct names -/

theorem nodup_names_extend {es : List Entity} (h : r.names.Nodup) : (r.extend es).names.Nodup := by
  induction es generalizing r with
  | nil => exact h
  | cons e es ih => exact ih (nodup_names_insert e h)

theorem nodup_names_ofList (es : List Entity) : (empty.extend es).names.Nodup :=
  nodup_names_extend List.nodup_nil

theorem nodup_entities (distinct : r.names.Nodup) : r.entities.Nodup := List.Nodup.of_map _ distinct

theorem get?_of_mem {e : Entity} (distinct : r.names.Nodup) (he : e ∈ r.entities) : r.get? e.qualifiedName = some e :=
  (find?_eq_some_iff_of_nodup distinct).2 ⟨he, rfl⟩

theorem load_of_valid {e : Entity} (distinct : r.names.Nodup) (he : e ∈ r.entities)
    (valid : e.validate = .ok ()) : r.load e.qualifiedName = .ok e := by
  simp only [load, get?_of_mem distinct he, valid]

theorem insertIn_of_notMem {e : Entity} {es : List Entity}
    (h : e.qualifiedName ∉ es.map Entity.qualifiedName) : insertIn e es = es ++ [e] := by
  induction es with
  | nil => rfl
  | cons d es ih =>
    rw [List.map_cons, List.mem_cons, not_or] at h
    rw [insertIn, if_neg (Ne.symm h.1), ih h.2, List.cons_append]

/-- A registry keeps a list of entities with distinct names as it is. -/
theorem entities_ofList {es : List Entity} (h : (es.map Entity.qualifiedName).Nodup) :
    (empty.extend es).entities = es := by
  have go : ∀ (added : List Entity) (r : Registry),
      ((r.entities ++ added).map Entity.qualifiedName).Nodup →
        (r.extend added).entities = r.entities ++ added := by
    intro added
    induction added with
    | nil => exact fun r _ => (List.append_nil r.entities).symm
    | cons e added ih =>
      intro r hn
      have fresh : e.qualifiedName ∉ r.entities.map Entity.qualifiedName := by
        rw [List.map_append, List.map_cons, List.nodup_append] at hn
        exact fun hm => hn.2.2 _ hm _ List.mem_cons_self rfl
      have inserted : (r.insert e).entities = r.entities ++ [e] := insertIn_of_notMem fresh
      have more := ih (r.insert e) (by rwa [inserted, List.append_assoc, List.singleton_append])
      rwa [inserted, List.append_assoc, List.singleton_append] at more
  exact go es empty h

theorem onlyNamed_eq_some_iff {short : Text} : r.onlyNamed short = some name ↔
    ∃ e, r.entities.filter (·.shortName = short) = [e] ∧ e.qualifiedName = name := by
  unfold onlyNamed
  constructor
  · intro h
    split at h
    · next e he => exact ⟨e, he, Option.some.inj h⟩
    · exact absurd h (by simp)
  · rintro ⟨e, he, rfl⟩
    rw [he]

/-! ## Another order -/

/-- The registries have the same entities, under distinct names, each in an order of its own. -/
structure Rearranges (r r' : Registry) : Prop where
  nodup : r.names.Nodup
  perm : r.entities.Perm r'.entities

/-- Registries with distinct names and the same set of entities rearrange each other. -/
theorem rearranges_of_mem_iff (h : r.names.Nodup) (h' : r'.names.Nodup)
    (same : ∀ e, e ∈ r.entities ↔ e ∈ r'.entities) : r.Rearranges r' := by
  have hr : r.entities.Nodup := h.of_map _
  have hr' : r'.entities.Nodup := h'.of_map _
  exact ⟨h, (List.perm_ext_iff_of_nodup hr hr').2 same⟩

/-- Registries filled from the same entities, with distinct names, in another order. -/
theorem rearranges_of_perm {es es' : List Entity} (h : (es.map Entity.qualifiedName).Nodup)
    (perm : es.Perm es') : (empty.extend es).Rearranges (empty.extend es') := by
  have h' : (es'.map Entity.qualifiedName).Nodup := (perm.map Entity.qualifiedName).nodup_iff.1 h
  refine ⟨nodup_names_ofList es, ?_⟩
  rwa [entities_ofList h, entities_ofList h']

namespace Rearranges

theorem get?_eq (h : r.Rearranges r') (name : Text) : r.get? name = r'.get? name :=
  find?_eq_of_perm h.nodup h.perm name

theorem contains_eq (h : r.Rearranges r') : r.contains = r'.contains := by
  funext name
  rw [contains, contains, h.get?_eq]

/-- The entities with a short name are the same in both orders, so one alone is alone in both. -/
theorem onlyNamed_eq (h : r.Rearranges r') (short : Text) : r.onlyNamed short = r'.onlyNamed short := by
  have named := h.perm.filter (·.shortName = short)
  have alone : ∀ e, r.entities.filter (·.shortName = short) = [e] ↔
      r'.entities.filter (·.shortName = short) = [e] := by
    intro e
    rw [← List.perm_singleton, ← List.perm_singleton]
    exact ⟨named.symm.trans, named.trans⟩
  ext name
  simp only [onlyNamed_eq_some_iff, alone]

theorem resolve_eq (h : r.Rearranges r') (reference scope : Text) :
    r.resolve reference scope = r'.resolve reference scope := by
  rw [resolve, resolve, h.contains_eq, h.onlyNamed_eq]

theorem load_eq (h : r.Rearranges r') (name : Text) : r.load name = r'.load name := by
  rw [load, load, h.get?_eq]

/-- In another order, a registry is the same loader. -/
theorem loader_eq (h : r.Rearranges r') : r.loader = r'.loader := by
  have resolves : r.resolve = r'.resolve := funext fun reference => funext (h.resolve_eq reference)
  have loads : r.load = r'.load := funext h.load_eq
  rw [loader, loader, resolves, loads, h.perm.length_eq]

end Rearranges

end Registry

end DeclGen
