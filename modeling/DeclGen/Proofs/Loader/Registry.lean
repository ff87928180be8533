import DeclGen.Loader.Registry
import DeclGen.Proofs.Name

/-!
# What references stand for in a registry

* `Loader.Answers`, `Loader.Bounded` : the names a loader gives, and that `bound` bounds them;
* `Registry.exists_of_resolve` : a reference stands for an entity of the registry;
* `Registry.resolve_isSome` : the name of an entity stands for one in every scope;
* `Registry.resolve_outside` : how references are resolved from outside every scope;
* `Registry.WellNamed`, `Registry.short_of_resolve` : entities under their own short names are found
  under the short name of the reference.
-/

namespace DeclGen

/-- The loader gives `name` for some reference. -/
def Loader.Answers (loader : Loader) (name : Text) : Prop :=
  ∃ reference scope, loader.resolve reference scope = some name

/-- The loader gives at most `bound` names. -/
def Loader.Bounded (loader : Loader) : Prop :=
  ∀ names : List Text, names.Nodup → (∀ name ∈ names, loader.Answers name) →
    names.length ≤ loader.bound

/-- The entity is named by the last segment of its qualified name. -/
def Entity.WellNamed (e : Entity) : Prop := e.shortName = Name.short e.qualifiedName

theorem Entity.wellNamed_ofName (kind : Kind) (name : Text) : (Entity.ofName kind name).WellNamed := rfl

namespace Registry
variable {r : Registry} {reference scope name : Text}

/-- All entities are named by the last segments of their qualified names. -/
def WellNamed (r : Registry) : Prop := ∀ e ∈ r.entities, e.WellNamed

theorem get?_of_contains (h : r.contains name = true) : ∃ e, r.get? name = some e :=
  Option.isSome_iff_exists.1 h

theorem contains_of_mem {e : Entity} (h : e ∈ r.entities) : r.contains e.qualifiedName = true := by
  rw [contains, get?, List.find?_isSome]
  exact ⟨e, h, decide_eq_true rfl⟩

theorem mem_of_get? {e : Entity} (h : r.get? name = some e) :
    e ∈ r.entities ∧ e.qualifiedName = name :=
  ⟨List.mem_of_find?_eq_some h, by simpa using List.find?_some h⟩

theorem mem_of_onlyNamed {short : Text} (h : r.onlyNamed short = some name) :
    ∃ e ∈ r.entities, e.shortName = short ∧ e.qualifiedName = name := by
  rw [onlyNamed] at h
  split at h
  · next e he =>
    have hm : e ∈ r.entities.filter (·.shortName = short) := by rw [he]; exact List.mem_cons_self
    obtain ⟨hmem, hs⟩ := List.mem_filter.1 hm
    exact ⟨e, hmem, of_decide_eq_true hs, Option.some.inj h⟩
  · exact absurd h (by simp)

/-- The two ways in which a reference is resolved. -/
theorem resolve_cases (h : r.resolve reference scope = some name) :
    (name ∈ Loader.candidates reference scope ∧ r.contains name = true) ∨
      Name.isQualified reference = false ∧ r.onlyNamed (Name.short reference) = some name := by
  rw [resolve] at h
  split at h
  · next found hf =>
    obtain rfl := Option.some.inj h
    exact Or.inl ⟨List.mem_of_find?_eq_some hf, List.find?_some hf⟩
  · split at h
    · exact absurd h (by simp)
    · next hq => exact Or.inr ⟨Bool.eq_false_iff.2 hq, h⟩

/-- A reference stands for an entity of the registry. -/
theorem exists_of_resolve (h : r.resolve reference scope = some name) :
    ∃ e, r.get? name = some e := by
  rcases resolve_cases h with ⟨-, hc⟩ | ⟨-, ho⟩
  · exact get?_of_contains hc
  · obtain ⟨e, he, -, rfl⟩ := mem_of_onlyNamed ho
    exact get?_of_contains (contains_of_mem he)

theorem normalize_mem_candidates (reference scope : Text) :
    Name.normalize reference ∈ Loader.candidates reference scope := by
  rw [Loader.candidates]
  split <;> simp

/-- The name of an entity stands for one, if it is a reference, in every scope. -/
theorem resolve_isSome (hr : Name.IsReference reference) {e : Entity}
    (h : r.get? reference = some e) (scope : Text) : ∃ name, r.resolve reference scope = some name := by
  have hm := normalize_mem_candidates reference scope
  rw [Name.normalize_eq_self hr] at hm
  have hfound : ((Loader.candidates reference scope).find? r.contains).isSome = true := by
    rw [List.find?_isSome]
    exact ⟨reference, hm, Option.isSome_iff_exists.2 ⟨e, h⟩⟩
  obtain ⟨name, hn⟩ := Option.isSome_iff_exists.1 hfound
  exact ⟨name, by rw [resolve, hn]⟩

/-- Resolving keeps the short name of a reference. -/
theorem short_of_resolve (hw : r.WellNamed) (hr : Name.IsReference reference)
    (h : r.resolve reference scope = some name) : Name.short name = Name.short reference := by
  rcases resolve_cases h with ⟨hc, -⟩ | ⟨-, ho⟩
  · have hn := Name.normalize_eq_self hr
    rw [Loader.candidates, hn] at hc
    split at hc
    · rw [List.mem_singleton.1 hc]
    · rcases List.mem_cons.1 hc with rfl | hc
      · exact Name.short_join hr.unblank scope
      · rw [List.mem_singleton.1 hc]
  · obtain ⟨e, he, hs, rfl⟩ := mem_of_onlyNamed ho
    rw [← hw e he, hs]

theorem loader_bounded (r : Registry) : r.loader.Bounded := by
  intro names hn ha
  have hsub : names ⊆ r.names := by
    intro name hm
    obtain ⟨reference, scope, h⟩ := ha name hm
    obtain ⟨e, he⟩ := exists_of_resolve (r := r) h
    obtain ⟨hmem, rfl⟩ := mem_of_get? he
    exact List.mem_map_of_mem hmem
  have hle := hn.length_le_of_subset hsub
  rwa [Registry.names, List.length_map] at hle

theorem get?_of_load {e : Entity} (h : r.loader.load name = .ok e) : r.get? name = some e := by
  change r.load name = .ok e at h
  rw [load] at h
  split at h
  · exact absurd h (by simp)
  · next d hd =>
    split at h
    · rw [hd, Except.ok.inj h]
    · exact absurd h (by simp)

/-! ## The entities of a list -/

theorem mem_insertIn {d e : Entity} {es : List Entity} (h : d ∈ insertIn e es) : d = e ∨ d ∈ es := by
  induction es with
  | nil => exact Or.inl (List.mem_singleton.1 h)
  | cons c cs ih =>
    unfold insertIn at h
    split at h
    · rcases List.mem_cons.1 h with rfl | h
      · exact Or.inl rfl
      · exact Or.inr (List.mem_cons_of_mem _ h)
    · rcases List.mem_cons.1 h with rfl | h
      · exact Or.inr List.mem_cons_self
      · exact (ih h).imp_right (List.mem_cons_of_mem _)

theorem mem_extend {es : List Entity} {e : Entity} (h : e ∈ (r.extend es).entities) :
    e ∈ r.entities ∨ e ∈ es := by
  induction es generalizing r with
  | nil => exact Or.inl h
  | cons d es ih =>
    rcases ih h with h | h
    · rcases mem_insertIn h with rfl | h
      · exact Or.inr List.mem_cons_self
      · exact Or.inl h
    · exact Or.inr (List.mem_cons_of_mem _ h)

theorem contains_extend {es : List Entity} (h : r.contains name = true ∨ name ∈ es.map Entity.qualifiedName) :
    (r.extend es).contains name = true := by
  induction es generalizing r with
  | nil => exact h.resolve_right (by simp)
  | cons e es ih =>
    refine ih ?_
    by_cases hn : name = e.qualifiedName
    · left
      rw [contains, get?_insert, if_pos hn]
      rfl
    · rw [contains, get?_insert, if_neg hn]
      rw [List.map_cons, List.mem_cons] at h
      exact h.imp_right fun h => h.resolve_left hn

theorem wellNamed_extend {es : List Entity} (h : ∀ e ∈ es, e.WellNamed) :
    (empty.extend es).WellNamed := by
  intro e he
  rcases mem_extend he with he | he
  · exact absurd he (by simp [empty])
  · exact h e he

/-- From outside every scope, a reference is looked up under its normal form, and then by its short name. -/
theorem resolve_outside (r : Registry) (reference : Text) : r.resolve reference [] =
    if r.contains (Name.normalize reference) then some (Name.normalize reference)
    else if Name.isQualified reference then none else r.onlyNamed (Name.short reference) := by
  have hc : Loader.candidates reference [] = [Name.normalize reference] := by simp [Loader.candidates]
  rw [resolve, hc, List.find?_singleton]
  cases r.contains (Name.normalize reference) with
  | true => rfl
  | false => rfl

/-- From outside every scope, a registered name in normal form stands for itself. -/
theorem resolve_self (h : r.contains name = true) (hn : Name.normalize name = name) :
    r.resolve name [] = some name := by
  rw [resolve_outside, hn, if_pos h]

end Registry
end DeclGen
