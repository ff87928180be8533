import DeclGen.Proofs.TypeExpr.Denotation

/-!
# Recorded references

* `Dependencies.Grows d d'` : no reference of `d` is lost in `d'`;
* `Dependencies.Good` : entries stand under their short names, and whatever is shadowed lost its
  short name to an entry;
* `Dependencies.Records` : a reference is an entry or shadowed;
* `Entity.good_dependencies`, `Entity.records_dependencies` : the dependencies of an entity.
-/

namespace DeclGen
namespace Dependencies

/-- No reference of `d` is lost in `d'`. -/
structure Grows (d d' : Dependencies) : Prop where
  entries : ∀ p ∈ d.entries, p ∈ d'.entries
  shadowed : ∀ written ∈ d.shadowed, written ∈ d'.shadowed
  get? : ∀ short kept, d.get? short = some kept → d'.get? short = some kept

theorem Grows.refl (d : Dependencies) : Grows d d := ⟨fun _ h => h, fun _ h => h, fun _ _ h => h⟩

theorem Grows.trans {d₁ d₂ d₃ : Dependencies} (h₁ : Grows d₁ d₂) (h₂ : Grows d₂ d₃) : Grows d₁ d₃ :=
  ⟨fun p h => h₂.entries p (h₁.entries p h), fun w h => h₂.shadowed w (h₁.shadowed w h),
    fun s k h => h₂.get? s k (h₁.get? s k h)⟩

/-- Entries stand under their short names, and a shadowed reference lost its short name to one. -/
structure Good (d : Dependencies) : Prop where
  entries : ∀ p ∈ d.entries, Name.IsReference p.2 ∧ p.1 = Name.short p.2
  shadowed : ∀ written ∈ d.shadowed, ∃ kept, d.get? (Name.short written) = some kept

/-- The reference is an entry or shadowed. -/
def Records (d : Dependencies) (reference : Text) : Prop :=
  (Name.short reference, reference) ∈ d.entries ∨ reference ∈ d.shadowed

theorem good_empty : Good empty := ⟨fun p h => absurd h (by simp [empty]), fun w h => absurd h (by simp [empty])⟩

theorem Records.mono {d d' : Dependencies} (h : Grows d d') {reference : Text}
    (hr : d.Records reference) : d'.Records reference :=
  hr.imp (h.entries _) (h.shadowed _)

theorem mem_of_get? {d : Dependencies} {short written : Text} (h : d.get? short = some written) :
    (short, written) ∈ d.entries := by
  obtain ⟨before, after, he, -⟩ := List.lookup_eq_some_iff.1 h
  rw [he]
  simp

/-- The three ways in which a reference is inserted. -/
theorem insert_cases (d : Dependencies) (reference : Text) :
    (d.get? (Name.short reference) = none ∧ d.insert reference =
      { d with entries := d.entries ++ [(Name.short reference, Name.normalize reference)] }) ∨
    ∃ kept, d.get? (Name.short reference) = some kept ∧
      ((kept = Name.normalize reference ∨ Name.normalize reference ∈ d.shadowed) ∧
          d.insert reference = d ∨
        d.insert reference = { d with shadowed := d.shadowed ++ [Name.normalize reference] }) := by
  cases h : d.get? (Name.short reference) with
  | none =>
    left
    simp only [insert, h, true_and]
  | some kept =>
    right
    refine ⟨kept, rfl, ?_⟩
    by_cases hdrop : kept = Name.normalize reference ∨ Name.normalize reference ∈ d.shadowed
    · left
      refine ⟨hdrop, ?_⟩
      simp only [insert, h]
      exact if_pos (by simpa using hdrop)
    · right
      simp only [insert, h]
      exact if_neg (by simpa using hdrop)

/-- What inserting a reference does. -/
theorem insert_spec {d : Dependencies} (h : d.Good) {reference : Text}
    (hr : Name.IsReference reference) :
    Grows d (d.insert reference) ∧ (d.insert reference).Good ∧ (d.insert reference).Records reference := by
  have hw := Name.normalize_eq_self hr
  have hcases := insert_cases d reference
  rw [hw] at hcases
  rcases hcases with ⟨hget, hins⟩ | ⟨kept, hget, ⟨hdrop, hins⟩ | hins⟩
  · have hkeep : ∀ short kept, d.get? short = some kept → (d.insert reference).get? short = some kept := by
      intro short kept hk
      rw [Dependencies.get?] at hk ⊢
      rw [hins, List.lookup_append, hk, Option.some_or]
    rw [hins] at hkeep ⊢
    refine ⟨⟨fun p hp => List.mem_append_left _ hp, fun w hs => hs, hkeep⟩, ⟨?_, ?_⟩, Or.inl ?_⟩
    · intro p hp
      rcases List.mem_append.1 hp with hp | hp
      · exact h.entries p hp
      · obtain rfl := List.mem_singleton.1 hp
        exact ⟨hr, rfl⟩
    · intro w hs
      obtain ⟨kept, hk⟩ := h.shadowed w hs
      exact ⟨kept, hkeep _ _ hk⟩
    · exact List.mem_append_right _ List.mem_cons_self
  · rw [hins]
    refine ⟨Grows.refl d, h, ?_⟩
    rcases hdrop with rfl | hs
    · exact Or.inl (mem_of_get? hget)
    · exact Or.inr hs
  · rw [hins]
    refine ⟨⟨fun p hp => hp, fun w hs => List.mem_append_left _ hs, fun _ _ hk => hk⟩,
      ⟨h.entries, ?_⟩, Or.inr (List.mem_append_right _ List.mem_cons_self)⟩
    intro w hs
    rcases List.mem_append.1 hs with hs | hs
    · exact h.shadowed w hs
    · obtain rfl := List.mem_singleton.1 hs
      exact ⟨kept, hget⟩

/-- Inserting references records each of them. -/
theorem foldl_insert_spec {references : List Text} (hr : ∀ r ∈ references, Name.IsReference r) :
    ∀ {d : Dependencies}, d.Good →
      Grows d (references.foldl insert d) ∧ (references.foldl insert d).Good ∧
        ∀ r ∈ references, (references.foldl insert d).Records r := by
  induction references with
  | nil => exact fun h => ⟨Grows.refl _, h, fun r hr => absurd hr (by simp)⟩
  | cons reference references ih =>
    intro d h
    rw [List.forall_mem_cons] at hr
    obtain ⟨hg, hgood, hrec⟩ := insert_spec h hr.1
    obtain ⟨hgs, hgoods, hrecs⟩ := ih hr.2 hgood
    exact ⟨hg.trans hgs, hgoods, List.forall_mem_cons.2 ⟨hrec.mono hgs, hrecs⟩⟩

/-! ## Look-up -/

theorem get?_insert (d : Dependencies) (reference short : Text) :
    (d.insert reference).get? short = (d.get? short).or
      (if Name.short reference = short then some (Name.normalize reference) else none) := by
  by_cases hs : Name.short reference = short
  · subst hs
    rw [if_pos rfl]
    rcases insert_cases d reference with ⟨hget, hins⟩ | ⟨kept, hget, ⟨-, hins⟩ | hins⟩
    · rw [hget, hins, get?, List.lookup_append, ← get?, hget]
      simp
    · rw [hins, hget, Option.some_or]
    · rw [hins, hget, Option.some_or]
      exact hget
  · rw [if_neg hs, Option.or_none]
    rcases insert_cases d reference with ⟨hget, hins⟩ | ⟨kept, hget, ⟨-, hins⟩ | hins⟩
    · have hne : (short == Name.short reference) = false := by simpa using Ne.symm hs
      rw [hins, get?, List.lookup_append, List.lookup_cons, hne]
      exact Option.or_none
    · rw [hins]
    · rw [hins]
      rfl

/-- An entry is the first reference with its short name. -/
theorem get?_foldl_insert (references : List Text) (d : Dependencies) (short : Text) :
    (references.foldl insert d).get? short = (d.get? short).or
      ((references.find? (Name.short · = short)).map Name.normalize) := by
  induction references generalizing d with
  | nil => simp
  | cons reference references ih =>
    rw [List.foldl_cons, ih, get?_insert, Option.or_assoc, List.find?_cons]
    by_cases hs : Name.short reference = short
    · simp [hs]
    · simp [hs]

theorem nodup_names_foldl_insert {references : List Text} {d : Dependencies} (h : d.names.Nodup) :
    (references.foldl insert d).names.Nodup := by
  induction references generalizing d with
  | nil => exact h
  | cons reference references ih =>
    refine ih ?_
    rw [names_insert]
    split
    · exact h
    · next absent => exact List.nodup_append.2 ⟨h, by simp, by grind⟩

theorem get?_eq_some_iff {d : Dependencies} (h : d.names.Nodup) {short written : Text} :
    d.get? short = some written ↔ (short, written) ∈ d.entries := by
  refine ⟨mem_of_get?, fun hm => ?_⟩
  obtain ⟨before, after, he⟩ := List.append_of_mem hm
  refine List.lookup_eq_some_iff.2 ⟨before, after, he, fun p hp => ?_⟩
  rw [names, he, List.map_append, List.nodup_append] at h
  have hne := h.2.2 p.1 (List.mem_map_of_mem hp) short (by simp)
  simpa using Ne.symm hne

theorem mem_shadowed_foldl_insert {references : List Text} {d : Dependencies} {written : Text}
    (h : written ∈ (references.foldl insert d).shadowed) :
    written ∈ d.shadowed ∨ ∃ reference ∈ references, written = Name.normalize reference := by
  induction references generalizing d with
  | nil => exact Or.inl h
  | cons reference references ih =>
    rcases ih h with hs | ⟨r, hr, hw⟩
    · rcases insert_cases d reference with ⟨-, hins⟩ | ⟨kept, -, ⟨-, hins⟩ | hins⟩
      · rw [hins] at hs
        exact Or.inl hs
      · rw [hins] at hs
        exact Or.inl hs
      · rw [hins] at hs
        refine (List.mem_append.1 hs).imp_right fun hw => ?_
        exact ⟨reference, List.mem_cons_self, List.mem_singleton.1 hw⟩
    · exact Or.inr ⟨r, List.mem_cons_of_mem _ hr, hw⟩

end Dependencies

namespace Entity

theorem mem_dependencyReferences_iff {e : Entity} {reference : Text} :
    reference ∈ e.dependencyReferences ↔
      ∃ f ∈ e.resolve.fields, reference ∈ f.type.references ∧ e.dependsOn reference = true := by
  constructor
  · intro h
    obtain ⟨hm, hd⟩ := List.mem_filter.1 h
    obtain ⟨f, hf, hr⟩ := List.mem_flatMap.1 hm
    exact ⟨.ofField f, List.mem_map_of_mem hf, hr, hd⟩
  · rintro ⟨f, hf, hr, hd⟩
    obtain ⟨field, hfield, rfl⟩ := List.mem_map.1 hf
    exact List.mem_filter.2 ⟨List.mem_flatMap.2 ⟨field, hfield, hr⟩, hd⟩

theorem isReference_of_mem_dependencyReferences {e : Entity} {reference : Text}
    (h : reference ∈ e.dependencyReferences) : Name.IsReference reference := by
  obtain ⟨hm, -⟩ := List.mem_filter.1 h
  obtain ⟨f, -, hf⟩ := List.mem_flatMap.1 hm
  exact (Field.named_of_mem hf).1

theorem good_dependencies (e : Entity) : e.resolve.dependencies.Good :=
  (Dependencies.foldl_insert_spec (fun _ => isReference_of_mem_dependencyReferences)
    Dependencies.good_empty).2.1

theorem records_dependencies {e : Entity} {reference : Text} (h : reference ∈ e.dependencyReferences) :
    e.resolve.dependencies.Records reference :=
  (Dependencies.foldl_insert_spec (fun _ => isReference_of_mem_dependencyReferences)
    Dependencies.good_empty).2.2 reference h

/-- A reference in a field of the resolved entity is recorded if it counts as a dependency. -/
theorem records_of_mem_fields {e : Entity} {f : ResolvedField} (hf : f ∈ e.resolve.fields)
    {reference : Text} (hr : reference ∈ f.type.references) (hd : e.dependsOn reference = true) :
    e.resolve.dependencies.Records reference := by
  exact records_dependencies (mem_dependencyReferences_iff.2 ⟨f, hf, hr, hd⟩)

/-- The first reference with a short name that counts as a dependency. -/
def first? (e : Entity) (short : Text) : Option Text :=
  e.dependencyReferences.find? (Name.short · = short)

theorem first?_eq_some {e : Entity} {short reference : Text} (h : e.first? short = some reference) :
    reference ∈ e.dependencyReferences ∧ Name.short reference = short :=
  ⟨List.mem_of_find?_eq_some h, by simpa using List.find?_some h⟩

theorem exists_first? {e : Entity} {reference : Text} (h : reference ∈ e.dependencyReferences) :
    ∃ first, e.first? (Name.short reference) = some first := by
  rw [← Option.isSome_iff_exists, first?, List.find?_isSome]
  exact ⟨reference, h, by simp⟩

theorem nodup_names_dependencies (e : Entity) : e.resolve.dependencies.names.Nodup :=
  Dependencies.nodup_names_foldl_insert (d := .empty) List.nodup_nil

/-- The entries are the first references with their short names. -/
theorem mem_entries_iff {e : Entity} {short written : Text} :
    (short, written) ∈ e.resolve.dependencies.entries ↔ e.first? short = some written := by
  have hget : e.resolve.dependencies.get? short = (e.first? short).map Name.normalize :=
    Dependencies.get?_foldl_insert e.dependencyReferences .empty short
  have hself : (e.first? short).map Name.normalize = e.first? short := by
    cases hf : e.first? short with
    | none => rfl
    | some reference =>
      have href := isReference_of_mem_dependencyReferences (first?_eq_some hf).1
      rw [Option.map_some, Name.normalize_eq_self href]
  rw [← Dependencies.get?_eq_some_iff e.nodup_names_dependencies, hget, hself]

theorem isReference_of_mem_shadowed {e : Entity} {written : Text}
    (h : written ∈ e.resolve.dependencies.shadowed) : Name.IsReference written := by
  rcases Dependencies.mem_shadowed_foldl_insert h with hs | ⟨reference, hr, rfl⟩
  · exact absurd hs (by simp [Dependencies.empty])
  · have href := isReference_of_mem_dependencyReferences hr
    rwa [Name.normalize_eq_self href]

end Entity

end DeclGen
