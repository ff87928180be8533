import DeclGen.Proofs.Name
import DeclGen.TypeScript.TypeText

/-!
# Builtin names

Whether a name is builtin hangs on its characters, the separators apart: no builtin name has one.

* `isBuiltin_normalize` : a name without blanks is builtin if its normal form is; `isBuiltin_cases` : the builtin names;
* `mapName_eq_short` : a name that is not builtin is written as its short name.
-/

namespace DeclGen
open Name (isSeparator dropLeading unify IsReference)

/-! ## Dates and primitive types -/

theorem isDateTime_dropLeading (name : Text) : isDateTime (dropLeading name) = isDateTime name :=
  Text.contains_dropWhile (by decide) name

theorem isDateTime_unify (name : Text) : isDateTime (unify name) = isDateTime name := by
  refine Text.contains_map ?_ name
  have letters : ∀ d ∈ "DateTime".toList, d ≠ '\\' ∧ isSeparator d = false := by simp [isSeparator]
  intro d hd c
  obtain ⟨hb, hs⟩ := letters d hd
  split
  · next hc =>
    refine ⟨fun h => absurd h.symm hb, ?_⟩
    rintro rfl
    rw [hs] at hc
    exact absurd hc (by simp)
  · rfl

/-- The names of primitive types have no separators. -/
theorem isSeparator_of_ofName? {name : Text} {kind : Primitive} (h : Primitive.ofName? name = some kind) :
    ∀ c ∈ name, isSeparator c = false := by
  have names : Primitive.table.all (fun p => p.1.all fun c => !isSeparator c) = true := by decide
  intro c hc
  have hname := List.all_eq_true.1 names _ (Primitive.mem_table_of_ofName? h)
  simpa using List.all_eq_true.1 hname c hc

/-- The names of primitive types are no names of dates. -/
theorem isDateTime_of_ofName? {name : Text} {kind : Primitive} (h : Primitive.ofName? name = some kind) :
    isDateTime name = false := by
  have names : ∀ p ∈ Primitive.table, isDateTime p.1 = false := by decide
  exact names _ (Primitive.mem_table_of_ofName? h)

theorem dropLeading_of_ofName? {name : Text} {kind : Primitive} (h : Primitive.ofName? name = some kind) :
    dropLeading name = name :=
  Name.dropLeading_eq_self fun c hc => isSeparator_of_ofName? h c (List.mem_of_mem_head? hc)

theorem ofName?_unify (name : Text) : Primitive.ofName? (unify name) = Primitive.ofName? name := by
  by_cases hs : ∀ c ∈ name, isSeparator c = false
  · have hself : unify name = name := by
      refine Name.unify_eq_self fun c hc => ?_
      rintro rfl
      exact absurd (hs _ hc) (by decide)
    rw [hself]
  · have none : ∀ {t : Text} {c : Char}, c ∈ t → isSeparator c = true → Primitive.ofName? t = none := by
      intro t c hc hsep
      cases hk : Primitive.ofName? t with
      | none => rfl
      | some kind =>
        rw [isSeparator_of_ofName? hk c hc] at hsep
        exact absurd hsep (by simp)
    obtain ⟨c, hc, hsep⟩ : ∃ c ∈ name, isSeparator c = true := by simpa using hs
    have hmapped : '\\' ∈ unify name := List.mem_map.2 ⟨c, hc, by rw [if_pos hsep]⟩
    rw [none hc hsep, none hmapped (by decide)]

theorem isBuiltin_of_isReference {name : Text} (h : IsReference name) :
    isBuiltin name = ((Primitive.ofName? name).isSome || isDateTime name) := by
  simp only [isBuiltin, Text.trim_eq_self h.unblank, Name.dropLeading_eq_self h.bare]

/-- A name without blanks is builtin if its normal form is. -/
theorem isBuiltin_normalize {name : Text} (h : ∀ c ∈ name, Text.isBlank c = false) :
    isBuiltin (Name.normalize name) = isBuiltin name := by
  rw [isBuiltin_of_isReference (Name.isReference_normalize h), Name.normalize, ofName?_unify,
    isDateTime_unify]
  rfl

theorem isBuiltin_dropLeading {name : Text} (h : ∀ c ∈ name, Text.isBlank c = false) :
    isBuiltin (dropLeading name) = isBuiltin name := by
  have bare : ∀ c ∈ dropLeading name, Text.isBlank c = false :=
    fun c hc => h c ((List.dropWhile_suffix _).subset hc)
  simp only [isBuiltin, Text.trim_eq_self bare, Text.trim_eq_self h, Name.dropLeading_eq_self Name.head?_dropLeading]

/-- Builtin names are those of dates and of primitive types, leading separators apart. -/
theorem isBuiltin_cases {name : Text} (h : ∀ c ∈ name, Text.isBlank c = false) (builtin : isBuiltin name = true) :
    isDateTime (dropLeading name) = true ∨ ∃ kind, Primitive.ofName? (dropLeading name) = some kind := by
  simp only [isBuiltin, Text.trim_eq_self h, Bool.or_eq_true] at builtin
  exact builtin.symm.imp_right Option.isSome_iff_exists.1

/-! ## Names as types -/

/-- A name that is not builtin is written as its short name. -/
theorem mapName_eq_short {name : Text} (h : isBuiltin name = false) :
    TypeScript.mapName name = Name.short name := by
  simp only [isBuiltin, Bool.or_eq_false_iff, Option.isSome_eq_false_iff, Option.isNone_iff_eq_none] at h
  obtain ⟨hp, hd⟩ := h
  rw [isDateTime_dropLeading] at hd
  have hnone : Primitive.ofName? (Text.trim name) = none := by
    cases hk : Primitive.ofName? (Text.trim name) with
    | none => rfl
    | some kind =>
      rw [dropLeading_of_ofName? hk, hk] at hp
      exact absurd hp (by simp)
  simp only [TypeScript.mapName, hd, hnone, Name.short_trim]
  rfl

end DeclGen
