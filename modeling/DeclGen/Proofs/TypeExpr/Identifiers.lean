import DeclGen.Proofs.TypeExpr.Denotation
import DeclGen.Proofs.TypeExpr.Writing

/-!
# Names as type expressions

A name is looked up in three places: by the reader of type expressions, for its TypeScript type, and in the question
whether it is builtin. All three know the same dates and primitive types. The reader and the question drop leading
separators before they look a primitive type up, its TypeScript type is looked up with them.

* `parse_of_isName` : a name alone is read as what it denotes;
* `resolveName_primitive_iff` : builtin names denote primitive types, and no others do;
* `mapName_of_isDateTime`, `mapName_of_ofName?`, `mapName_normalize` : the TypeScript types of the three kinds of names;
* `parse_name_agrees_iff` : which names are read as their TypeScript types, and which as primitive types.
-/

namespace DeclGen.TypeExpr
open Name (dropLeading)

variable {name : Text} {kind : Primitive}

/-- A name alone is read as what it denotes. -/
theorem parse_of_isName (h : IsName name) : parse name = plainName name := by
  have spelled : Spells [name] name [] := by simpa using spells_single name []
  have derives : Derives IsBound (.union (.mk (.name name) 0) []) name :=
    ⟨⟨h, trivial⟩, Nat.zero_le _, [], spelled, fun c hc => absurd hc List.not_mem_nil⟩
  rw [parse_of_derives derives]
  rfl

/-- A name is read as a primitive type iff it is builtin. -/
theorem resolveName_primitive_iff (unblank : ∀ c ∈ name, Text.isBlank c = false) :
    (∃ kind, resolveName name = .primitive kind) ↔ isBuiltin name = true := by
  cases h : isBuiltin name with
  | false =>
    rw [resolveName_of_not_isBuiltin unblank h]
    simp
  | true =>
    refine iff_of_true ?_ rfl
    rcases isBuiltin_cases unblank h with date | ⟨kind, primitive⟩
    · exact ⟨_, resolveName_of_isDateTime date⟩
    · exact ⟨_, resolveName_of_ofName? primitive⟩

/-! ## TypeScript types -/

theorem mapName_of_isDateTime (unblank : ∀ c ∈ name, Text.isBlank c = false)
    (h : isDateTime (dropLeading name) = true) : TypeScript.mapName name = Primitive.token .string := by
  rw [isDateTime_dropLeading] at h
  simp only [TypeScript.mapName, Text.trim_eq_self unblank, h, if_true]

/-- With separators in front, the name of a primitive type is written as if it were that of an entity. -/
theorem mapName_of_ofName? (unblank : ∀ c ∈ name, Text.isBlank c = false)
    (h : Primitive.ofName? (dropLeading name) = some kind) :
    TypeScript.mapName name = if dropLeading name = name then kind.token else dropLeading name := by
  have noDate : isDateTime name = false := isDateTime_dropLeading name ▸ isDateTime_of_ofName? h
  simp only [TypeScript.mapName, Text.trim_eq_self unblank, noDate, Bool.false_eq_true, if_false]
  cases known : Primitive.ofName? name with
  | some other =>
    have same := dropLeading_of_ofName? known
    rw [same, known] at h
    rw [if_pos same, Option.some.inj h]
  | none =>
    have led : dropLeading name ≠ name := by
      intro same
      rw [same, known] at h
      exact absurd h (by simp)
    rw [if_neg led]
    show Name.short name = dropLeading name
    rw [Name.short, Text.trim_eq_self unblank, ← Text.afterLast_dropWhile]
    exact Text.afterLast_eq_self (isSeparator_of_ofName? h)

/-- The entity that a name refers to has the TypeScript type of the name. -/
theorem mapName_normalize (unblank : ∀ c ∈ name, Text.isBlank c = false) (h : isBuiltin name = false) :
    TypeScript.mapName (Name.normalize (dropLeading name)) = TypeScript.mapName name := by
  have bare : ∀ c ∈ dropLeading name, Text.isBlank c = false :=
    fun c hc => unblank c ((List.dropWhile_suffix _).subset hc)
  have other : isBuiltin (Name.normalize (dropLeading name)) = false := by
    rw [isBuiltin_normalize bare, isBuiltin_dropLeading unblank, h]
  rw [mapName_eq_short h, mapName_eq_short other, Name.short_normalize bare, Name.short, Name.short,
    Text.trim_eq_self bare, Text.trim_eq_self unblank]
  exact Text.afterLast_dropWhile _ name

/-! ## Agreement -/

/-- **Names and their TypeScript types.** A name that is no collection is read as the TypeScript type of the name,
unless it is that of a primitive type with separators in front, and this type is written otherwise. It is read as a
primitive type iff it is builtin. -/
theorem parse_name_agrees_iff (h : IsName name) (plain : isCollection name = false) :
    ((parse name).toTypeScript = TypeScript.mapName name ↔
      ∀ kind, Primitive.ofName? (dropLeading name) = some kind →
        dropLeading name = name ∨ kind.token = dropLeading name) ∧
    ((∃ kind, parse name = .primitive kind) ↔ isBuiltin name = true) := by
  have unblank := h.unblank
  have read : parse name = resolveName name := by
    rw [parse_of_isName h, plainName, plain]
    rfl
  rw [read]
  refine ⟨?_, resolveName_primitive_iff unblank⟩
  cases builtin : isBuiltin name with
  | false =>
    rw [resolveName_of_not_isBuiltin unblank builtin, TypeNode.toTypeScript_named]
    refine iff_of_true (mapName_normalize unblank builtin) fun kind known => ?_
    have primitive := (resolveName_primitive_iff unblank).1 ⟨kind, resolveName_of_ofName? known⟩
    exact absurd (builtin.symm.trans primitive) (by simp)
  | true =>
    rcases isBuiltin_cases unblank builtin with date | ⟨kind, known⟩
    · rw [resolveName_of_isDateTime date, mapName_of_isDateTime unblank date]
      refine iff_of_true rfl fun kind known => ?_
      exact absurd (date.symm.trans (isDateTime_of_ofName? known)) (by simp)
    · rw [resolveName_of_ofName? known, mapName_of_ofName? unblank known]
      simp only [known, Option.some.injEq, forall_eq']
      by_cases same : dropLeading name = name
      · rw [if_pos same]
        exact iff_of_true rfl (Or.inl same)
      · rw [if_neg same, or_iff_right same]
        rfl

/-- With a separator in front, the integers are still read as such, but they are written as an entity. An entity and
the strings are written alike. -/
theorem parse_name_agrees_iff_led :
    ((parse "\\int".toList).toTypeScript ≠ TypeScript.mapName "\\int".toList ∧
      isBuiltin "\\int".toList = true ∧ ∃ kind, parse "\\int".toList = .primitive kind) ∧
    (parse "\\string".toList).toTypeScript = TypeScript.mapName "\\string".toList ∧
    (parse "App.Dto\\User".toList).toTypeScript = TypeScript.mapName "App.Dto\\User".toList := by
  obtain ⟨integers, builtin⟩ := @parse_name_agrees_iff "\\int".toList (by decide) (by decide)
  obtain ⟨strings, -⟩ := @parse_name_agrees_iff "\\string".toList (by decide) (by decide)
  obtain ⟨entity, -⟩ := @parse_name_agrees_iff "App.Dto\\User".toList (by decide) (by decide)
  refine ⟨⟨fun same => ?_, by decide, builtin.2 (by decide)⟩, strings.2 ?_, entity.2 ?_⟩
  · exact absurd (integers.1 same .integer (by decide)) (by decide)
  · exact fun kind known => Or.inr (Option.some.inj known ▸ by decide)
  · have unknown : Primitive.ofName? (dropLeading "App.Dto\\User".toList) = none := by decide
    exact fun kind known => absurd (unknown.symm.trans known) (by simp)

end DeclGen.TypeExpr
