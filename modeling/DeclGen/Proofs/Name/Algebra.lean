import DeclGen.Proofs.Name

/-!
# Names taken apart and put together

* `normalize_of_unqualified`, `normalize_of_qualified` : a normal form is the short name, behind the scope if there
  is one;
* `isQualified_iff` : a name is qualified iff it has a scope;
* `join_scope_short` : scope and short name put together again are the normal form;
* `scope_normalize`, `scope_join` : the scopes of a normal form and of a name that was put into a scope;
* `parts_agree` : normal forms, parts and joins of names without blanks fit together.
-/

namespace DeclGen.Name
open Text (trim isBlank trim_eq_self)

/-! ## A name and its parts -/

section Parts
variable {name : Text}

theorem isSeparator_of_unqualified (h : isQualified name = false) :
    ∀ c ∈ dropLeading (trim name), isSeparator c = false :=
  fun c hc => Bool.eq_false_iff.2 (List.any_eq_false.1 h c hc)

theorem scope_of_unqualified (h : isQualified name = false) : scope name = [] :=
  Text.beforeLast_eq_nil (isSeparator_of_unqualified h)

theorem short_eq_afterLast (name : Text) : short name = Text.afterLast isSeparator (dropLeading (trim name)) :=
  (Text.afterLast_dropWhile isSeparator (trim name)).symm

/-- A qualified name is its scope and its short name around a separator, leading separators apart. -/
theorem exists_separator (h : isQualified name = true) :
    ∃ c, isSeparator c = true ∧ dropLeading (trim name) = scope name ++ c :: short name := by
  rw [short_eq_afterLast]
  exact Text.eq_beforeLast_append h

/-- Leading separators apart, no separator stands before the first segment. -/
theorem scope_ne_nil (h : isQualified name = true) : scope name ≠ [] := by
  intro empty
  obtain ⟨c, hc, parts⟩ := exists_separator h
  rw [empty] at parts
  have bare := head?_dropLeading (t := trim name) c (by rw [parts]; rfl)
  exact absurd (hc.symm.trans bare) (by simp)

/-- A name is qualified iff it has a scope. -/
theorem isQualified_iff : isQualified name = true ↔ scope name ≠ [] := by
  refine ⟨scope_ne_nil, fun nonempty => ?_⟩
  cases h : isQualified name with
  | true => rfl
  | false => exact absurd (scope_of_unqualified h) nonempty

theorem normalize_of_unqualified (h : isQualified name = false) : normalize name = short name := by
  have bare := isSeparator_of_unqualified h
  rw [normalize, unify_of_bare bare, short_eq_afterLast, Text.afterLast_eq_self bare]

theorem normalize_of_qualified (h : isQualified name = true) :
    normalize name = unify (scope name) ++ '\\' :: short name := by
  obtain ⟨c, hc, parts⟩ := exists_separator h
  have shortKept : unify (short name) = short name := unify_of_bare isSeparator_of_mem_short
  rw [normalize, parts]
  simp only [unify, List.map_append, List.map_cons, if_pos hc] at shortKept ⊢
  rw [shortKept]

end Parts

/-! ## Names without blanks -/

section Unblank
variable {name outer : Text}

theorem mem_of_mem_scope {c : Char} (h : c ∈ scope name) : c ∈ name := by
  have qualified : isQualified name = true := isQualified_iff.2 fun empty => by
    rw [empty] at h
    exact List.not_mem_nil h
  obtain ⟨d, -, parts⟩ := exists_separator qualified
  have kept : c ∈ dropLeading (trim name) := parts ▸ List.mem_append_left _ h
  exact (Text.isInfix_trim name).subset ((List.dropWhile_suffix _).subset kept)

/-- In a scope, only the separators may have to be written anew. -/
theorem normalize_scope (unblank : ∀ c ∈ name, isBlank c = false) : normalize (scope name) = unify (scope name) := by
  have clean : ∀ c ∈ scope name, isBlank c = false := fun c hc => unblank c (mem_of_mem_scope hc)
  have bare : ∀ c ∈ (scope name).head?, isSeparator c = false := by
    intro c hc
    have qualified : isQualified name = true := isQualified_iff.2 (List.ne_nil_of_mem (List.mem_of_mem_head? hc))
    obtain ⟨d, -, parts⟩ := exists_separator qualified
    refine head?_dropLeading (t := trim name) c ?_
    rw [parts, List.head?_append, Option.mem_def.1 hc]
    rfl
  rw [normalize, trim_eq_self clean, dropLeading_eq_self bare]

theorem normalize_short (unblank : ∀ c ∈ name, isBlank c = false) : normalize (short name) = short name :=
  normalize_of_bare (fun c hc => unblank c (mem_of_mem_short hc)) isSeparator_of_mem_short

/-- Scope and short name put together again are the normal form. -/
theorem join_scope_short (unblank : ∀ c ∈ name, isBlank c = false) :
    join (scope name) (short name) = normalize name := by
  rw [join, normalize_short unblank, normalize_scope unblank]
  cases qualified : isQualified name with
  | false =>
    rw [scope_of_unqualified qualified, normalize_of_unqualified qualified]
    rfl
  | true =>
    have nonempty : unify (scope name) ≠ [] := fun empty => scope_ne_nil qualified (List.map_eq_nil_iff.1 empty)
    rw [if_neg nonempty, normalize_of_qualified qualified]

/-- The scope of the normal form is the normal form of the scope. -/
theorem scope_normalize (unblank : ∀ c ∈ name, isBlank c = false) :
    scope (normalize name) = normalize (scope name) := by
  have reference := isReference_normalize unblank
  cases qualified : isQualified name with
  | false =>
    have unqualified : isQualified (normalize name) = false := by rwa [isQualified_normalize unblank]
    rw [scope_of_unqualified qualified, scope_of_unqualified unqualified]
    rfl
  | true =>
    rw [scope, trim_eq_self reference.unblank, dropLeading_eq_self reference.bare, normalize_of_qualified qualified,
      Text.beforeLast_append_cons isSeparator_backslash isSeparator_of_mem_short, normalize_scope unblank]

/-- A segment that is put into a scope is found there. -/
theorem scope_join (outerUnblank : ∀ c ∈ outer, isBlank c = false) (unblank : ∀ c ∈ name, isBlank c = false)
    (bare : ∀ c ∈ name, isSeparator c = false) (inside : normalize outer ≠ []) :
    scope (join outer name) = normalize outer := by
  have reference := isReference_normalize outerUnblank
  have clean : ∀ c ∈ normalize outer ++ '\\' :: name, isBlank c = false := by
    intro c hc
    rcases List.mem_append.1 hc with hc | hc
    · exact reference.unblank c hc
    · rcases List.mem_cons.1 hc with rfl | hc
      · decide
      · exact unblank c hc
  have first : (normalize outer ++ '\\' :: name).head? = (normalize outer).head? := by
    obtain ⟨c, rest, parts⟩ := List.exists_cons_of_ne_nil inside
    rw [parts]
    rfl
  rw [join, if_neg inside, normalize_of_bare unblank bare, scope, trim_eq_self clean,
    dropLeading_eq_self (first ▸ reference.bare), Text.beforeLast_append_cons isSeparator_backslash bare]

end Unblank

/-! ## Agreement -/

/-- Normal forms, parts and joins of names without blanks fit together, whatever the separators and wherever they
stand. -/
theorem parts_agree {name outer : Text} (unblank : ∀ c ∈ name, isBlank c = false)
    (outerUnblank : ∀ c ∈ outer, isBlank c = false) :
    normalize (normalize name) = normalize name ∧
      join (scope name) (short name) = normalize name ∧
      short (normalize name) = short name ∧
      isQualified (normalize name) = isQualified name ∧
      normalize (scope (normalize name)) = normalize (scope name) ∧
      (isQualified name = true ↔ scope name ≠ []) ∧
      short (join outer name) = short name ∧
      (normalize outer ≠ [] → (∀ c ∈ name, isSeparator c = false) →
        normalize (scope (join outer name)) = normalize outer) := by
  have scopeUnblank : ∀ c ∈ scope name, isBlank c = false := fun c hc => unblank c (mem_of_mem_scope hc)
  refine ⟨normalize_eq_self (isReference_normalize unblank), join_scope_short unblank, short_normalize unblank,
    isQualified_normalize unblank, ?_, isQualified_iff, short_join unblank outer, fun inside bare => ?_⟩
  · rw [scope_normalize unblank, normalize_eq_self (isReference_normalize scopeUnblank)]
  · rw [scope_join outerUnblank unblank bare inside, normalize_eq_self (isReference_normalize outerUnblank)]

/-- A name with separators of both kinds, leading, repeated and at its end, in such a scope, and a plain name. -/
theorem parts_agree_mixed :
    join (scope "\\.App..Dto.\\User\\".toList) (short "\\.App..Dto.\\User\\".toList) = "App\\\\Dto\\\\User\\".toList ∧
      short (join "..Shop.\\".toList "\\.App..Dto.\\User".toList) = "User".toList ∧
      normalize (scope (join "..Shop.\\".toList "User".toList)) = "Shop\\\\".toList := by
  have trailing := @parts_agree "\\.App..Dto.\\User\\".toList [] (Text.forall_mem_of_all (by decide))
    (Text.forall_mem_of_all (by decide))
  have mixed := @parts_agree "\\.App..Dto.\\User".toList "..Shop.\\".toList (Text.forall_mem_of_all (by decide))
    (Text.forall_mem_of_all (by decide))
  have plain := @parts_agree "User".toList "..Shop.\\".toList (Text.forall_mem_of_all (by decide))
    (Text.forall_mem_of_all (by decide))
  exact ⟨trailing.2.1, mixed.2.2.2.2.2.2.1.trans (by decide),
    (plain.2.2.2.2.2.2.2 (by decide) (Text.forall_mem_of_all (by decide))).trans (by decide)⟩

end DeclGen.Name
