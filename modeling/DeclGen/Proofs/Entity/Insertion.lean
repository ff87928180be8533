import DeclGen.Proofs.Distinct
import DeclGen.Proofs.Entity.Dependencies

/-!
# Runs of insertions

* `Dependencies.ofList` : references inserted one after the other; `Dependencies.addAll` tells which were new;
* `names_ofList`, `get?_ofList`, `shadowed_ofList` : what a run leaves, in the order of first occurrences;
* `Dependencies.Collects`, `collects_addAll` : no reference is lost, and none is recorded twice.
-/

namespace DeclGen.Dependencies

/-- The references, inserted one after the other. -/
def ofList (references : List Text) : Dependencies := references.foldl insert empty

/-- Adds references, one after the other; the flags tell whose short names were new. -/
def addAll (d : Dependencies) : List Text → Dependencies × List Bool
  | [] => (d, [])
  | reference :: references =>
    let (next, new) := d.add reference
    let (last, flags) := next.addAll references
    (last, new :: flags)

variable {reference : Text} {references : List Text}

theorem ofList_concat (references : List Text) (reference : Text) :
    ofList (references ++ [reference]) = (ofList references).insert reference := by
  rw [ofList, List.foldl_append]
  rfl

theorem addAll_fst (d : Dependencies) (references : List Text) :
    (d.addAll references).1 = references.foldl insert d := by
  induction references generalizing d with
  | nil => rfl
  | cons reference references ih => exact ih (d.insert reference)

/-! ## Short names -/

theorem names_ofList (references : List Text) :
    (ofList references).names = (references.map Name.short).eraseDups := by
  induction references using List.reverseRecOn with
  | nil => rfl
  | append_singleton references reference ih =>
    rw [ofList_concat, names_insert, ih, List.map_append, List.map_singleton]
    by_cases h : Name.short reference ∈ references.map Name.short
    · rw [if_pos (List.mem_eraseDups.2 h), eraseDups_append_of_subset (by simpa using h)]
    · rw [if_neg fun hm => h (List.mem_eraseDups.1 hm), eraseDups_concat_of_notMem h]

theorem contains_iff (d : Dependencies) (short : Text) : d.contains short = true ↔ short ∈ d.names := by
  rw [contains, Option.isSome_iff_ne_none, ne_eq, get?, List.lookup_eq_none_iff]
  simp [names]

/-! ## Flags -/

theorem length_addAll_snd (d : Dependencies) (references : List Text) :
    (d.addAll references).2.length = references.length := by
  induction references generalizing d with
  | nil => rfl
  | cons reference references ih => exact congrArg (· + 1) (ih (d.insert reference))

theorem addAll_snd_append (d : Dependencies) (before after : List Text) : (d.addAll (before ++ after)).2 =
    (d.addAll before).2 ++ ((before.foldl insert d).addAll after).2 := by
  induction before generalizing d with
  | nil => rfl
  | cons reference before ih => exact congrArg (_ :: ·) (ih (d.insert reference))

/-- The flag of a reference tells whether its short name stands before it. -/
theorem getElem?_addAll_snd (before : List Text) (reference : Text) (after : List Text) :
    (empty.addAll (before ++ reference :: after)).2[before.length]? =
      some (decide (Name.short reference ∉ before.map Name.short)) := by
  have here : (!(ofList before).contains (Name.short reference)) =
      decide (Name.short reference ∉ before.map Name.short) := by
    rw [Bool.eq_iff_iff, Bool.not_eq_true', ← Bool.not_eq_true, contains_iff, names_ofList, List.mem_eraseDups,
      decide_eq_true_iff]
  rw [addAll_snd_append, ← length_addAll_snd empty before, List.getElem?_append_right (Nat.le_refl _), Nat.sub_self,
    ← here]
  rfl

/-! ## Kept references -/

theorem get?_ofList (references : List Text) (short : Text) :
    (ofList references).get? short = (references.find? (Name.short · = short)).map Name.normalize :=
  get?_foldl_insert references empty short

theorem exists_get?_of_mem (h : reference ∈ references) :
    ∃ kept, (ofList references).get? (Name.short reference) = some kept := by
  rw [← Option.isSome_iff_exists, get?_ofList, Option.isSome_map, List.find?_isSome]
  exact ⟨reference, h, by simp⟩

/-! ## Shadowed references -/

/-- A reference is shadowed if another one is kept for its short name. -/
theorem shadowed_insert (d : Dependencies) (reference : Text) : (d.insert reference).shadowed =
    if (d.insert reference).get? (Name.short reference) = some (Name.normalize reference) ∨
      Name.normalize reference ∈ d.shadowed
    then d.shadowed else d.shadowed ++ [Name.normalize reference] := by
  rw [get?_insert, if_pos rfl]
  cases h : d.get? (Name.short reference) with
  | none => simp [insert, h]
  | some kept =>
    by_cases drop : kept = Name.normalize reference ∨ Name.normalize reference ∈ d.shadowed
    · simp [insert, h, drop]
    · simp [insert, h, drop]

/-- The shadowed references are those that are not kept, in the order of their first occurrences. -/
theorem shadowed_ofList (references : List Text) : (ofList references).shadowed =
    ((references.filter fun reference =>
      (ofList references).get? (Name.short reference) ≠ some (Name.normalize reference)).map
        Name.normalize).eraseDups := by
  induction references using List.reverseRecOn with
  | nil => rfl
  | append_singleton references reference ih =>
    have kept : ∀ r ∈ references, (ofList (references ++ [reference])).get? (Name.short r) =
        (ofList references).get? (Name.short r) := by
      intro r hr
      obtain ⟨kept, hk⟩ := exists_get?_of_mem hr
      rw [ofList_concat, get?_insert, hk, Option.some_or]
    have earlier : references.filter (fun r =>
        (ofList (references ++ [reference])).get? (Name.short r) ≠ some (Name.normalize r)) =
        references.filter fun r => (ofList references).get? (Name.short r) ≠ some (Name.normalize r) :=
      List.filter_congr fun r hr => by rw [kept r hr]
    have step := shadowed_insert (ofList references) reference
    rw [← ofList_concat] at step
    rw [step, List.filter_append, earlier, List.map_append]
    by_cases mine : (ofList (references ++ [reference])).get? (Name.short reference) =
        some (Name.normalize reference)
    · rw [if_pos (Or.inl mine), List.filter_cons_of_neg (by simpa using mine), List.filter_nil, List.map_nil,
        List.append_nil, ih]
    · rw [List.filter_cons_of_pos (by simpa using mine), List.filter_nil, List.map_singleton]
      by_cases known : Name.normalize reference ∈ (ofList references).shadowed
      · rw [if_pos (Or.inr known), ih]
        rw [ih, List.mem_eraseDups] at known
        exact (eraseDups_append_of_subset (by simpa using known)).symm
      · rw [if_neg (not_or.2 ⟨mine, known⟩), ih]
        rw [ih, List.mem_eraseDups] at known
        exact (eraseDups_concat_of_notMem known).symm

theorem mem_shadowed_ofList_iff {written : Text} : written ∈ (ofList references).shadowed ↔
    ∃ reference ∈ references, Name.normalize reference = written ∧
      (ofList references).get? (Name.short reference) ≠ some written := by
  rw [shadowed_ofList, List.mem_eraseDups, List.mem_map]
  constructor
  · rintro ⟨reference, hr, rfl⟩
    obtain ⟨hm, lost⟩ := List.mem_filter.1 hr
    exact ⟨reference, hm, rfl, by simpa using lost⟩
  · rintro ⟨reference, hm, rfl, lost⟩
    exact ⟨reference, List.mem_filter.2 ⟨hm, by simpa using lost⟩, rfl⟩

/-! ## Runs -/

/-- What the insertion of the references, one after the other, leaves and tells. -/
structure Collects (references : List Text) (d : Dependencies) (flags : List Bool) : Prop where
  /-- The short names stand in the order of their first occurrences. -/
  names : d.names = (references.map Name.short).eraseDups
  nodup_names : d.names.Nodup
  /-- A short name stands for the first reference that has it. -/
  kept : ∀ short, d.get? short = (references.find? (Name.short · = short)).map Name.normalize
  length_flags : flags.length = references.length
  /-- The flag of a reference is set iff no reference before it has its short name. -/
  flagged : ∀ before reference after, references = before ++ reference :: after →
    flags[before.length]? = some (decide (Name.short reference ∉ before.map Name.short))
  nodup_shadowed : d.shadowed.Nodup
  /-- No reference is lost. -/
  recorded : ∀ reference ∈ references,
    d.get? (Name.short reference) = some (Name.normalize reference) ∨ Name.normalize reference ∈ d.shadowed
  /-- What is shadowed was inserted, and another reference is kept for its short name. -/
  shadows : ∀ written ∈ d.shadowed, ∃ reference ∈ references, Name.normalize reference = written ∧
    ∃ kept, d.get? (Name.short reference) = some kept ∧ kept ≠ written

/-- **References are collected.** However many of them are inserted into an empty set, and in whatever order, none is
lost and none is recorded twice. -/
theorem collects_addAll (references : List Text) :
    Collects references (empty.addAll references).1 (empty.addAll references).2 := by
  have whole : (empty.addAll references).1 = ofList references := addAll_fst empty references
  rw [whole]
  exact {
    names := names_ofList references
    nodup_names := names_ofList references ▸ nodup_eraseDups _
    kept := get?_ofList references
    length_flags := length_addAll_snd empty references
    flagged := fun before reference after split => split ▸ getElem?_addAll_snd before reference after
    nodup_shadowed := shadowed_ofList references ▸ nodup_eraseDups _
    recorded := fun reference hr => by
      by_cases kept : (ofList references).get? (Name.short reference) = some (Name.normalize reference)
      · exact Or.inl kept
      · exact Or.inr (mem_shadowed_ofList_iff.2 ⟨reference, hr, rfl, kept⟩)
    shadows := fun written hw => by
      obtain ⟨reference, hr, same, lost⟩ := mem_shadowed_ofList_iff.1 hw
      obtain ⟨kept, hk⟩ := exists_get?_of_mem hr
      rw [hk] at lost
      exact ⟨reference, hr, same, kept, hk, by simpa using lost⟩ }

/-- A reference that is written in two ways is recorded once. -/
example : empty.addAll ["App\\A\\User".toList, "App\\B\\User".toList, "\\App\\A\\User".toList,
    "App.B.User".toList, "Role".toList] =
      (⟨[("User".toList, "App\\A\\User".toList), ("Role".toList, "Role".toList)], ["App\\B\\User".toList]⟩,
        [true, false, false, false, true]) := by
  decide

end DeclGen.Dependencies
