import DeclGen.Name
import DeclGen.Proofs.Text

/-!
# Names without blanks

* `Name.IsReference` : a name in normal form without blanks, as type expressions refer to entities;
* `normalize_eq_self` : such a name is its own normal form;
* `isReference_normalize` : the normal form of a name without blanks is one;
* `normalize_eq_self_of_length` : a normal form that is not shorter drops nothing;
* `normalize_normalize_iff` : which normal forms are their own;
* `normalize_append` : a name inside a scope is in normal form if the scope is;
* `short_normalize`, `short_join` : a name without blanks keeps its short name in its normal form and in a scope;
* `IsSegment`, `ofSegments` : names put together from segments; `short_ofSegments_concat`,
  `scope_ofSegments_concat`, `join_ofSegments` : the last segment and the others.
-/

namespace DeclGen.Name
open Text (trim isBlank head?_dropWhile trim_eq_self isInfix_trim trim_trim)

/-- A name in normal form without blanks. -/
structure IsReference (name : Text) : Prop where
  unblank : ∀ c ∈ name, isBlank c = false
  unified : ∀ c ∈ name, c ≠ '.'
  bare : ∀ c ∈ name.head?, isSeparator c = false

/-! ## Normal forms -/

theorem isSeparator_backslash : isSeparator '\\' = true := by decide

theorem dropLeading_eq_self {t : Text} (h : ∀ c ∈ t.head?, isSeparator c = false) :
    dropLeading t = t :=
  Text.dropWhile_eq_self_of_head? h

theorem head?_dropLeading {t : Text} : ∀ c ∈ (dropLeading t).head?, isSeparator c = false :=
  head?_dropWhile t

theorem unify_eq_self {t : Text} (h : ∀ c ∈ t, c ≠ '.') : unify t = t := by
  have : ∀ c ∈ t, (if isSeparator c then '\\' else c) = c := by
    intro c hc
    split
    · next hs =>
      rw [isSeparator, Bool.or_eq_true, decide_eq_true_eq, decide_eq_true_eq] at hs
      exact (hs.resolve_right (h c hc)).symm
    · rfl
  rw [unify, List.map_congr_left this, List.map_id']

/-- A reference is its own normal form. -/
theorem normalize_eq_self {name : Text} (h : IsReference name) : normalize name = name := by
  rw [normalize, trim_eq_self h.unblank, dropLeading_eq_self h.bare, unify_eq_self h.unified]

theorem unify_of_bare {t : Text} (h : ∀ c ∈ t, isSeparator c = false) : unify t = t := by
  refine unify_eq_self fun c hc dot => ?_
  have bare := h c hc
  rw [dot] at bare
  exact absurd bare (by decide)

/-- A name without separators is its own normal form. -/
theorem normalize_of_bare {name : Text} (unblank : ∀ c ∈ name, isBlank c = false)
    (bare : ∀ c ∈ name, isSeparator c = false) : normalize name = name := by
  rw [normalize, trim_eq_self unblank, dropLeading_eq_self fun c hc => bare c (List.mem_of_mem_head? hc),
    unify_of_bare bare]

theorem ne_dot_of_mem_unify {t : Text} : ∀ c ∈ unify t, c ≠ '.' := by
  intro c hc
  obtain ⟨d, -, rfl⟩ := List.mem_map.1 hc
  split
  · decide
  · next hs => exact fun he => hs (by rw [he]; decide)

theorem head?_normalize {name : Text} : ∀ c ∈ (normalize name).head?, isSeparator c = false := by
  intro c hc
  rw [normalize, unify, List.head?_map, Option.mem_def, Option.map_eq_some_iff] at hc
  obtain ⟨d, hd, rfl⟩ := hc
  have := head?_dropLeading d hd
  rwa [if_neg (by simp [this])]

/-- Without blanks in it, a name has a reference for its normal form. -/
theorem isReference_normalize {name : Text} (h : ∀ c ∈ name, isBlank c = false) :
    IsReference (normalize name) := by
  have hsub : ∀ c ∈ dropLeading name, isBlank c = false :=
    fun c hc => h c ((List.dropWhile_suffix isSeparator).subset hc)
  refine ⟨fun c hc => ?_, ne_dot_of_mem_unify, head?_normalize⟩
  rw [normalize, trim_eq_self h] at hc
  obtain ⟨d, hd, rfl⟩ := List.mem_map.1 hc
  split
  · decide
  · exact hsub d hd

theorem length_normalize_le (name : Text) : (normalize name).length ≤ name.length := by
  rw [normalize, unify, List.length_map]
  exact Nat.le_trans (List.dropWhile_suffix _).length_le (isInfix_trim name).length_le

/-- A normal form that is not shorter is the name, but for the dots. -/
theorem eq_self_of_length {name : Text} (h : name.length ≤ (normalize name).length) :
    trim name = name ∧ dropLeading name = name := by
  rw [normalize, unify, List.length_map] at h
  have trimmed : trim name = name :=
    (isInfix_trim name).eq_of_length_le (Nat.le_trans h (List.dropWhile_suffix _).length_le)
  rw [trimmed] at h
  exact ⟨trimmed, (List.dropWhile_suffix _).eq_of_length_le h⟩

theorem normalize_eq_self_of_length {name : Text} (undotted : ∀ c ∈ name, c ≠ '.')
    (h : name.length ≤ (normalize name).length) : normalize name = name := by
  obtain ⟨trimmed, bare⟩ := eq_self_of_length h
  rw [normalize, trimmed, bare, unify_eq_self undotted]

/-- A name that is its own normal form neither starts nor ends with a blank. -/
theorem trim_of_normalize_eq {name : Text} (h : normalize name = name) : trim name = name :=
  (eq_self_of_length (Nat.le_of_eq (congrArg List.length h.symm))).1

theorem IsReference.ends {name : Text} (h : IsReference name) : ∀ c ∈ name.getLast?, isBlank c = false :=
  fun c hc => h.unblank c (List.mem_of_mem_getLast? hc)

theorem isBlank_getLast?_append {name : Text} (h : ∀ c ∈ name.getLast?, isBlank c = false) (scope : Text) :
    ∀ c ∈ (scope ++ '\\' :: name).getLast?, isBlank c = false := by
  intro c hc
  rw [List.getLast?_append, List.getLast?_cons, Option.some_or, Option.mem_some] at hc
  cases last : name.getLast? with
  | none =>
    rw [last] at hc
    rw [← hc]
    decide
  | some d =>
    rw [last] at hc
    exact hc ▸ h d last

theorem mem_of_mem_normalize {name : Text} {c : Char} (h : c ∈ normalize name) : c = '\\' ∨ c ∈ name := by
  obtain ⟨d, hd, rfl⟩ := List.mem_map.1 h
  split
  · exact Or.inl rfl
  · exact Or.inr ((isInfix_trim name).subset ((List.dropWhile_suffix _).subset hd))

theorem getLast?_normalize {name : Text} : ∀ c ∈ (normalize name).getLast?, isBlank c = false := by
  intro c hc
  rw [normalize, unify, List.getLast?_map, Option.mem_def, Option.map_eq_some_iff] at hc
  obtain ⟨d, hd, rfl⟩ := hc
  split
  · decide
  · refine Text.getLast?_trim name d ?_
    obtain ⟨front, hf⟩ := List.dropWhile_suffix (l := trim name) isSeparator
    rw [← hf, List.getLast?_append, show (List.dropWhile isSeparator (trim name)).getLast? = some d from hd]
    rfl

/-- A normal form is its own normal form iff no blank stands at its start: there a separator may have hidden one. -/
theorem normalize_normalize_iff {name : Text} :
    normalize (normalize name) = normalize name ↔ ∀ c ∈ (normalize name).head?, isBlank c = false := by
  constructor
  · intro same
    exact (Text.trim_eq_self_iff.1 (trim_of_normalize_eq same)).1
  · intro first
    have trimmed : trim (normalize name) = normalize name := Text.trim_eq_self_iff.2 ⟨first, getLast?_normalize⟩
    rw [normalize, trimmed, dropLeading_eq_self head?_normalize]
    exact unify_eq_self ne_dot_of_mem_unify

/-- Where there are no dots and no blank at the end, something is dropped from the start only. -/
theorem normalize_suffix {name : Text} (undotted : ∀ c ∈ name, c ≠ '.')
    (ends : ∀ c ∈ name.getLast?, isBlank c = false) : normalize name <:+ name := by
  have start : Text.trimStart name <:+ name := List.dropWhile_suffix isBlank
  have trimmed : trim name = Text.trimStart name := by
    refine Text.trimEnd_eq_self fun c hc => ends c ?_
    obtain ⟨front, hf⟩ := start
    rw [← hf, List.getLast?_append, Option.mem_def.1 hc]
    rfl
  have bare : dropLeading (trim name) <:+ name := by
    rw [trimmed]
    exact (List.dropWhile_suffix isSeparator).trans start
  rw [normalize, unify_eq_self fun c hc => undotted c (bare.subset hc)]
  exact bare

/-- Inside a scope, a name without dots and without a blank at the end is in normal form if the scope is. -/
theorem normalize_append {scope name : Text} (hs : normalize scope = scope) (hne : scope ≠ [])
    (ends : ∀ c ∈ name.getLast?, isBlank c = false) (undotted : ∀ c ∈ name, c ≠ '.') :
    normalize (scope ++ '\\' :: name) = scope ++ '\\' :: name := by
  have first : (scope ++ '\\' :: name).head? = scope.head? := by
    obtain ⟨c, rest, rfl⟩ := List.exists_cons_of_ne_nil hne
    rfl
  have hstart : Text.trimStart (scope ++ '\\' :: name) = scope ++ '\\' :: name := by
    refine Text.trimStart_eq_self fun c hc => ?_
    rw [first, ← trim_of_normalize_eq hs] at hc
    exact Text.head?_trim scope c hc
  have hlead : dropLeading (scope ++ '\\' :: name) = scope ++ '\\' :: name := by
    refine dropLeading_eq_self fun c hc => ?_
    rw [first, ← hs] at hc
    exact head?_normalize c hc
  have hdots : ∀ c ∈ scope ++ '\\' :: name, c ≠ '.' := by
    intro c hc
    rcases List.mem_append.1 hc with hc | hc
    · rw [← hs] at hc
      exact ne_dot_of_mem_unify c hc
    · rcases List.mem_cons.1 hc with rfl | hc
      · decide
      · exact undotted c hc
  rw [normalize, trim, hstart, Text.trimEnd_eq_self (isBlank_getLast?_append ends scope), hlead,
    unify_eq_self hdots]

/-! ## Short names -/

theorem short_trim (name : Text) : short (trim name) = short name := by
  rw [short, trim_trim, short]

theorem isSeparator_unified (c : Char) : isSeparator (if isSeparator c then '\\' else c) = isSeparator c := by
  split
  · next h => exact h.symm
  · rfl

theorem afterLast_unify (t : Text) : Text.afterLast isSeparator (unify t) = Text.afterLast isSeparator t := by
  have kept : ∀ c ∈ t.reverse.takeWhile (!isSeparator ·), (if isSeparator c then '\\' else c) = c := by
    intro c hc
    have bare : isSeparator c = false := by simpa using List.all_eq_true.1 List.all_takeWhile c hc
    rw [bare]
    rfl
  have same : ((fun c => !isSeparator c) ∘ fun c => if isSeparator c then '\\' else c) = (!isSeparator ·) :=
    funext fun c => congrArg (!·) (isSeparator_unified c)
  rw [Text.afterLast, unify, ← List.map_reverse, List.takeWhile_map, same, List.map_congr_left kept, List.map_id']
  rfl

theorem isSeparator_of_mem_short {name : Text} : ∀ c ∈ short name, isSeparator c = false := by
  intro c hc
  rw [short, Text.afterLast, List.mem_reverse] at hc
  simpa using List.all_eq_true.1 List.all_takeWhile c hc

theorem mem_of_mem_short {name : Text} {c : Char} (h : c ∈ short name) : c ∈ name := by
  rw [short, Text.afterLast, List.mem_reverse] at h
  exact (isInfix_trim name).subset (List.mem_reverse.1 ((List.takeWhile_prefix _).subset h))

/-- Without blanks in it, a name keeps its short name in its normal form. -/
theorem short_normalize {name : Text} (h : ∀ c ∈ name, isBlank c = false) :
    short (normalize name) = short name := by
  rw [short, short, trim_eq_self (isReference_normalize h).unblank, normalize, trim_eq_self h, afterLast_unify,
    dropLeading, Text.afterLast_dropWhile]

theorem isQualified_normalize {name : Text} (h : ∀ c ∈ name, isBlank c = false) :
    isQualified (normalize name) = isQualified name := by
  have reference := isReference_normalize h
  rw [isQualified, trim_eq_self reference.unblank, dropLeading_eq_self reference.bare, normalize, unify,
    List.any_map, isQualified]
  exact congrArg _ (funext isSeparator_unified)

/-- In a scope, a name without blanks keeps its short name. -/
theorem short_join {name : Text} (h : ∀ c ∈ name, isBlank c = false) (scope : Text) :
    short (join scope name) = short name := by
  have reference := isReference_normalize h
  rw [join]
  split
  · exact short_normalize h
  · have hstart : Text.trimStart (normalize scope ++ '\\' :: normalize name) =
        Text.trimStart (normalize scope) ++ '\\' :: normalize name := by
      rw [Text.trimStart, List.dropWhile_append]
      split
      · next he => rw [Text.trimStart, List.isEmpty_iff.1 he]; rfl
      · rfl
    rw [← short_normalize h, short, trim, hstart,
      Text.trimEnd_eq_self (isBlank_getLast?_append reference.ends _),
      Text.afterLast_append_cons isSeparator_backslash, short, trim_eq_self reference.unblank]

/-! ## Segments -/

/-- A part of a name: neither blanks nor separators, and not nothing. -/
structure IsSegment (t : Text) : Prop where
  ne_nil : t ≠ []
  unblank : ∀ c ∈ t, isBlank c = false
  bare : ∀ c ∈ t, isSeparator c = false

instance (t : Text) : Decidable (IsSegment t) :=
  have : Decidable (∀ c ∈ t, isBlank c = false) := List.decidableBAll _ _
  have : Decidable (∀ c ∈ t, isSeparator c = false) := List.decidableBAll _ _
  decidable_of_iff (t ≠ [] ∧ (∀ c ∈ t, isBlank c = false) ∧ ∀ c ∈ t, isSeparator c = false)
    ⟨fun ⟨h, h', h''⟩ => ⟨h, h', h''⟩, fun h => ⟨h.ne_nil, h.unblank, h.bare⟩⟩

/-- The name of the given segments. -/
def ofSegments (segments : List Text) : Text := List.intercalate ['\\'] segments

section Segments
variable {segments : List Text} {segment : Text}

theorem ofSegments_singleton (segment : Text) : ofSegments [segment] = segment := by simp [ofSegments]

theorem ofSegments_cons (h : segments ≠ []) (segment : Text) :
    ofSegments (segment :: segments) = segment ++ '\\' :: ofSegments segments := by
  obtain ⟨next, segments, rfl⟩ := List.exists_cons_of_ne_nil h
  simp [ofSegments, List.intercalate_cons_cons]

theorem ofSegments_concat (h : segments ≠ []) (segment : Text) :
    ofSegments (segments ++ [segment]) = ofSegments segments ++ '\\' :: segment := by
  rw [ofSegments, Text.intercalate_concat h, List.append_assoc, List.singleton_append, ofSegments]

theorem mem_ofSegments {c : Char} (h : c ∈ ofSegments segments) : c = '\\' ∨ ∃ s ∈ segments, c ∈ s := by
  induction segments with
  | nil => exact absurd h (by simp [ofSegments])
  | cons s segments ih =>
    by_cases hs : segments = []
    · rw [hs, ofSegments_singleton] at h
      exact Or.inr ⟨s, List.mem_cons_self, h⟩
    · rw [ofSegments_cons hs, List.mem_append, List.mem_cons] at h
      rcases h with h | h | h
      · exact Or.inr ⟨s, List.mem_cons_self, h⟩
      · exact Or.inl h
      · exact (ih h).imp_right fun ⟨s', hm, hc⟩ => ⟨s', List.mem_cons_of_mem s hm, hc⟩

theorem head?_ofSegments (hne : segment ≠ []) (segments : List Text) :
    (ofSegments (segment :: segments)).head? = segment.head? := by
  by_cases hs : segments = []
  · rw [hs, ofSegments_singleton]
  · obtain ⟨c, rest, rfl⟩ := List.exists_cons_of_ne_nil hne
    rw [ofSegments_cons hs]
    rfl

theorem isReference_ofSegments (h : ∀ s ∈ segments, IsSegment s) : IsReference (ofSegments segments) := by
  refine ⟨fun c hc => ?_, fun c hc => ?_, fun c hc => ?_⟩
  · rcases mem_ofSegments hc with rfl | ⟨s, hs, hm⟩
    · decide
    · exact (h s hs).unblank c hm
  · rcases mem_ofSegments hc with rfl | ⟨s, hs, hm⟩
    · decide
    · rintro rfl
      exact absurd ((h s hs).bare '.' hm) (by decide)
  · cases segments with
    | nil => exact absurd hc (by simp [ofSegments])
    | cons s segments =>
      have hs := h s List.mem_cons_self
      rw [head?_ofSegments hs.ne_nil] at hc
      exact hs.bare c (List.mem_of_mem_head? hc)

theorem ofSegments_ne_nil (h : ∀ s ∈ segments, IsSegment s) (hne : segments ≠ []) :
    ofSegments segments ≠ [] := by
  obtain ⟨s, rest, rfl⟩ := List.exists_cons_of_ne_nil hne
  by_cases hr : rest = []
  · rw [hr, ofSegments_singleton]
    exact (h s List.mem_cons_self).ne_nil
  · rw [ofSegments_cons hr]
    simp

theorem getLast?_ofSegments (hne : segment ≠ []) (segments : List Text) :
    (ofSegments (segments ++ [segment])).getLast? = segment.getLast? := by
  by_cases hs : segments = []
  · rw [hs, List.nil_append, ofSegments_singleton]
  · rw [ofSegments_concat hs, List.getLast?_append, List.getLast?_cons_of_ne_nil hne,
      List.getLast?_eq_some_getLast hne]
    rfl

/-- Without some of its segments, a name is no longer. -/
theorem length_ofSegments_filter (p : Text → Bool) (segments : List Text) :
    (ofSegments (segments.filter p)).length ≤ (ofSegments segments).length := by
  induction segments with
  | nil => exact Nat.le_refl _
  | cons s segments ih =>
    by_cases hs : segments = []
    · rw [hs, List.filter_cons]
      split
      · exact Nat.le_refl _
      · exact Nat.zero_le _
    · rw [ofSegments_cons hs, List.length_append, List.length_cons, List.filter_cons]
      split
      · by_cases none : segments.filter p = []
        · rw [none, ofSegments_singleton]
          omega
        · rw [ofSegments_cons none, List.length_append, List.length_cons]
          omega
      · omega

/-- The short name is the last segment. -/
theorem short_ofSegments_concat (h : ∀ s ∈ segments ++ [segment], IsSegment s) :
    short (ofSegments (segments ++ [segment])) = segment := by
  have bare := (h segment (by simp)).bare
  rw [short, trim_eq_self (isReference_ofSegments h).unblank]
  by_cases hs : segments = []
  · rw [hs, List.nil_append, ofSegments_singleton, Text.afterLast_eq_self bare]
  · rw [ofSegments_concat hs, Text.afterLast_append_cons isSeparator_backslash, Text.afterLast_eq_self bare]

/-- The scope consists of the segments before the last. -/
theorem scope_ofSegments_concat (h : ∀ s ∈ segments ++ [segment], IsSegment s) :
    scope (ofSegments (segments ++ [segment])) = ofSegments segments := by
  have reference := isReference_ofSegments h
  have bare := (h segment (by simp)).bare
  rw [scope, trim_eq_self reference.unblank, dropLeading_eq_self reference.bare]
  by_cases hs : segments = []
  · rw [hs, List.nil_append, ofSegments_singleton, Text.beforeLast_eq_nil bare]
    rfl
  · rw [ofSegments_concat hs, Text.beforeLast_append_cons isSeparator_backslash bare]

/-- A segment inside the scope of other segments. -/
theorem join_ofSegments (h : ∀ s ∈ segments ++ [segment], IsSegment s) :
    join (ofSegments segments) segment = ofSegments (segments ++ [segment]) := by
  have front : ∀ s ∈ segments, IsSegment s := fun s hs => h s (List.mem_append_left _ hs)
  have own := h segment (by simp)
  have last : normalize segment = segment := normalize_of_bare own.unblank own.bare
  rw [join, normalize_eq_self (isReference_ofSegments front), last]
  by_cases hs : segments = []
  · rw [hs, List.nil_append, ofSegments_singleton]
    rfl
  · rw [if_neg (ofSegments_ne_nil front hs), ofSegments_concat hs]

end Segments

end DeclGen.Name
