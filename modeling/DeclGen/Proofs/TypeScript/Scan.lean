import DeclGen.Proofs.TypeScript.Alternatives

/-!
# Where the scan for `null` stands

The scan carries the number of open brackets and nothing else, so what it finds in a text that is put
together is told by the parts and by the depths between them.

* `depthFrom` : the depth at which the scan of a text ends;
* `alternatives_append` : the alternatives of a text and of what is put behind it;
* `hasNull_bar` : `null` in a union of two texts, the first of which closes its brackets;
* `hasNull_append_null` : `null` put behind a text is found iff the text closes its brackets;
* `wrapNullable_wrapNullable_iff` : the texts for which adding `null` twice is adding it once.
-/

namespace DeclGen.TypeScript
open Text (isBlank trim)

/-- The bracket depth after a text. -/
def depthFrom (depth : Nat) (t : Text) : Nat := t.foldl depthAfter depth

/-! ## Texts put together -/

/-- The last alternative of a text goes on with what is put behind it. -/
theorem alternatives_append (depth : Nat) (t : Text) : ∃ before last,
    alternatives depth t = before ++ [last] ∧
    ∀ u, alternatives depth (t ++ u) = before ++ prepend last (alternatives (depthFrom depth t) u) := by
  induction t generalizing depth with
  | nil => exact ⟨[], [], rfl, scans_nil depth⟩
  | cons c t ih =>
    by_cases bar : (c = '|' && depth = 0) = true
    · obtain ⟨before, last, ht, hu⟩ := ih 0
      have after : depthFrom depth (c :: t) = depthFrom 0 t := by
        simp only [Bool.and_eq_true, decide_eq_true_eq] at bar
        rw [bar.1, bar.2]
        rfl
      refine ⟨[] :: before, last, ?_, fun u => ?_⟩
      · rw [alternatives_cons, if_pos bar, ht, List.cons_append]
      · rw [List.cons_append, alternatives_cons, if_pos bar, hu, after, List.cons_append]
    · obtain ⟨before, last, ht, hu⟩ := ih (depthAfter depth c)
      -- The character belongs to the first alternative, which without a bar in `t` is the last one, too.
      cases before with
      | nil =>
        refine ⟨[], c :: last, ?_, fun u => ?_⟩
        · rw [alternatives_cons, if_neg bar, ht]
          rfl
        · rw [List.cons_append, alternatives_cons, if_neg bar, hu, List.nil_append, prepend_prepend]
          rfl
      | cons first before =>
        refine ⟨(c :: first) :: before, last, ?_, fun u => ?_⟩
        · rw [alternatives_cons, if_neg bar, ht]
          rfl
        · rw [List.cons_append, alternatives_cons, if_neg bar, hu]
          rfl

/-- What is passed over outside of all brackets closes its own. -/
theorem Scans.depthFrom_eq_zero {t : Text} (h : Scans 0 t) : depthFrom 0 t = 0 := by
  obtain ⟨before, last, -, hu⟩ := alternatives_append 0 t
  refine Decidable.byContradiction fun inside => ?_
  -- Behind an open bracket, a bar would belong to the last alternative.
  have kept : alternatives (depthFrom 0 t) ['|'] = [['|']] := by
    rw [alternatives_cons, if_neg (by simpa using inside)]
    rfl
  have cut := (h ['|']).symm.trans (hu ['|'])
  rw [kept, alternatives_cons, if_pos (by decide)] at cut
  have ends := congrArg List.getLast? cut
  simp [prepend, alternatives] at ends

/-! ## `null` -/

theorem hasNull_iff {t : Text} : hasNull t = true ↔ "null".toList ∈ (alternatives 0 t).map trim := by
  simp only [hasNull, List.any_eq_true, decide_eq_true_eq, List.mem_map]

theorem map_trim_prepend {b : Char} (hb : isBlank b = true) {parts : List Text} (hne : parts ≠ []) :
    (prepend [b] parts).map trim = parts.map trim := by
  obtain ⟨part, parts, rfl⟩ := List.exists_cons_of_ne_nil hne
  rw [prepend, List.map_cons, List.map_cons, List.singleton_append, Text.trim_cons hb]

/-- Behind a text that closes its brackets, a bar starts a further alternative. -/
theorem map_trim_alternatives_bar {t : Text} (h : depthFrom 0 t = 0) (u : Text) :
    (alternatives 0 (t ++ " | ".toList ++ u)).map trim =
      (alternatives 0 t).map trim ++ (alternatives 0 u).map trim := by
  obtain ⟨before, last, ht, hu⟩ := alternatives_append 0 t
  have blank : Scans 0 [' '] := scans_single (by decide) (by decide)
  have bar : alternatives 0 ([' '] ++ '|' :: ([' '] ++ u)) = [' '] :: prepend [' '] (alternatives 0 u) := by
    rw [alternatives_bar blank, blank]
  have whole : alternatives 0 (t ++ " | ".toList ++ u) =
      before ++ (last ++ [' ']) :: prepend [' '] (alternatives 0 u) := by
    rw [List.append_assoc]
    show alternatives 0 (t ++ ([' '] ++ '|' :: ([' '] ++ u))) = _
    rw [hu, h, bar, prepend]
  rw [whole, ht, List.map_append, List.map_append, List.map_cons, Text.trim_concat (by decide),
    map_trim_prepend (by decide) (alternatives_ne_nil 0 u)]
  simp

theorem hasNull_bar {t : Text} (h : depthFrom 0 t = 0) (u : Text) :
    hasNull (t ++ " | ".toList ++ u) = true ↔ hasNull t = true ∨ hasNull u = true := by
  rw [hasNull_iff, map_trim_alternatives_bar h, List.mem_append, hasNull_iff, hasNull_iff]

/-- A union of texts that close their brackets has `null` if one of them has it. -/
theorem hasNull_intercalate {us : List Text} (hne : us ≠ []) (h : ∀ u ∈ us, depthFrom 0 u = 0) :
    hasNull (List.intercalate " | ".toList us) = true ↔ ∃ u ∈ us, hasNull u = true := by
  induction us with
  | nil => exact absurd rfl hne
  | cons u us ih =>
    rw [List.forall_mem_cons] at h
    cases us with
    | nil => simp
    | cons v us =>
      rw [List.intercalate_cons_cons, hasNull_bar h.1, ih (by simp) h.2]
      simp only [List.mem_cons, exists_eq_or_imp]

theorem Scans.hasNull_iff {t : Text} (h : Scans 0 t) : hasNull t = true ↔ trim t = "null".toList := by
  have single : alternatives 0 t = [t] := by simpa [alternatives, prepend] using h []
  rw [TypeScript.hasNull_iff, single, List.map_singleton, List.mem_singleton, eq_comm]

theorem append_null (t : Text) : t ++ " | null".toList = t ++ " | ".toList ++ "null".toList := by simp

/-- Where a text has no `null`, the one put behind it is found iff the text closes its brackets. -/
theorem hasNull_append_null {t : Text} (h : ¬ hasNull t = true) :
    hasNull (t ++ " | null".toList) = true ↔ depthFrom 0 t = 0 := by
  constructor
  · intro found
    refine Decidable.byContradiction fun inside => ?_
    obtain ⟨before, last, ht, hu⟩ := alternatives_append 0 t
    have apart : ∀ c ∈ " | null".toList, c ∉ brackets ∧ (c = '|' → depthFrom 0 t ≠ 0) := by
      intro c hc
      have all : ∀ c ∈ " | null".toList, c ∉ brackets := Text.forall_mem_of_all (by decide)
      exact ⟨all c hc, fun _ => inside⟩
    have whole : alternatives 0 (t ++ " | null".toList) = before ++ [last ++ " | null".toList] := by
      have ends := scans_of_forall apart []
      rw [List.append_nil] at ends
      rw [hu, ends]
      simp [prepend, alternatives]
    rw [hasNull_iff, whole, List.map_append, List.mem_append, List.map_singleton, List.mem_singleton] at found
    rcases found with found | found
    · refine h (hasNull_iff.2 ?_)
      rw [ht, List.map_append]
      exact List.mem_append_left _ found
    · have bar : '|' ∈ trim (last ++ " | null".toList) := Text.mem_trim (by simp) (by decide)
      rw [← found] at bar
      exact absurd bar (by decide)
  · intro outside
    rw [append_null, hasNull_bar outside]
    exact Or.inr (by decide)

/-! ## Adding `null` twice -/

theorem solid_trim {t : Text} (h : trim t ≠ []) : Solid (trim t) := by
  have first : (trim t).head? = some ((trim t).head h) := List.head?_eq_some_head h
  have last : (trim t).getLast? = some ((trim t).getLast h) := List.getLast?_eq_some_getLast h
  exact ⟨⟨_, first, Text.head?_trim t _ first⟩, _, last, Text.getLast?_trim t _ last⟩

theorem Solid.append_null {t : Text} (h : Solid t) : Solid (t ++ " | null".toList) := by
  have null : Solid "null".toList := ⟨⟨'n', rfl, by decide⟩, 'l', rfl, by decide⟩
  rw [TypeScript.append_null]
  exact h.around null _

theorem wrapNullable_of_kept {t : Text} (h : trim t = "any".toList ∨ hasNull (trim t) = true) :
    wrapNullable t = trim t := by
  simp only [wrapNullable]
  rw [if_pos (by simpa using h)]

theorem wrapNullable_of_added {t : Text} (h : ¬ (trim t = "any".toList ∨ hasNull (trim t) = true)) :
    wrapNullable t = trim t ++ " | null".toList := by
  simp only [wrapNullable]
  rw [if_neg (by simpa using h)]

/-- A text is kept, with `null` behind it, iff it has no blanks at its ends and is neither `any` nor has
`null`. -/
theorem wrapNullable_eq_append_iff (t : Text) :
    wrapNullable t = t ++ " | null".toList ↔ trim t = t ∧ t ≠ "any".toList ∧ ¬ hasNull t = true := by
  have shorter := (Text.isInfix_trim t).length_le
  by_cases kept : trim t = "any".toList ∨ hasNull (trim t) = true
  · rw [wrapNullable_of_kept kept]
    refine iff_of_false (fun h => ?_) ?_
    · have length := congrArg List.length h
      simp at length
      omega
    · rintro ⟨same, hany, hnull⟩
      rw [same] at kept
      exact kept.elim hany hnull
  · rw [wrapNullable_of_added kept, List.append_cancel_right_eq]
    refine ⟨fun same => ⟨same, ?_⟩, And.left⟩
    rwa [same, not_or] at kept

/-- A solid text stays as it is iff it is `any` or has `null`. -/
theorem wrapNullable_eq_self_iff {t : Text} (h : trim t = t) :
    wrapNullable t = t ↔ t = "any".toList ∨ hasNull t = true := by
  by_cases kept : trim t = "any".toList ∨ hasNull (trim t) = true
  · rw [wrapNullable_of_kept kept, h]
    rw [h] at kept
    exact iff_of_true rfl kept
  · rw [wrapNullable_of_added kept, h]
    rw [h] at kept
    exact iff_of_false (by simp) kept

/-- **Adding `null` twice.** It is the same as adding it once iff the text is `any` or has `null` already, or
is not blank and closes its brackets. -/
theorem wrapNullable_wrapNullable_iff (t : Text) :
    wrapNullable (wrapNullable t) = wrapNullable t ↔
      trim t = "any".toList ∨ hasNull (trim t) = true ∨ trim t ≠ [] ∧ depthFrom 0 (trim t) = 0 := by
  by_cases kept : trim t = "any".toList ∨ hasNull (trim t) = true
  · have same : wrapNullable (trim t) = trim t :=
      (wrapNullable_eq_self_iff (Text.trim_trim t)).2 kept
    rw [wrapNullable_of_kept kept, same, ← or_assoc]
    exact iff_of_true rfl (Or.inl kept)
  · rw [wrapNullable_of_added kept, ← or_assoc, or_iff_right kept]
    by_cases blank : trim t = []
    · rw [blank]
      exact iff_of_false (by decide) (by simp)
    · have other : trim t ++ " | null".toList ≠ "any".toList := by
        intro h
        have length := congrArg List.length h
        simp at length
      rw [wrapNullable_eq_self_iff (solid_trim blank).append_null.trim_eq, or_iff_right other,
        hasNull_append_null fun found => kept (Or.inr found)]
      exact (and_iff_right blank).symm

/-- Behind an open bracket `null` is added again, behind a closed one it is not. -/
theorem wrapNullable_wrapNullable_brackets :
    ¬ wrapNullable (wrapNullable ['(']) = wrapNullable ['('] ∧
      wrapNullable (wrapNullable ['(', ')']) = wrapNullable ['(', ')'] :=
  ⟨fun same => absurd ((wrapNullable_wrapNullable_iff _).1 same) (by decide),
    (wrapNullable_wrapNullable_iff _).2 (by decide)⟩

end DeclGen.TypeScript
