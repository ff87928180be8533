import DeclGen.Proofs.TypeScript.Scan

/-!
# Texts that close their brackets

Between brackets the scan counts on, so it leaves a quoted key at the depth at which it found it iff the key
closes the brackets that it opens, and no others.

* `closes`, `IsBalanced` : a text that does so;
* `IsBalanced.scans_propertyKey` : inside of brackets, such a key is passed over;
* `Scans.trim` : a text that is passed over is passed over without the blanks around it.
-/

namespace DeclGen.TypeScript
open Text (isBlank trim)

/-! ## Balanced texts -/

/-- Does the text close the given number of brackets and all that it opens, and no others? -/
def closes : Nat → Text → Bool
  | opened, [] => opened = 0
  | opened, c :: t =>
    if c ∈ ['{', '<', '(', '['] then closes (opened + 1) t
    else if c ∈ ['}', '>', ')', ']'] then opened != 0 && closes (opened - 1) t
    else closes opened t

/-- The text closes the brackets that it opens, and no others. -/
def IsBalanced (t : Text) : Prop := closes 0 t = true

instance : DecidablePred IsBalanced := fun t => inferInstanceAs (Decidable (closes 0 t = true))

theorem closes_quote (key : Text) : closes 0 (quote key) = closes 0 key := by
  have inside : ∀ opened, closes opened (escape key ++ ['\'']) = closes opened key := by
    induction key with
    | nil => exact fun opened => rfl
    | cons c key ih =>
      intro opened
      have first : escape (c :: key) = (if c = '\\' || c = '\'' then ['\\', c] else [c]) ++ escape key := rfl
      -- The backslash in front is no bracket.
      have skipped : ∀ t, closes opened ('\\' :: t) = closes opened t := fun t => by simp [closes]
      have same : closes opened (escape (c :: key) ++ ['\'']) = closes opened (c :: (escape key ++ ['\''])) := by
        rw [first]
        split
        · exact skipped _
        · rfl
      rw [same, closes, closes, ih, ih, ih]
  exact inside 0

/-- Inside of brackets, a text that closes what is open is passed over down to the depth below. -/
theorem alternatives_of_closes {depth : Nat} (hd : depth ≠ 0) (rest : Text) (t : Text) :
    ∀ {opened : Nat}, closes opened t = true →
      alternatives (depth + opened) (t ++ rest) = prepend t (alternatives depth rest) := by
  induction t with
  | nil =>
    intro opened h
    have none : opened = 0 := by simpa [closes] using h
    rw [none]
    exact scans_nil depth rest
  | cons c t ih =>
    intro opened h
    have inside : ¬ (c = '|' && decide (depth + opened = 0)) = true := by simp [hd]
    rw [closes] at h
    rw [List.cons_append, alternatives_cons, if_neg inside, depthAfter]
    split at h
    · rw [if_pos ‹_›, Nat.add_assoc, ih h, prepend_prepend]
      rfl
    · rw [if_neg ‹_›]
      split at h
      · obtain ⟨some, h⟩ : opened ≠ 0 ∧ closes (opened - 1) t = true := by simpa using h
        rw [if_pos ‹_›, Nat.add_sub_assoc (Nat.one_le_iff_ne_zero.2 some), ih h, prepend_prepend]
        rfl
      · rw [if_neg ‹_›, ih h, prepend_prepend]
        rfl

theorem IsBalanced.scans {t : Text} (h : IsBalanced t) {depth : Nat} (hd : depth ≠ 0) : Scans depth t :=
  fun rest => alternatives_of_closes hd rest t h

theorem IsBalanced.scans_propertyKey {key : Text} (h : IsBalanced key) {depth : Nat} (hd : depth ≠ 0) :
    Scans depth (propertyKey key) := by
  have quoted : IsBalanced (quote key) := (closes_quote key).trans h
  rw [propertyKey]
  split
  · exact h.scans hd
  · exact quoted.scans hd

/-! ## Blanks around a text -/

theorem prepend_injective {front : Text} {parts parts' : List Text} (hne : parts ≠ []) (hne' : parts' ≠ [])
    (h : prepend front parts = prepend front parts') : parts = parts' := by
  obtain ⟨part, parts, rfl⟩ := List.exists_cons_of_ne_nil hne
  obtain ⟨part', parts', rfl⟩ := List.exists_cons_of_ne_nil hne'
  simpa [prepend] using h

theorem scans_blank {b : Char} (hb : isBlank b = true) (depth : Nat) : Scans depth [b] := by
  refine scans_single (fun hm => ?_) fun bar => ?_
  · have unblank : ∀ c ∈ brackets, isBlank c = false := Text.forall_mem_of_all (by decide)
    exact absurd hb (by simp [unblank b hm])
  · rw [bar] at hb
    exact absurd hb (by decide)

theorem Scans.of_cons {depth : Nat} {b : Char} (hb : isBlank b = true) {t : Text} (h : Scans depth (b :: t)) :
    Scans depth t := by
  intro rest
  have whole := h rest
  have apart : prepend (b :: t) (alternatives depth rest) = prepend [b] (prepend t (alternatives depth rest)) :=
    (prepend_prepend [b] t _).symm
  rw [List.cons_append, ← List.singleton_append, scans_blank hb, apart] at whole
  refine prepend_injective (alternatives_ne_nil _ _) ?_ whole
  cases alternatives depth rest <;> simp [prepend]

theorem Scans.of_concat {depth : Nat} {b : Char} (hb : isBlank b = true) {t : Text}
    (h : Scans depth (t ++ [b])) : Scans depth t := by
  obtain ⟨before, last, -, hu⟩ := alternatives_append depth t
  have cut : ∀ rest, before ++ prepend (last ++ [b]) (alternatives (depthFrom depth t) rest) =
      prepend (t ++ [b]) (alternatives depth rest) := by
    intro rest
    rw [← h, List.append_assoc, hu, scans_blank hb, prepend_prepend]
  have whole : before = [] ∧ last = t := by
    have ends := cut []
    cases before with
    | nil => simpa [alternatives, prepend] using ends
    | cons first before => simp [alternatives, prepend] at ends
  obtain ⟨rfl, rfl⟩ := whole
  intro rest
  rw [hu, List.nil_append]
  rw [prepend_injective (alternatives_ne_nil _ _) (alternatives_ne_nil _ _) (cut rest)]

theorem Scans.trim {depth : Nat} {t : Text} (h : Scans depth t) : Scans depth (trim t) :=
  Text.trim_induction (P := Scans depth) (fun _ _ hc h => h.of_cons hc) (fun _ _ hc h => h.of_concat hc) h

end DeclGen.TypeScript
