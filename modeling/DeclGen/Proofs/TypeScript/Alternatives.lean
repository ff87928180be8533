import DeclGen.Proofs.Text
import DeclGen.TypeScript.TypeText

/-!
# The alternatives in a type text

`null` is added to a type text after a scan of its characters that counts brackets and knows no more
of types.

* `Scans depth t` : from the given depth, the scan passes over `t` as a part of one alternative and
  returns to that depth. Texts are composed of such parts, and brackets protect what is in them;
* `Solid` : a text that neither starts nor ends with a blank;
* `wrapNullable_eq` : where it is not found, it is added.
-/

namespace DeclGen.TypeScript
open Text (isBlank trim)

/-- The brackets that are counted. -/
def brackets : List Char := ['{', '<', '(', '[', '}', '>', ')', ']']

/-- The text has no brackets and no bars. -/
def IsPlain (t : Text) : Prop := ∀ c ∈ t, c ∉ brackets ∧ c ≠ '|'

/-! ## The scan -/

/-- Puts a text before the first of the parts. -/
def prepend (front : Text) : List Text → List Text
  | [] => [front]
  | part :: parts => (front ++ part) :: parts

theorem alternatives_cons (depth : Nat) (c : Char) (t : Text) :
    alternatives depth (c :: t) =
      if c = '|' && depth = 0 then [] :: alternatives 0 t
      else prepend [c] (alternatives (depthAfter depth c) t) := by
  rw [alternatives]
  split
  · rfl
  · cases alternatives (depthAfter depth c) t <;> rfl

theorem alternatives_ne_nil (depth : Nat) (t : Text) : alternatives depth t ≠ [] := by
  cases t with
  | nil => simp [alternatives]
  | cons c t =>
    rw [alternatives_cons]
    split
    · simp
    · cases alternatives (depthAfter depth c) t <;> simp [prepend]

theorem prepend_prepend (front back : Text) (parts : List Text) :
    prepend front (prepend back parts) = prepend (front ++ back) parts := by
  cases parts <;> simp [prepend]

/-- From the given depth, the text is passed over as a part of one alternative. -/
def Scans (depth : Nat) (t : Text) : Prop :=
  ∀ rest, alternatives depth (t ++ rest) = prepend t (alternatives depth rest)

theorem scans_nil (depth : Nat) : Scans depth [] := by
  intro rest
  cases h : alternatives depth rest with
  | nil => exact absurd h (alternatives_ne_nil depth rest)
  | cons part parts => simp [h, prepend]

theorem Scans.append {depth : Nat} {t u : Text} (ht : Scans depth t) (hu : Scans depth u) :
    Scans depth (t ++ u) := by
  intro rest
  rw [List.append_assoc, ht, hu, prepend_prepend]

theorem scans_single {depth : Nat} {c : Char} (hc : c ∉ brackets) (hbar : c = '|' → depth ≠ 0) :
    Scans depth [c] := by
  intro rest
  have hdepth : depthAfter depth c = depth := by
    simp only [brackets, List.mem_cons, List.not_mem_nil, or_false, not_or] at hc
    simp [depthAfter, hc]
  rw [List.singleton_append, alternatives_cons, hdepth, if_neg]
  simpa using hbar

/-- A text without brackets, and outside all brackets without bars. -/
theorem scans_of_forall {depth : Nat} {t : Text} (h : ∀ c ∈ t, c ∉ brackets ∧ (c = '|' → depth ≠ 0)) :
    Scans depth t := by
  induction t with
  | nil => exact scans_nil depth
  | cons c t ih =>
    rw [List.forall_mem_cons] at h
    exact (scans_single h.1.1 h.1.2).append (ih h.2)

theorem IsPlain.scans {t : Text} (h : IsPlain t) (depth : Nat) : Scans depth t :=
  scans_of_forall fun c hc => ⟨(h c hc).1, fun hbar => absurd hbar (h c hc).2⟩

/-- A text between brackets, where its bars are passed over too. -/
theorem scans_bracketed {depth : Nat} {t : Text} (first last : Char)
    (hf : first ∈ ['{', '<', '(', '[']) (hl : last ∈ ['}', '>', ')', ']']) (h : Scans (depth + 1) t) :
    Scans depth (first :: (t ++ [last])) := by
  have opening : ∀ c ∈ ['{', '<', '(', '['], c ≠ '|' := by simp
  have closing : ∀ c ∈ ['}', '>', ')', ']'], c ∉ ['{', '<', '(', '['] := by simp
  have opened : depthAfter depth first = depth + 1 := if_pos hf
  have closed : depthAfter (depth + 1) last = depth := by
    rw [depthAfter, if_neg (closing last hl), if_pos hl, Nat.add_sub_cancel]
  intro rest
  rw [List.cons_append, alternatives_cons, if_neg (by simp [opening first hf]), opened,
    List.append_assoc, h, List.singleton_append, alternatives_cons, if_neg (by simp), closed,
    prepend_prepend, prepend_prepend, List.singleton_append, List.cons_append]

theorem scans_intercalate {depth : Nat} {sep : Text} (hsep : Scans depth sep) {us : List Text}
    (h : ∀ u ∈ us, Scans depth u) : Scans depth (List.intercalate sep us) := by
  induction us with
  | nil => exact scans_nil depth
  | cons u us ih =>
    rw [List.forall_mem_cons] at h
    cases us with
    | nil => simpa using h.1
    | cons v us =>
      rw [List.intercalate_cons_cons]
      exact (h.1.append hsep).append (ih h.2)

/-! ## Blanks around alternatives -/

/-- The text neither starts nor ends with a blank and is not empty. -/
def Solid (t : Text) : Prop :=
  (∃ c ∈ t.head?, isBlank c = false) ∧ ∃ c ∈ t.getLast?, isBlank c = false

theorem Solid.trim_eq {t : Text} (h : Solid t) : trim t = t := by
  obtain ⟨⟨c, hc, hcb⟩, d, hd, hdb⟩ := h
  have first : ∀ b ∈ t.head?, isBlank b = false := fun b hb => Option.mem_unique hb hc ▸ hcb
  have last : ∀ b ∈ t.getLast?, isBlank b = false := fun b hb => Option.mem_unique hb hd ▸ hdb
  rw [trim, Text.trimStart_eq_self first, Text.trimEnd_eq_self last]

theorem solid_of_unblank {t : Text} (hne : t ≠ []) (h : ∀ c ∈ t, isBlank c = false) : Solid t :=
  ⟨⟨t.head hne, List.head?_eq_some_head hne, h _ (List.head_mem hne)⟩,
    t.getLast hne, List.getLast?_eq_some_getLast hne, h _ (List.getLast_mem hne)⟩

theorem solid_cons_concat {c d : Char} (hc : isBlank c = false) (hd : isBlank d = false) (t : Text) :
    Solid (c :: (t ++ [d])) := by
  refine ⟨⟨c, rfl, hc⟩, d, ?_, hd⟩
  rw [← List.cons_append, List.getLast?_concat]
  rfl

theorem Solid.around {t u : Text} (ht : Solid t) (hu : Solid u) (mid : Text) :
    Solid (t ++ mid ++ u) := by
  obtain ⟨⟨c, hc, hcb⟩, -⟩ := ht
  obtain ⟨-, d, hd, hdb⟩ := hu
  refine ⟨⟨c, ?_, hcb⟩, d, ?_, hdb⟩
  · rw [List.append_assoc, List.head?_append, Option.mem_def.1 hc]
    rfl
  · rw [List.getLast?_append, Option.mem_def.1 hd]
    rfl

theorem solid_intercalate {sep : Text} {us : List Text} (hne : us ≠ []) (h : ∀ u ∈ us, Solid u) :
    Solid (List.intercalate sep us) := by
  induction us with
  | nil => exact absurd rfl hne
  | cons u us ih =>
    rw [List.forall_mem_cons] at h
    cases us with
    | nil => simpa using h.1
    | cons v us =>
      rw [List.intercalate_cons_cons]
      exact h.1.around (ih (by simp) h.2) sep

/-! ## Unions -/

/-- The types that `null` is not added to. -/
def nullish : List Text := ["any".toList, "null".toList]

theorem alternatives_bar {t : Text} (h : Scans 0 t) (rest : Text) :
    alternatives 0 (t ++ '|' :: rest) = t :: alternatives 0 rest := by
  rw [h, alternatives_cons, if_pos (by decide), prepend, List.append_nil]

theorem wrapNullable_eq {t : Text} (ht : Solid t) (hany : t ≠ "any".toList) (hnull : ¬ hasNull t) :
    wrapNullable t = t ++ " | null".toList := by
  simp only [wrapNullable, ht.trim_eq, hany, hnull]
  rfl

end DeclGen.TypeScript
