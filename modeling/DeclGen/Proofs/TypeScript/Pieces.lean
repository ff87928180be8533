import DeclGen.Proofs.TypeScript.Scan

/-!
# The pieces between all bars

The scan for `null` cuts a text at bars, so whatever it takes for `null` stands between two bars of the text,
wherever they are.

* `pieces` : the parts between the bars, brackets or not; `mem_pieces_of_hasNull` : the scan finds no others;
* `Quiet` : no piece reads `null`; `Calm` : the last one may;
* `Seam` : a text that leaves no `null` beside it, such as a bracket; `Calm.append` : calm texts with a seam
  between them are calm;
* `HoldsNull` : `null` between two bars of a key; `seam_propertyKey` : any other key is a seam.
-/

namespace DeclGen.TypeScript
open Text (isBlank trim split)

/-! ## Pieces -/

/-- The parts between all bars, without blanks around them. -/
def pieces (t : Text) : List Text := (split (· = '|') t).map trim

/-- An alternative without bars is a piece, and the first alternative is the first piece. -/
theorem mem_split_of_mem_alternatives (t : Text) : ∀ depth : Nat, ∃ first rest piece pieces,
    alternatives depth t = first :: rest ∧ split (· = '|') t = piece :: pieces ∧
      ('|' ∉ first → first = piece) ∧ ∀ part ∈ rest, '|' ∉ part → part ∈ pieces := by
  induction t with
  | nil => exact fun _ => ⟨[], [], [], [], rfl, rfl, fun _ => rfl, fun _ h => absurd h List.not_mem_nil⟩
  | cons c t ih =>
    intro depth
    by_cases hc : c = '|'
    · subst hc
      by_cases outside : depth = 0
      · obtain ⟨first, rest, piece, pieces, ha, hs, hfirst, hrest⟩ := ih 0
        refine ⟨[], first :: rest, [], piece :: pieces, ?_, ?_, fun _ => rfl, ?_⟩
        · rw [alternatives_cons, if_pos (by simpa using outside), ha]
        · rw [split, if_pos (by decide), hs]
        · intro part hp hbar
          rcases List.mem_cons.1 hp with rfl | hp
          · rw [hfirst hbar]
            exact List.mem_cons_self
          · exact List.mem_cons_of_mem _ (hrest part hp hbar)
      · obtain ⟨first, rest, piece, pieces, ha, hs, -, hrest⟩ := ih (depthAfter depth '|')
        refine ⟨'|' :: first, rest, [], piece :: pieces, ?_, ?_, ?_, ?_⟩
        · rw [alternatives_cons, if_neg (by simpa using outside), ha]
          rfl
        · rw [split, if_pos (by decide), hs]
        · exact fun hbar => absurd List.mem_cons_self hbar
        · exact fun part hp hbar => List.mem_cons_of_mem _ (hrest part hp hbar)
    · obtain ⟨first, rest, piece, pieces, ha, hs, hfirst, hrest⟩ := ih (depthAfter depth c)
      refine ⟨c :: first, rest, c :: piece, pieces, ?_, ?_, ?_, hrest⟩
      · rw [alternatives_cons, if_neg (by simp [hc]), ha]
        rfl
      · rw [split, if_neg (by simpa using hc), hs]
      · exact fun hbar => congrArg (c :: ·) (hfirst fun h => hbar (List.mem_cons_of_mem c h))

/-- What the scan takes for `null` is a piece. -/
theorem mem_pieces_of_hasNull {t : Text} (h : hasNull t = true) : "null".toList ∈ pieces t := by
  obtain ⟨part, hp, hnull⟩ := List.mem_map.1 (hasNull_iff.1 h)
  have bar : '|' ∉ part := by
    intro hm
    have kept := Text.mem_trim hm (by decide)
    rw [hnull] at kept
    exact absurd kept (by decide)
  obtain ⟨first, rest, piece, others, ha, hs, hfirst, hrest⟩ := mem_split_of_mem_alternatives t 0
  rw [ha] at hp
  rw [pieces, hs]
  refine List.mem_map.2 ⟨part, ?_, hnull⟩
  rcases List.mem_cons.1 hp with rfl | hp
  · rw [hfirst bar]
    exact List.mem_cons_self
  · exact List.mem_cons_of_mem _ (hrest part hp bar)

theorem bar_of_isBlank (c : Char) (h : isBlank c = true) : decide (c = '|') = false := by
  refine decide_eq_false ?_
  rintro rfl
  exact absurd h (by decide)

theorem pieces_trim (t : Text) : pieces (trim t) = pieces t := Text.map_trim_split_trim bar_of_isBlank t

/-- A bar starts a further piece. -/
theorem pieces_bar (t u : Text) : pieces (t ++ " | ".toList ++ u) = pieces t ++ pieces u := by
  have shape : t ++ " | ".toList ++ u = (t ++ [' ']) ++ '|' :: (' ' :: u) := by simp
  rw [shape, pieces, Text.split_append_cons (by decide), List.map_append]
  rw [Text.map_trim_split_concat (by decide) (by decide), Text.map_trim_split_cons (by decide) (by decide)]
  rfl

/-! ## Quiet and calm texts -/

/-- No piece reads `null`. -/
def Quiet (t : Text) : Prop := "null".toList ∉ pieces t

/-- No piece but the last one reads `null`. -/
def Calm (t : Text) : Prop := "null".toList ∉ (pieces t).dropLast

instance (t : Text) : Decidable (Quiet t) := inferInstanceAs (Decidable (¬ _))

instance (t : Text) : Decidable (Calm t) := inferInstanceAs (Decidable (¬ _))

theorem calm_nil : Calm [] := by decide

theorem Quiet.calm {t : Text} (h : Quiet t) : Calm t := fun hm => h (List.dropLast_subset _ hm)

/-- Whatever stands around the text as far as the next bars, no piece reads `null`. -/
def Seam (s : Text) : Prop := ∀ l r : Text, '|' ∉ l → '|' ∉ r → Quiet (l ++ s ++ r)

theorem notMem_of_mem_split {t piece : Text} (h : piece ∈ split (· = '|') t) : '|' ∉ piece :=
  fun hm => absurd (Text.eq_false_of_mem_split h _ hm) (by decide)

theorem Calm.append_seam {t s : Text} (ht : Calm t) (hs : Seam s) : Quiet (t ++ s) := by
  obtain ⟨front, last, hsplit, hm⟩ := Text.split_append_left (p := (· = '|')) t
  have bar : '|' ∉ last := notMem_of_mem_split (t := t) (by simp [hsplit])
  have seam := hs last [] bar List.not_mem_nil
  rw [List.append_nil, Quiet, pieces] at seam
  rw [Calm, pieces, hsplit, List.map_append, List.map_singleton, List.dropLast_concat] at ht
  rw [Quiet, pieces, hm, List.map_append, List.mem_append, not_or]
  exact ⟨ht, seam⟩

theorem Calm.append {t s u : Text} (ht : Calm t) (hs : Seam s) (hu : Calm u) : Calm (t ++ s ++ u) := by
  obtain ⟨front, last, hsplit, hm⟩ := Text.split_append_left (p := (· = '|')) t
  obtain ⟨first, rest, hsplit', hm'⟩ := Text.split_append_right (p := (· = '|')) u
  have bar : '|' ∉ last := notMem_of_mem_split (t := t) (by simp [hsplit])
  have bar' : '|' ∉ first := notMem_of_mem_split (t := u) (by simp [hsplit'])
  have seam := hs last first bar bar'
  rw [Quiet, pieces] at seam
  rw [Calm, pieces, hsplit, List.map_append, List.map_singleton, List.dropLast_concat] at ht
  rw [Calm, pieces, hsplit', List.map_cons] at hu
  have whole : pieces (t ++ s ++ u) =
      front.map trim ++ ((split (· = '|') (last ++ s ++ first)).map trim ++ rest.map trim) := by
    rw [pieces, List.append_assoc, hm, ← List.append_assoc, hm', List.map_append, List.map_append]
  rw [Calm, whole, List.dropLast_append_of_ne_nil (by simp [Text.split_ne_nil]), List.mem_append, not_or]
  refine ⟨ht, fun hmem => ?_⟩
  by_cases alone : rest = []
  · rw [alone, List.map_nil, List.append_nil] at hmem
    exact seam (List.dropLast_subset _ hmem)
  · have more : rest.map trim ≠ [] := by simpa using alone
    rw [List.dropLast_append_of_ne_nil more, List.mem_append] at hmem
    rw [List.dropLast_cons_of_ne_nil more] at hu
    exact hmem.elim seam fun h => hu (List.mem_cons_of_mem _ h)

/-- A text without bars that has a character of its own, neither a blank nor a letter of `null`. -/
theorem seam_of_mem {s : Text} (bar : '|' ∉ s) {c : Char} (hc : c ∈ s)
    (other : isBlank c = false ∧ c ∉ "null".toList) : Seam s := by
  intro l r hl hr
  have whole : split (· = '|') (l ++ s ++ r) = [l ++ s ++ r] := Text.split_of_notMem (by simp [hl, bar, hr])
  rw [Quiet, pieces, whole, List.map_singleton, List.mem_singleton]
  intro null
  have kept : c ∈ trim (l ++ s ++ r) := Text.mem_trim (by simp [hc]) other.1
  exact other.2 (null ▸ kept)

theorem calm_intercalate {sep : Text} (hs : Seam sep) {us : List Text} (h : ∀ u ∈ us, Calm u) :
    Calm (List.intercalate sep us) := by
  induction us with
  | nil => exact calm_nil
  | cons u us ih =>
    rw [List.forall_mem_cons] at h
    cases us with
    | nil => simpa using h.1
    | cons v us =>
      rw [List.intercalate_cons_cons]
      exact h.1.append hs (ih h.2)

theorem quiet_intercalate {us : List Text} (h : ∀ u ∈ us, Quiet u) :
    Quiet (List.intercalate " | ".toList us) := by
  induction us with
  | nil => decide
  | cons u us ih =>
    rw [List.forall_mem_cons] at h
    cases us with
    | nil => simpa using h.1
    | cons v us =>
      rw [List.intercalate_cons_cons, Quiet, pieces_bar, List.mem_append, not_or]
      exact ⟨h.1, ih h.2⟩

/-! ## Keys -/

/-- The key has `null` between two bars. -/
def HoldsNull (key : Text) : Prop := "null".toList ∈ (pieces key).tail.dropLast

instance : DecidablePred HoldsNull := fun _ => inferInstanceAs (Decidable (_ ∈ _))

theorem escape_cons (c : Char) (t : Text) :
    escape (c :: t) = (if c = '\\' || c = '\'' then ['\\', c] else [c]) ++ escape t := rfl

theorem split_escape (t : Text) : split (· = '|') (escape t) = (split (· = '|') t).map escape := by
  induction t with
  | nil => rfl
  | cons c t ih =>
    obtain ⟨piece, others, hs⟩ := List.exists_cons_of_ne_nil (Text.split_ne_nil (· = '|') t)
    rw [hs] at ih
    by_cases bar : c = '|'
    · subst bar
      have first : escape ('|' :: t) = '|' :: escape t := rfl
      rw [first, split, if_pos (by decide), split, if_pos (by decide), ih, hs]
      rfl
    · rw [split, if_neg (by simpa using bar), hs, List.map_cons, escape_cons, escape_cons]
      split
      · rw [List.cons_append, List.singleton_append, split, if_neg (by decide), split,
          if_neg (by simpa using bar), ih]
        rfl
      · rw [List.singleton_append, split, if_neg (by simpa using bar), ih]
        rfl

/-- Only a text without quotes and backslashes is escaped to `null`. -/
theorem trim_of_trim_escape {t : Text} (h : trim (escape t) = "null".toList) : trim t = "null".toList := by
  have same : '\\' ∉ escape t → escape t = t := by
    clear h
    induction t with
    | nil => exact fun _ => rfl
    | cons c t ih =>
      intro plain
      rw [escape_cons] at plain ⊢
      split at plain
      · simp at plain
      · rw [if_neg ‹_›, ih fun hm => plain (List.mem_append_right _ hm)]
        rfl
  have plain : '\\' ∉ escape t := by
    intro hm
    have kept := Text.mem_trim hm (by decide)
    rw [h] at kept
    exact absurd kept (by decide)
  rwa [same plain] at h

/-- What stands around a text belongs to its first and to its last piece. -/
theorem mem_split_around {l t r piece : Text} (hl : '|' ∉ l) (hr : '|' ∉ r)
    (h : piece ∈ split (· = '|') (l ++ t ++ r)) :
    (∃ u, piece = l ++ u) ∨ (∃ u, piece = u ++ r) ∨ piece ∈ (split (· = '|') t).tail.dropLast := by
  have backBar : ∀ c ∈ r, decide (c = '|') = false := fun c hc => decide_eq_false fun bar => hr (bar ▸ hc)
  obtain ⟨first, rest, hsplit, hfront⟩ := Text.split_append_right (p := (· = '|')) t
  obtain ⟨others, last, front, whole⟩ := Text.split_append (l ++ t) backBar
  have firstBar : ∀ c ∈ l ++ first, decide (c = '|') = false := by
    intro c hc
    rcases List.mem_append.1 hc with hc | hc
    · exact decide_eq_false fun bar => hl (bar ▸ hc)
    · exact Text.eq_false_of_mem_split (hsplit ▸ List.mem_cons_self) c hc
  rw [hfront, Text.split_eq_singleton firstBar, List.singleton_append] at front
  have others_eq : others = ((l ++ first) :: rest).dropLast := by rw [front, List.dropLast_concat]
  rw [whole, List.mem_append, List.mem_singleton, others_eq] at h
  rcases h with h | rfl
  · by_cases alone : rest = []
    · simp [alone] at h
    · rw [List.dropLast_cons_of_ne_nil alone] at h
      rcases List.mem_cons.1 h with rfl | h
      · exact Or.inl ⟨first, rfl⟩
      · rw [hsplit]
        exact Or.inr (Or.inr h)
  · exact Or.inr (Or.inl ⟨last, rfl⟩)

theorem seam_quote {key : Text} (h : ¬ HoldsNull key) {mark : Text} (hm : '|' ∉ mark) :
    Seam (quote key ++ mark ++ ": ".toList) := by
  intro l r hl hr hnull
  have shape : l ++ (quote key ++ mark ++ ": ".toList) ++ r =
      (l ++ ['\'']) ++ escape key ++ (['\''] ++ mark ++ ": ".toList ++ r) := by simp [quote]
  obtain ⟨piece, hp, null⟩ := List.mem_map.1 hnull
  rw [shape] at hp
  rcases mem_split_around (by simp [hl]) (by simp [hm, hr]) hp with ⟨u, rfl⟩ | ⟨u, rfl⟩ | hp
  · have kept : '\'' ∈ trim (l ++ ['\''] ++ u) := Text.mem_trim (by simp) (by decide)
    rw [null] at kept
    exact absurd kept (by decide)
  · have kept : ':' ∈ trim (u ++ (['\''] ++ mark ++ ": ".toList ++ r)) := Text.mem_trim (by simp) (by decide)
    rw [null] at kept
    exact absurd kept (by decide)
  · rw [split_escape, ← List.map_tail, ← List.map_dropLast] at hp
    obtain ⟨part, hpart, rfl⟩ := List.mem_map.1 hp
    refine h ?_
    rw [HoldsNull, pieces, ← List.map_tail, ← List.map_dropLast]
    exact List.mem_map.2 ⟨part, hpart, trim_of_trim_escape null⟩

theorem seam_propertyKey {key : Text} (h : ¬ HoldsNull key) (optional : Bool) :
    Seam (propertyKey key ++ TypeNode.optionalMark optional ++ ": ".toList) := by
  have mark : '|' ∉ TypeNode.optionalMark optional := by cases optional <;> decide
  rw [propertyKey]
  split
  · next bare =>
    have bar : '|' ∉ key := by
      intro hm
      simp only [isIdentifier, isIndex, Bool.or_eq_true, Bool.and_eq_true, List.all_eq_true] at bare
      exact bare.elim (fun h => absurd (h.2 _ hm) (by decide)) fun h => absurd (h.2 _ hm) (by decide)
    exact seam_of_mem (by simp [bar, mark]) (c := ':') (by simp) (by decide)
  · exact seam_quote h mark

end DeclGen.TypeScript
