import DeclGen.Text.Alphanumeric
import DeclGen.Text.Blank

/-!
# Starts, ends and parts of texts

* `forall_mem_of_all` : what holds of all characters of a text is checked one by one;
* `takeWhile_append_of_head?`, `dropWhile_append_of_head?` : a word ends before the first character
  that is not one of its own; `takeWhile_append_cons`, `dropWhile_append_cons` : such a character hides
  what follows it; `word_append_inj` : words are told apart from what follows them;
* `afterLast_eq_self`, `afterLast_append_cons`, `beforeLast_eq_nil`, `beforeLast_append_cons` : what stands around the
  last separator; `afterLast_dropWhile` : leading separators are of no account to what follows the last;
* `trim_trim`, `head?_trim`, `getLast?_trim`, `trim_eq_self_iff` : a trimmed text neither starts nor ends with a blank;
* `Blank` : a text of blanks alone; `trim_eq_nil_iff` : nothing is left of it;
* `trim_cons`, `trim_concat` : a blank at an end is dropped; `mem_trim`, `trim_induction` : nothing else is;
  `trim_append_eq_iff` : what is dropped behind a trimmed text;
* `contains_dropWhile`, `contains_map` : texts that hold a part if another text does;
* `split_of_notMem`, `split_append_cons`, `split_append_left`, `split_append_right`, `split_intercalate` : the pieces
  of texts that are put together; `map_trim_split_trim` : blanks around a text are of no account to them;
* `toInt?_ofInt`, `ofInt_injective` : an integer is read back from its decimal digits.
-/

namespace DeclGen.Text

/-- What a look at each character of a text tells. -/
theorem forall_mem_of_all {p : Char → Prop} [DecidablePred p] {t : Text} (h : (t.all fun c => p c) = true) :
    ∀ c ∈ t, p c := by
  simpa using h

/-! ## Words -/

section Words
variable {p : Char → Bool} {t : Text}

theorem head?_dropWhile (t : Text) : ∀ c ∈ (t.dropWhile p).head?, p c = false := by
  intro c hc
  have := List.head?_dropWhile_not p t
  rw [Option.mem_def] at hc
  rwa [hc] at this

theorem dropWhile_eq_self_of_head? (h : ∀ c ∈ t.head?, p c = false) : t.dropWhile p = t := by
  cases t with
  | nil => rfl
  | cons d t => exact List.dropWhile_cons_of_neg (by simp [h d rfl])

/-- A word ends where what follows it starts. -/
theorem dropWhile_append_of_head? {word : Text} (hw : ∀ c ∈ word, p c = true)
    (h : ∀ c ∈ t.head?, p c = false) : (word ++ t).dropWhile p = t := by
  rw [List.dropWhile_append_of_pos hw, dropWhile_eq_self_of_head? h]

theorem takeWhile_append_of_head? {word : Text} (hw : ∀ c ∈ word, p c = true)
    (h : ∀ c ∈ t.head?, p c = false) : (word ++ t).takeWhile p = word := by
  have parts := List.takeWhile_append_dropWhile (p := p) (l := word ++ t)
  rw [dropWhile_append_of_head? hw h] at parts
  exact List.append_cancel_right parts

/-- Words are told apart from what follows them. -/
theorem word_append_inj {u v s t : Text} (hu : ∀ c ∈ u, p c = true) (hv : ∀ c ∈ v, p c = true)
    (hs : ∀ c ∈ s.head?, p c = false) (ht : ∀ c ∈ t.head?, p c = false) (h : u ++ s = v ++ t) :
    u = v ∧ s = t := by
  have words := congrArg (List.takeWhile p) h
  have rests := congrArg (List.dropWhile p) h
  rw [takeWhile_append_of_head? hu hs, takeWhile_append_of_head? hv ht] at words
  rw [dropWhile_append_of_head? hu hs, dropWhile_append_of_head? hv ht] at rests
  exact ⟨words, rests⟩

theorem takeWhile_append_cons {c : Char} (hc : p c = false) (t rest : Text) :
    (t ++ c :: rest).takeWhile p = t.takeWhile p := by
  induction t with
  | nil => exact List.takeWhile_cons_of_neg (by simp [hc])
  | cons d t ih => rw [List.cons_append, List.takeWhile_cons, List.takeWhile_cons, ih]

theorem dropWhile_append_cons {c : Char} (hc : p c = false) (t rest : Text) :
    (t ++ c :: rest).dropWhile p = t.dropWhile p ++ c :: rest := by
  induction t with
  | nil => exact List.dropWhile_cons_of_neg (by simp [hc])
  | cons d t ih =>
    rw [List.cons_append, List.dropWhile_cons, List.dropWhile_cons, ih]
    split <;> rfl

end Words

/-! ## Last separators -/

section Last
variable {p : Char → Bool} {t : Text}

theorem passed_of_bare (h : ∀ c ∈ t, p c = false) : ∀ c ∈ t.reverse, (!p c) = true := by
  intro c hc
  rw [h c (List.mem_reverse.1 hc)]
  rfl

theorem afterLast_eq_self (h : ∀ c ∈ t, p c = false) : afterLast p t = t := by
  have all : (t.reverse ++ []).takeWhile (!p ·) = t.reverse ++ [] :=
    List.takeWhile_append_of_pos (passed_of_bare h)
  rw [List.append_nil] at all
  rw [afterLast, all, List.reverse_reverse]

theorem afterLast_append_cons {c : Char} (hc : p c = true) (front back : Text) :
    afterLast p (front ++ c :: back) = afterLast p back := by
  have stop : (c :: front.reverse).takeWhile (!p ·) = [] := by simp [hc]
  rw [afterLast, List.reverse_append, List.reverse_cons, List.append_assoc, List.singleton_append,
    List.takeWhile_append, stop, List.append_nil]
  split
  · next whole => rw [afterLast, (List.takeWhile_prefix _).eq_of_length whole]
  · rfl

theorem beforeLast_eq_nil (h : ∀ c ∈ t, p c = false) : beforeLast p t = [] := by
  have none : (t.reverse ++ []).dropWhile (!p ·) = [].dropWhile (!p ·) :=
    List.dropWhile_append_of_pos (passed_of_bare h)
  rw [List.append_nil] at none
  rw [beforeLast, none]
  rfl

theorem beforeLast_append_cons {front back : Text} {c : Char} (hc : p c = true)
    (hb : ∀ d ∈ back, p d = false) : beforeLast p (front ++ c :: back) = front := by
  rw [beforeLast, List.reverse_append, List.reverse_cons, List.append_assoc,
    List.dropWhile_append_of_pos (passed_of_bare hb)]
  simp [hc]

theorem afterLast_dropWhile (p : Char → Bool) (t : Text) : afterLast p (t.dropWhile p) = afterLast p t := by
  induction t with
  | nil => rfl
  | cons c t ih =>
    by_cases hc : p c = true
    · rw [List.dropWhile_cons_of_pos hc, ih]
      exact (afterLast_append_cons hc [] t).symm
    · rw [List.dropWhile_cons_of_neg hc]

end Last

/-! ## Trimming -/

theorem trimEnd_eq_self {t : Text} (h : ∀ c ∈ t.getLast?, isBlank c = false) : trimEnd t = t := by
  have hr : ∀ c ∈ t.reverse.head?, isBlank c = false := by rwa [List.head?_reverse]
  rw [trimEnd, dropWhile_eq_self_of_head? hr, List.reverse_reverse]

theorem trimStart_eq_self {t : Text} (h : ∀ c ∈ t.head?, isBlank c = false) : trimStart t = t :=
  dropWhile_eq_self_of_head? h

theorem trim_eq_self {t : Text} (h : ∀ c ∈ t, isBlank c = false) : trim t = t := by
  rw [trim, trimStart_eq_self fun c hc => h c (List.mem_of_mem_head? hc)]
  exact trimEnd_eq_self fun c hc => h c (List.mem_of_mem_getLast? hc)

theorem isPrefix_trim (t : Text) : trim t <+: trimStart t := by
  have := List.dropWhile_suffix (l := (trimStart t).reverse) isBlank
  rwa [← List.reverse_prefix, List.reverse_reverse] at this

theorem head?_trimStart_of_trim {t : Text} {c : Char} (h : (trim t).head? = some c) :
    (trimStart t).head? = some c := by
  obtain ⟨rest, hrest⟩ := isPrefix_trim t
  rw [← hrest, List.head?_append, h]
  rfl

theorem head?_trim (t : Text) : ∀ c ∈ (trim t).head?, isBlank c = false :=
  fun c hc => head?_dropWhile t c (head?_trimStart_of_trim hc)

/-- The blanks of type expressions are blanks. -/
theorem trimStart_skipSpacing (t : Text) : trimStart (skipSpacing t) = trimStart t := by
  induction t with
  | nil => rfl
  | cons c t ih =>
    by_cases hc : isSpacing c = true
    · rw [skipSpacing, List.dropWhile_cons_of_pos hc, trimStart, trimStart,
        List.dropWhile_cons_of_pos (isBlank_of_isSpacing hc)]
      exact ih
    · rw [skipSpacing, List.dropWhile_cons_of_neg hc]

theorem getLast?_trim (t : Text) : ∀ c ∈ (trim t).getLast?, isBlank c = false := by
  intro c hc
  rw [trim, trimEnd, List.getLast?_reverse] at hc
  exact head?_dropWhile _ c hc

/-- What is kept when a blank at an end is dropped is kept by trimming. -/
theorem trim_induction {P : Text → Prop} (start : ∀ c t, isBlank c = true → P (c :: t) → P t)
    (ends : ∀ c t, isBlank c = true → P (t ++ [c]) → P t) {t : Text} (h : P t) : P (trim t) := by
  have front : ∀ t : Text, P t → P (t.dropWhile isBlank) := by
    intro t
    induction t with
    | nil => exact id
    | cons c t ih =>
      intro h
      by_cases hc : isBlank c = true
      · rw [List.dropWhile_cons_of_pos hc]
        exact ih (start c t hc h)
      · rwa [List.dropWhile_cons_of_neg hc]
  have back : ∀ r : Text, P r.reverse → P (r.dropWhile isBlank).reverse := by
    intro r
    induction r with
    | nil => exact id
    | cons c r ih =>
      intro h
      by_cases hc : isBlank c = true
      · rw [List.reverse_cons] at h
        rw [List.dropWhile_cons_of_pos hc]
        exact ih (ends c _ hc h)
      · rwa [List.dropWhile_cons_of_neg hc]
  refine back _ ?_
  rw [List.reverse_reverse]
  exact front t h

theorem isInfix_trim (t : Text) : trim t <:+: t :=
  trim_induction (P := fun u => u <:+: t) (fun c u _ h => (List.suffix_cons c u).isInfix.trans h)
    (fun c u _ h => (List.prefix_append u [c]).isInfix.trans h) (List.infix_refl t)

theorem trim_trim (t : Text) : trim (trim t) = trim t := by
  rw [trim, trimStart_eq_self (head?_trim t), trimEnd_eq_self (getLast?_trim t)]

theorem trim_cons {c : Char} (hc : isBlank c = true) (t : Text) : trim (c :: t) = trim t := by
  rw [trim, trimStart, List.dropWhile_cons_of_pos hc]
  rfl

theorem trim_concat {c : Char} (hc : isBlank c = true) (t : Text) : trim (t ++ [c]) = trim t := by
  have hstart : trimStart (t ++ [c]) =
      if (trimStart t).isEmpty then [] else trimStart t ++ [c] := by
    rw [trimStart, List.dropWhile_append, List.dropWhile_cons_of_pos hc]
    rfl
  rw [trim, trim, hstart]
  split
  · next he => rw [List.isEmpty_iff.1 he]
  · rw [trimEnd, List.reverse_append, List.reverse_singleton, List.singleton_append,
      List.dropWhile_cons_of_pos hc]
    rfl

theorem mem_dropWhile {p : Char → Bool} {c : Char} {t : Text} (h : c ∈ t) (hc : p c = false) :
    c ∈ t.dropWhile p := by
  rw [← List.takeWhile_append_dropWhile (p := p) (l := t), List.mem_append] at h
  refine h.resolve_left fun taken => ?_
  have kept := List.all_eq_true.1 List.all_takeWhile c taken
  exact absurd (hc.symm.trans kept) (by simp)

theorem mem_trim {c : Char} {t : Text} (h : c ∈ t) (hc : isBlank c = false) : c ∈ trim t :=
  List.mem_reverse.2 (mem_dropWhile (List.mem_reverse.2 (mem_dropWhile h hc)) hc)

theorem trim_eq_self_iff {t : Text} :
    trim t = t ↔ (∀ c ∈ t.head?, isBlank c = false) ∧ ∀ c ∈ t.getLast?, isBlank c = false := by
  constructor
  · intro same
    exact ⟨same ▸ head?_trim t, same ▸ getLast?_trim t⟩
  · rintro ⟨first, last⟩
    rw [trim, trimStart_eq_self first, trimEnd_eq_self last]

/-- Nothing but blanks. -/
def Blank (t : Text) : Prop := ∀ c ∈ t, isBlank c = true

instance : DecidablePred Blank := fun _ => decidable_of_iff _ List.all_eq_true

theorem trim_eq_nil_iff {t : Text} : trim t = [] ↔ Blank t := by
  constructor
  · intro empty c hc
    refine Classical.byContradiction fun solid => ?_
    have kept := mem_trim hc (Bool.eq_false_iff.2 solid)
    rw [empty] at kept
    exact List.not_mem_nil kept
  · intro blank
    cases h : trim t with
    | nil => rfl
    | cons c u =>
      have inside : c ∈ t := (isInfix_trim t).subset (h ▸ List.mem_cons_self)
      have solid := head?_trim t c (by rw [h]; rfl)
      exact absurd (blank c inside) (by simp [solid])

/-- The end of a text that trimming drops. -/
theorem trimEnd_append (t : Text) : ∃ blanks, t = trimEnd t ++ blanks ∧ ∀ c ∈ blanks, isBlank c = true := by
  refine ⟨(t.reverse.takeWhile isBlank).reverse, ?_, fun c hc => ?_⟩
  · have parts := List.takeWhile_append_dropWhile (p := isBlank) (l := t.reverse)
    rw [trimEnd, ← List.reverse_append, parts, List.reverse_reverse]
  · exact List.all_eq_true.1 List.all_takeWhile c (List.mem_reverse.1 hc)

/-- What stands behind a trimmed text is dropped iff it is blank. -/
theorem trim_append_eq_iff {u v : Text} (hne : u ≠ []) (first : ∀ c ∈ u.head?, isBlank c = false)
    (last : ∀ c ∈ u.getLast?, isBlank c = false) : trim (u ++ v) = u ↔ ∀ c ∈ v, isBlank c = true := by
  have start : trimStart (u ++ v) = u ++ v := by
    refine trimStart_eq_self fun c hc => first c ?_
    rwa [List.head?_append, Option.or_of_isSome (List.isSome_head?.2 hne)] at hc
  rw [trim, start]
  constructor
  · intro same
    obtain ⟨blanks, parts, blank⟩ := trimEnd_append (u ++ v)
    rw [same] at parts
    rwa [List.append_cancel_left parts]
  · intro blank
    have back : ∀ c ∈ v.reverse, isBlank c = true := fun c hc => blank c (List.mem_reverse.1 hc)
    rw [trimEnd, List.reverse_append, dropWhile_append_of_head? back (by rwa [List.head?_reverse]),
      List.reverse_reverse]

/-! ## Parts of texts -/

theorem contains_dropWhile {p : Char → Bool} {d : Char} {part : Text} (hd : p d = false) (t : Text) :
    contains (d :: part) (t.dropWhile p) = contains (d :: part) t := by
  induction t with
  | nil => rfl
  | cons c t ih =>
    cases hc : p c with
    | false => rw [List.dropWhile_cons_of_neg (by simp [hc])]
    | true =>
      have hne : d ≠ c := by
        rintro rfl
        rw [hd] at hc
        exact absurd hc (by simp)
      rw [List.dropWhile_cons_of_pos hc, ih, contains]
      simp [List.isPrefixOf, hne]

theorem isPrefixOf_map {f : Char → Char} {part : Text} (hf : ∀ d ∈ part, ∀ c, f c = d ↔ c = d)
    (t : Text) : part.isPrefixOf (t.map f) = part.isPrefixOf t := by
  induction part generalizing t with
  | nil => simp
  | cons d part ih =>
    rw [List.forall_mem_cons] at hf
    cases t with
    | nil => rfl
    | cons c t =>
      have hd : (d == f c) = (d == c) := by
        rw [Bool.eq_iff_iff, beq_iff_eq, beq_iff_eq, eq_comm, hf.1 c, eq_comm]
      rw [List.map_cons, List.isPrefixOf, List.isPrefixOf, hd, ih hf.2]

theorem contains_map {f : Char → Char} {part : Text} (hf : ∀ d ∈ part, ∀ c, f c = d ↔ c = d)
    (t : Text) : contains part (t.map f) = contains part t := by
  induction t with
  | nil => rfl
  | cons c t ih =>
    have hprefix := isPrefixOf_map hf (c :: t)
    rw [List.map_cons] at hprefix ⊢
    rw [contains, contains, hprefix, ih]

/-! ## Pieces -/

section Pieces
variable {p : Char → Bool}

theorem split_append_cons {c : Char} (hc : p c = true) (s t : Text) :
    split p (s ++ c :: t) = split p s ++ split p t := by
  induction s with
  | nil => simp [split, hc]
  | cons d s ih =>
    obtain ⟨piece, pieces, hs⟩ := List.exists_cons_of_ne_nil (split_ne_nil p s)
    rw [List.cons_append, split, split, ih, hs]
    split <;> rfl

theorem split_eq_singleton {t : Text} (h : ∀ c ∈ t, p c = false) : split p t = [t] := by
  induction t with
  | nil => rfl
  | cons c t ih =>
    rw [List.forall_mem_cons] at h
    rw [split, ih h.2, if_neg (by simp [h.1])]

theorem split_of_notMem {c : Char} {t : Text} (h : c ∉ t) : split (· = c) t = [t] :=
  split_eq_singleton fun _ hd => decide_eq_false fun same => h (same ▸ hd)

theorem mem_of_mem_split {t piece : Text} (h : piece ∈ split p t) {c : Char} (hc : c ∈ piece) : c ∈ t := by
  induction t generalizing piece with
  | nil =>
    rw [List.mem_singleton.1 h] at hc
    exact absurd hc List.not_mem_nil
  | cons d t ih =>
    obtain ⟨first, pieces, hs⟩ := List.exists_cons_of_ne_nil (split_ne_nil p t)
    rw [hs] at ih
    rw [split, hs] at h
    split at h
    · rcases List.mem_cons.1 h with rfl | h
      · exact absurd hc List.not_mem_nil
      · exact List.mem_cons_of_mem d (ih h hc)
    · rcases List.mem_cons.1 h with rfl | h
      · rcases List.mem_cons.1 hc with rfl | hc
        · exact List.mem_cons_self
        · exact List.mem_cons_of_mem d (ih List.mem_cons_self hc)
      · exact List.mem_cons_of_mem d (ih (List.mem_cons_of_mem _ h) hc)

theorem exists_mem_split {t : Text} {c : Char} (h : c ∈ t) (hc : p c = false) :
    ∃ piece ∈ split p t, c ∈ piece := by
  induction t with
  | nil => exact absurd h List.not_mem_nil
  | cons d t ih =>
    obtain ⟨first, pieces, hs⟩ := List.exists_cons_of_ne_nil (split_ne_nil p t)
    rw [hs] at ih
    rw [split, hs]
    split
    · next hd =>
      rcases List.mem_cons.1 h with rfl | h
      · exact absurd (hc.symm.trans hd) (by simp)
      · obtain ⟨piece, hp, hm⟩ := ih h
        exact ⟨piece, List.mem_cons_of_mem _ hp, hm⟩
    · rcases List.mem_cons.1 h with rfl | h
      · exact ⟨_, List.mem_cons_self, List.mem_cons_self⟩
      · obtain ⟨piece, hp, hm⟩ := ih h
        rcases List.mem_cons.1 hp with rfl | hp
        · exact ⟨_, List.mem_cons_self, List.mem_cons_of_mem d hm⟩
        · exact ⟨piece, List.mem_cons_of_mem _ hp, hm⟩

/-- A text without separators is added to the last piece. -/
theorem split_append (s : Text) {t : Text} (h : ∀ c ∈ t, p c = false) :
    ∃ front last, split p s = front ++ [last] ∧ split p (s ++ t) = front ++ [last ++ t] := by
  induction s with
  | nil => exact ⟨[], [], rfl, split_eq_singleton h⟩
  | cons c s ih =>
    obtain ⟨front, last, hs, ht⟩ := ih
    rw [List.cons_append, split, split, hs, ht]
    split
    · exact ⟨[] :: front, last, rfl, rfl⟩
    · cases front with
      | nil => exact ⟨[], c :: last, rfl, rfl⟩
      | cons piece front => exact ⟨(c :: piece) :: front, last, rfl, rfl⟩

theorem map_trim_split_cons {c : Char} (hc : isBlank c = true) (hp : p c = false) (t : Text) :
    (split p (c :: t)).map trim = (split p t).map trim := by
  obtain ⟨piece, pieces, hs⟩ := List.exists_cons_of_ne_nil (split_ne_nil p t)
  rw [split, if_neg (by simp [hp]), hs, List.map_cons, List.map_cons, trim_cons hc]

theorem map_trim_split_concat {c : Char} (hc : isBlank c = true) (hp : p c = false) (t : Text) :
    (split p (t ++ [c])).map trim = (split p t).map trim := by
  have single : ∀ d ∈ [c], p d = false := by simpa using hp
  obtain ⟨front, last, hs, ht⟩ := split_append t single
  rw [hs, ht, List.map_append, List.map_append, List.map_singleton, List.map_singleton, trim_concat hc]

/-- Blanks at the ends of a text make no difference to its trimmed pieces. -/
theorem map_trim_split_trim (hp : ∀ c, isBlank c = true → p c = false) (t : Text) :
    (split p (trim t)).map trim = (split p t).map trim :=
  trim_induction (P := fun u => (split p u).map trim = (split p t).map trim)
    (fun c u hc h => (map_trim_split_cons hc (hp c hc) u).symm.trans h)
    (fun c u hc h => (map_trim_split_concat hc (hp c hc) u).symm.trans h) rfl

/-- What is put behind a text is cut together with its last piece. -/
theorem split_append_left (s : Text) : ∃ front last, split p s = front ++ [last] ∧
    ∀ t, split p (s ++ t) = front ++ split p (last ++ t) := by
  induction s with
  | nil => exact ⟨[], [], rfl, fun t => rfl⟩
  | cons c s ih =>
    obtain ⟨front, last, hs, ht⟩ := ih
    by_cases hc : p c = true
    · refine ⟨[] :: front, last, ?_, fun t => ?_⟩
      · rw [split, if_pos hc, hs, List.cons_append]
      · rw [List.cons_append, split, if_pos hc, ht, List.cons_append]
    · cases front with
      | nil =>
        refine ⟨[], c :: last, ?_, fun t => ?_⟩
        · rw [split, if_neg hc, hs]
          rfl
        · rw [List.cons_append, split, if_neg hc, ht, List.cons_append, List.nil_append, List.nil_append,
            split, if_neg hc]
      | cons piece front =>
        refine ⟨(c :: piece) :: front, last, ?_, fun t => ?_⟩
        · rw [split, if_neg hc, hs]
          rfl
        · rw [List.cons_append, split, if_neg hc, ht]
          rfl

/-- What is put in front of a text is cut together with its first piece. -/
theorem split_append_right (t : Text) : ∃ first rest, split p t = first :: rest ∧
    ∀ s, split p (s ++ t) = split p (s ++ first) ++ rest := by
  induction t with
  | nil => exact ⟨[], [], rfl, fun s => by rw [List.append_nil, List.append_nil]⟩
  | cons c t ih =>
    obtain ⟨first, rest, ht, hs⟩ := ih
    by_cases hc : p c = true
    · refine ⟨[], split p t, by rw [split, if_pos hc], fun s => ?_⟩
      rw [split_append_cons hc, List.append_nil]
    · refine ⟨c :: first, rest, ?_, fun s => ?_⟩
      · rw [split, if_neg hc, ht]
      · have shift : ∀ u : Text, s ++ c :: u = s ++ [c] ++ u := fun u => by simp
        rw [shift, hs, ← shift]

theorem intercalate_concat {sep : Text} {pieces : List Text} (hne : pieces ≠ []) (last : Text) :
    List.intercalate sep (pieces ++ [last]) = List.intercalate sep pieces ++ sep ++ last := by
  induction pieces with
  | nil => exact absurd rfl hne
  | cons piece pieces ih =>
    cases pieces with
    | nil => simp [List.intercalate_cons_cons]
    | cons next pieces =>
      have rest := ih (by simp)
      rw [List.cons_append] at rest
      rw [List.cons_append, List.cons_append, List.intercalate_cons_cons, rest, List.intercalate_cons_cons]
      simp only [List.append_assoc]

/-- Pieces without the separator are found again between separators. -/
theorem split_intercalate {c : Char} {pieces : List Text} (hne : pieces ≠ [])
    (h : ∀ piece ∈ pieces, c ∉ piece) : split (· = c) (List.intercalate [c] pieces) = pieces := by
  induction pieces with
  | nil => exact absurd rfl hne
  | cons piece pieces ih =>
    rw [List.forall_mem_cons] at h
    cases pieces with
    | nil => rw [List.intercalate_singleton, split_of_notMem h.1]
    | cons next pieces =>
      rw [List.intercalate_cons_cons, List.append_assoc, List.singleton_append,
        split_append_cons (decide_eq_true rfl), split_of_notMem h.1, ih (by simp) h.2]
      rfl

end Pieces

/-! ## Decimal numbers -/

theorem toNatFrom_of_isDigit {t : Text} (h : ∀ c ∈ t, c.isDigit = true) (n : Nat) :
    toNatFrom n t = some (Nat.ofDigitChars 10 t n) := by
  induction t generalizing n with
  | nil => rfl
  | cons c t ih =>
    rw [List.forall_mem_cons] at h
    rw [toNatFrom, if_pos h.1, ih h.2, Nat.ofDigitChars_cons]

theorem isDigit_of_mem_ofNat {n : Nat} {c : Char} (h : c ∈ ofNat n) : c.isDigit = true :=
  Nat.isDigit_of_mem_toDigits (by decide) (by decide) h

theorem ofNat_ne_nil (n : Nat) : ofNat n ≠ [] := Nat.toDigits_ne_nil

theorem toNat?_ofNat (n : Nat) : toNat? (ofNat n) = some n := by
  rw [toNat?, if_neg (ofNat_ne_nil n), toNatFrom_of_isDigit fun c => isDigit_of_mem_ofNat]
  exact congrArg some (Nat.ofDigitChars_toDigits (by decide) (by decide))

/-- A number is read back from its decimal digits. -/
theorem toInt?_ofInt (n : Int) : toInt? (ofInt n) = some n := by
  cases n with
  | ofNat n =>
    show toInt? (ofNat n) = some (Int.ofNat n)
    have unsigned {c : Char} {t : Text} (hc : c.isDigit = false) : ofNat n ≠ c :: t := by
      intro h
      have digit := isDigit_of_mem_ofNat (h ▸ List.mem_cons_self : c ∈ ofNat n)
      rw [hc] at digit
      exact absurd digit (by decide)
    unfold toInt?
    split
    · next h => exact absurd h (unsigned (by decide))
    · next h => exact absurd h (unsigned (by decide))
    · rw [toNat?_ofNat]
      rfl
  | negSucc n =>
    show (toNat? (ofNat (n + 1))).map _ = _
    rw [toNat?_ofNat]
    rfl

theorem ofInt_injective : Function.Injective ofInt := by
  intro m n h
  have same : some m = some n := by rw [← toInt?_ofInt, ← toInt?_ofInt, h]
  exact Option.some.inj same

theorem isBlank_of_isDigit {c : Char} (h : c.isDigit = true) : isBlank c = false := by
  have bounds := isDigit_iff.1 h
  simp only [isBlank, Bool.or_eq_false_iff, Bool.and_eq_false_iff, decide_eq_false_iff_not]
  omega

theorem isBlank_of_mem_ofInt {n : Int} : ∀ c ∈ ofInt n, isBlank c = false := by
  intro c hc
  cases n with
  | ofNat n => exact isBlank_of_isDigit (isDigit_of_mem_ofNat hc)
  | negSucc n =>
    rcases List.mem_cons.1 hc with rfl | hc
    · decide
    · exact isBlank_of_isDigit (isDigit_of_mem_ofNat hc)

end DeclGen.Text
