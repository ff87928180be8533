import DeclGen.Proofs.Docblock.Tokens

/-!
# The type expression behind a tag

* `Stops`, `Ends` : where the scan ends; `ends_iff` : behind a type expression it takes blanks alone iff one is there;
* `scanType_broken` : a type expression with line breaks in it is found, if the scan ends behind it;
* `Untagged`, `varType_append` : the first tag of a documentation block decides, unless nothing is found behind it;
* `varType_of_broken` : what the first `@var` gives.
-/

namespace DeclGen.Docblock
open Text (isSpacing isBlank trimStart trim)
open TypeExpr (parse)

variable {c : Char} {t t' gap following before : Text}

/-! ## Where the scan ends -/

/-- Outside of brackets, the scan stops before the text. -/
def Stops : Text → Prop
  | [] => True
  | c :: t => c = '$' ∨ c ∈ closing ∨ c = '*' ∧ t.head? = some '/'

instance : DecidablePred Stops
  | [] => inferInstanceAs (Decidable True)
  | c :: t => inferInstanceAs (Decidable (c = '$' ∨ c ∈ closing ∨ c = '*' ∧ t.head? = some '/'))

/-- A type expression ends before the text: one of the blanks at the start ends it, or what stands behind them. -/
def Ends (following : Text) : Prop :=
  (following.takeWhile isBlank).any isSpacing = true ∨ Stops (trimStart following)

instance : DecidablePred Ends := fun following =>
  inferInstanceAs (Decidable ((following.takeWhile isBlank).any isSpacing = true ∨ Stops (trimStart following)))

theorem scan_of_stops (h : Stops t) (bar : Bool) : scan .reading 0 bar t = ⟨[], 0, t⟩ := by
  have apart : ∀ c ∈ opening, c ∉ closing ∧ c ≠ '$' ∧ c ≠ '*' := Text.forall_mem_of_all (by decide)
  cases t with
  | nil => rfl
  | cons c t =>
    have opens : c ∉ opening := by
      intro hc
      obtain ⟨closes, dollar, star⟩ := apart c hc
      rcases h with hd | hc | ⟨hs, -⟩
      · exact dollar hd
      · exact closes hc
      · exact star hs
    rw [scan_reading, if_neg opens]
    by_cases closes : c ∈ closing
    · rw [if_pos closes, if_pos rfl]
    · rw [if_neg closes, if_pos rfl, if_pos]
      rcases h with hd | hc | ⟨hs, next⟩
      · simp [hd]
      · exact absurd hc closes
      · simp [hs, next]

/-- What neither ends the scan nor is one of its blanks is taken. -/
theorem scan_of_not_stops (h : ¬ Stops (c :: t)) (hc : isSpacing c = false) (bar : Bool) :
    ∃ s : Scan, scan .reading 0 bar (c :: t) = s.push c := by
  simp only [Stops, not_or, not_and] at h
  obtain ⟨dollar, closes, star⟩ := h
  rw [scan_reading]
  by_cases opens : c ∈ opening
  · exact ⟨_, if_pos opens⟩
  · refine ⟨scan .reading 0 (c = '|') t, ?_⟩
    rw [if_neg opens, if_neg closes, if_pos rfl, if_neg, if_neg (by simp [hc])]
    simpa [dollar] using star

/-- A blank that the scan does not know is taken. -/
theorem scan_blank (blank : isBlank c = true) (hc : isSpacing c = false) (bar : Bool) (t : Text) :
    scan .reading 0 bar (c :: t) = (scan .reading 0 false t).push c := by
  obtain ⟨opens, closes, dollar⟩ := notMem_of_isBlank blank
  have star : c ≠ '*' := by
    rintro rfl
    exact absurd blank (by decide)
  have mark : c ≠ '|' := by
    rintro rfl
    exact absurd blank (by decide)
  rw [scan_reading, if_neg opens, if_neg closes, if_pos rfl, if_neg (by simp [dollar, star]), if_neg (by simp [hc]),
    decide_eq_false mark]

/-- A blank that the scan knows ends it, if no bar stands behind. -/
theorem scan_spacing (hc : isSpacing c = true) (next : (trimStart t).head? ≠ some '|') :
    scan .reading 0 false (c :: t) = ⟨[], 0, c :: t⟩ := by
  have blank := Text.isBlank_of_isSpacing hc
  obtain ⟨opens, closes, dollar⟩ := notMem_of_isBlank blank
  have star : c ≠ '*' := by
    rintro rfl
    exact absurd hc (by decide)
  have apart : joinsBar false (c :: t) = false := by
    have skipped : trimStart (c :: t) = trimStart t := List.dropWhile_cons_of_pos blank
    simp [joinsBar, skipped, next]
  rw [scan_reading, if_neg opens, if_neg closes, if_pos rfl, if_neg (by simp [dollar, star]), if_pos hc, apart]
  rfl

/-- **The end.** The scan takes blanks alone iff a type expression ends before the text. -/
theorem ends_iff (next : (trimStart following).head? ≠ some '|') : Ends following ↔
    (scan .reading 0 false following).depth = 0 ∧
      ∀ c ∈ (scan .reading 0 false following).taken, isBlank c = true := by
  induction following with
  | nil => exact ⟨fun _ => ⟨rfl, by simp [scan]⟩, fun _ => Or.inr trivial⟩
  | cons c t ih =>
    by_cases blank : isBlank c = true
    · have skipped : trimStart (c :: t) = trimStart t := List.dropWhile_cons_of_pos blank
      rw [skipped] at next
      rw [Ends, skipped, List.takeWhile_cons_of_pos blank]
      by_cases spacing : isSpacing c = true
      · rw [scan_spacing spacing next]
        exact ⟨fun _ => ⟨rfl, by simp⟩, fun _ => Or.inl (by rw [List.any_cons, spacing, Bool.true_or])⟩
      · have solid : isSpacing c = false := Bool.eq_false_iff.2 spacing
        rw [scan_blank blank solid, List.any_cons, solid, Bool.false_or]
        refine (ih next).trans (and_congr_right fun _ => ?_)
        exact ⟨fun h => List.forall_mem_cons.2 ⟨blank, h⟩, fun h => (List.forall_mem_cons.1 h).2⟩
    · have kept : trimStart (c :: t) = c :: t := List.dropWhile_cons_of_neg blank
      rw [Ends, kept, List.takeWhile_cons_of_neg blank]
      constructor
      · intro h
        rw [scan_of_stops (h.resolve_left (by simp))]
        exact ⟨rfl, by simp⟩
      · rintro ⟨-, blanks⟩
        refine Or.inr (Classical.byContradiction fun goes => ?_)
        have solid : isSpacing c = false :=
          Bool.eq_false_iff.2 fun spacing => blank (Text.isBlank_of_isSpacing spacing)
        obtain ⟨s, hs⟩ := scan_of_not_stops goes solid false
        rw [hs] at blanks
        exact blank (blanks c List.mem_cons_self)

/-! ## Type expressions -/

/-- A text that neither starts nor ends with a blank is what `scanType` gives iff the scan takes it, closes all
brackets, and takes nothing but blanks behind it. -/
theorem scanType_eq_iff {u raw : Text} {s : Scan} (hne : u ≠ []) (first : ∀ c ∈ u.head?, isBlank c = false)
    (last : ∀ c ∈ u.getLast?, isBlank c = false) (reads : scan .reading 0 false (trimStart raw) = s.prepend u) :
    (scanType raw).map Prod.fst = some u ↔ s.depth = 0 ∧ ∀ c ∈ s.taken, isBlank c = true := by
  have depth : (s.prepend u).depth = s.depth := rfl
  have taken : trim (s.prepend u).taken = u ↔ ∀ c ∈ s.taken, isBlank c = true :=
    Text.trim_append_eq_iff hne first last
  rw [scanType, reads, ← taken, depth]
  split
  · next found =>
    rw [Bool.and_eq_true, decide_eq_true_eq] at found
    rw [Option.map_some, Option.some_inj]
    exact (and_iff_right found.1).symm
  · next lost =>
    refine iff_of_false (by simp) fun ⟨closed, same⟩ => lost ?_
    rw [same, closed]
    simpa using hne

/-- Blanks before the text are dropped, and it starts with none. -/
theorem Plain.trimStart_append (h : Plain t) (hb : Broken 0 none t t') (blank : ∀ c ∈ gap, isBlank c = true)
    (following : Text) : trimStart (gap ++ t' ++ following) = t' ++ following := by
  rw [List.append_assoc]
  refine Text.dropWhile_append_of_head? blank fun c hc => h.isBlank_head c ?_
  rwa [List.head?_append, hb.head?_eq, Option.or_of_isSome (List.isSome_head?.2 h.ne_nil)] at hc

/-- The type expression is found, in what may be other spaces, iff the scan ends behind it. -/
theorem scanType_broken (h : Plain t) (hb : Broken 0 none t t') :
    ∃ u, parse u = parse t ∧ (t' = t → u = t) ∧ ∀ gap following : Text, (∀ c ∈ gap, isBlank c = true) →
      (trimStart following).head? ≠ some '|' →
        ((scanType (gap ++ t' ++ following)).map Prod.fst = some u ↔ Ends following) := by
  obtain ⟨u, hu, first, reads⟩ := scan_outer hb h.readable
  refine ⟨u, h.parse_eq hu.respaced, hu.same, fun gap following blank next => ?_⟩
  have hne : u ≠ [] := by
    rintro rfl
    exact h.ne_nil (List.getLast?_eq_none_iff.1 hu.last.symm)
  have found := reads false following
  rw [h.endsBar_eq, ← h.trimStart_append hb blank] at found
  rw [ends_iff next]
  exact scanType_eq_iff hne (by rw [first]; exact h.isBlank_head) (by rw [hu.last]; exact h.isBlank_last) found

/-! ## Tags -/

/-- The tag does not stand in the text with a blank behind it. -/
def Untagged (tag before : Text) : Prop := ∀ c, isBlank c = true → ¬ tag ++ [c] <:+: before

section Tags
variable {word : Text}

theorem tagTails_cons_of_ne (hc : c ≠ '@') (t : Text) :
    tagTails ('@' :: word) (c :: t) = tagTails ('@' :: word) t := by
  rw [tagTails, Text.after?, if_neg (Ne.symm hc)]

theorem tagTails_append_of_notMem {front : Text} (h : '@' ∉ front) (t : Text) :
    tagTails ('@' :: word) (front ++ t) = tagTails ('@' :: word) t := by
  induction front with
  | nil => rfl
  | cons c front ih =>
    rw [List.mem_cons, not_or] at h
    rw [List.cons_append, tagTails_cons_of_ne (Ne.symm h.1), ih h.2]

/-- A tag holds no second at sign, so none starts in the text before another one and reaches into it. -/
theorem ne_append_of_untagged (single : '@' ∉ word) (untagged : Untagged ('@' :: word) ('@' :: before))
    (t : Text) (hc : isBlank c = true) (more : Text) :
    '@' :: before ++ ('@' :: word ++ t) ≠ '@' :: word ++ c :: more := by
  intro same
  rcases List.append_eq_append_iff.1 (List.cons.inj same).2 with ⟨inner, hw, ht⟩ | ⟨behind, hb, ht⟩
  · cases inner with
    | nil =>
      obtain rfl := (List.cons.inj ht).1
      exact absurd hc (by decide)
    | cons d inner =>
      obtain rfl := (List.cons.inj ht).1
      exact single (hw ▸ List.mem_append_right before List.mem_cons_self)
  · cases behind with
    | nil =>
      obtain rfl := (List.cons.inj ht).1
      exact absurd hc (by decide)
    | cons d behind =>
      obtain rfl := (List.cons.inj ht).1
      refine untagged c hc ⟨[], behind, ?_⟩
      rw [hb]
      simp

/-- **The first tag.** What follows it comes before what follows later ones. -/
theorem tagTails_append (single : '@' ∉ word) (untagged : Untagged ('@' :: word) before) (hc : isBlank c = true)
    (t : Text) : tagTails ('@' :: word) (before ++ ('@' :: word ++ c :: t)) =
      (c :: t) :: tagTails ('@' :: word) (c :: t) := by
  induction before with
  | nil =>
    have found : Text.after? ('@' :: word) ('@' :: word ++ c :: t) = some (c :: t) := Text.after?_eq_some_iff.2 rfl
    rw [List.nil_append, List.cons_append, tagTails, ← List.cons_append, found, tagTails_append_of_notMem single]
    exact if_pos hc
  | cons d before ih =>
    have inner : Untagged ('@' :: word) before :=
      fun c hc h => untagged c hc (h.trans (List.suffix_cons d before).isInfix)
    rw [List.cons_append, ← ih inner]
    by_cases hd : d = '@'
    · subst hd
      rw [tagTails]
      split
      · next b more found =>
        refine if_neg fun hb => ?_
        exact ne_append_of_untagged single untagged (c :: t) hb more (Text.after?_eq_some_iff.1 found)
      · rfl
    · rw [tagTails_cons_of_ne hd]

end Tags

/-- The first `@var` decides, unless no type expression is found behind it. -/
theorem varType_append (untagged : Untagged "@var".toList before) (hc : isBlank c = true) (t : Text) :
    varType (before ++ ("@var".toList ++ c :: t)) = ((scanType (c :: t)).map Prod.fst).or (varType (c :: t)) := by
  have parts : tagTails "@var".toList (before ++ ("@var".toList ++ c :: t)) =
      (c :: t) :: tagTails "@var".toList (c :: t) := tagTails_append (by decide) untagged hc t
  rw [varType, varType, parts, List.findSome?_cons]
  cases scanType (c :: t) <;> rfl

/-- **Type expressions over several lines.** For an accepted type expression without quotes, line breaks and blanks
outside of brackets, and line breaks put beside punctuation inside of them, there is a type expression that denotes
the same, and is the given one if no line break was put in. The first `@var` gives it iff the scan ends behind it, or
finds no type expression there while a later `@var` gives it too. -/
theorem varType_of_broken (h : Plain t) (hb : Broken 0 none t t') :
    ∃ u, parse u = parse t ∧ (t' = t → u = t) ∧ ∀ before gap following : Text, Untagged "@var".toList before →
      gap ≠ [] → (∀ c ∈ gap, isBlank c = true) → (trimStart following).head? ≠ some '|' →
        (varType (before ++ ("@var".toList ++ (gap ++ t' ++ following))) = some u ↔ Ends following ∨
          scanType (gap ++ t' ++ following) = none ∧ varType (gap ++ t' ++ following) = some u) := by
  obtain ⟨u, denotes, same, found⟩ := scanType_broken h hb
  refine ⟨u, denotes, same, fun before gap following untagged hne blank next => ?_⟩
  obtain ⟨c, gap, rfl⟩ := List.exists_cons_of_ne_nil hne
  have first := varType_append untagged (blank c List.mem_cons_self) (gap ++ t' ++ following)
  have whole : c :: gap ++ t' ++ following = c :: (gap ++ t' ++ following) := rfl
  rw [← found _ _ blank next, whole, first, Option.or_eq_some_iff, Option.map_eq_none_iff]

/-- A no-break space does not end what an ASCII space ends. -/
theorem varType_of_broken_list : ∃ u, parse u = parse "list<int>".toList ∧
    varType "/** @var list<\n * int> the ids */".toList = some u ∧
    varType "/** @var list<\n * int>\u00a0the ids */".toList ≠ some u := by
  have plain : Plain "list<int>".toList := by
    refine ⟨?_, Text.forall_mem_of_all (by decide), Text.forall_mem_of_all (by decide),
      Text.forall_mem_of_all (by decide)⟩
    have quiet : (TypeExpr.diagnose "list<int>".toList).warnings = [] := by decide +kernel
    intro input position reason
    rw [quiet]
    exact List.not_mem_nil
  have broken : Broken 0 none "list<int>".toList "list<\n * int>".toList := by
    have beside : Beside (some '<') "int>".toList := Or.inl ⟨'<', rfl, by decide⟩
    have line : IsBreak "\n * ".toList := ⟨['\n'], [' '], Or.inl rfl, by simp, rfl⟩
    exact .keep (.keep (.keep (.keep (.keep (.insert (by decide) beside line (.refl _ _ _))))))
  have untagged : Untagged "@var".toList "/** ".toList := fun c _ h => absurd h.length_le (by simp)
  obtain ⟨u, denotes, -, found⟩ := varType_of_broken plain broken
  have read (following : Text) (next : (trimStart following).head? ≠ some '|') :=
    found "/** ".toList [' '] following untagged (by decide) (Text.forall_mem_of_all (by decide)) next
  refine ⟨u, denotes, (read " the ids */".toList (by decide)).2 (Or.inl (by decide)), fun taken => ?_⟩
  rcases (read "\u00a0the ids */".toList (by decide)).1 taken with ends | ⟨-, later⟩
  · exact absurd ends (by decide)
  · have none : varType " list<\n * int>\u00a0the ids */".toList = Option.none := by decide +kernel
    exact absurd (none.symm.trans later) (by simp)

end DeclGen.Docblock
