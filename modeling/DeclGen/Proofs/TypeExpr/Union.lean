import DeclGen.Proofs.TypeExpr.Denotation
import DeclGen.Proofs.TypeExpr.Outer

/-!
# Unions, part by part

* `Derives.join` : a bar between derived texts makes a union of them;
* `Derives.cut`, `Derives.outer_eq` : the scan for outer bars cuts a union between its members;
* `admitsNull_parse_bar` : whether `null` is a value of a text is told by what stands around an outer bar;
* `admitsNull_parse` : a text has `null` as a value iff one of its outer parts does.
-/

namespace DeclGen.TypeExpr
open Text (isSpacing)
open TypeNode (IsNormal admitsNull_nullable normalizing_isNormal)
open TypeScript (prepend)

variable {bound : Text → Prop} {s s' : Suffixed} {m : Bool × Suffixed} {ms ms' : List (Bool × Suffixed)}
  {part rest t : Text}

/-! ## Further members -/

theorem memberTokens_append : memberTokens (ms ++ ms') = memberTokens ms ++ memberTokens ms' := by
  induction ms with
  | nil => rfl
  | cons m ms ih => simp [memberTokens, ih]

theorem memberNesting_append : memberNesting (ms ++ ms') = max (memberNesting ms) (memberNesting ms') := by
  induction ms with
  | nil => simp [memberNesting]
  | cons m ms ih => simp [memberNesting, ih, Nat.max_assoc]

theorem membersWellFormed_append :
    MembersWellFormed bound (ms ++ ms') ↔ MembersWellFormed bound ms ∧ MembersWellFormed bound ms' := by
  induction ms with
  | nil => simp [MembersWellFormed]
  | cons m ms ih => simp [MembersWellFormed, ih, and_assoc]

theorem memberValues_append : memberValues (ms ++ ms') = memberValues ms ++ memberValues ms' := by
  induction ms with
  | nil => rfl
  | cons m ms ih => simp [memberValues, ih]

/-! ## Joining and cutting -/

theorem Derives.join (h : Derives bound (.union s ms) part) (h' : Derives bound (.union s' ms') rest) :
    Derives bound (.union s (ms ++ (false, s') :: ms')) (part ++ '|' :: rest) := by
  obtain ⟨⟨hs, hms⟩, hn, blanks, spelled, hb⟩ := h
  obtain ⟨⟨hs', hms'⟩, hn', rest', spelled', hb'⟩ := h'
  simp only [Tree.nesting] at hn hn'
  refine ⟨⟨hs, membersWellFormed_append.2 ⟨hms, hs', hms'⟩⟩, ?_, rest', ?_, hb'⟩
  · simp only [Tree.nesting, memberNesting_append, memberNesting, Bool.false_eq_true, if_false]
    omega
  · obtain ⟨u, rfl, hu⟩ := spelled.exists_append
    have tail : Spells (memberTokens ((false, s') :: ms')) (blanks ++ '|' :: rest) rest' :=
      ⟨blanks, rest, hb, rfl, by simpa [tokenIf, Tree.tokens] using spelled'⟩
    rw [Tree.tokens, memberTokens_append, ← List.append_assoc, Spells.append, List.append_assoc]
    exact ⟨blanks ++ '|' :: rest, hu _, tail⟩

/-- A union of one member has no outer bars. -/
theorem Derives.outer_eq (h : Derives IsBound (.union s []) t) : outer (.within 0) t = [t] := by
  obtain ⟨⟨hs, -⟩, -, blanks, spelled, hb⟩ := h
  rw [Tree.tokens, memberTokens, List.append_nil] at spelled
  obtain ⟨u, rfl, crossed⟩ := Suffixed.carries 0 s hs _ _ spelled
  exact (crossed.append (crosses_spacing hb 0)).outer_eq

/-- The first outer bar of a union stands behind its first member. -/
theorem Derives.cut (h : Derives IsBound (.union s ((false, s') :: ms)) t) : ∃ part rest,
    t = part ++ '|' :: rest ∧ outer (.within 0) t = part :: outer (.within 0) rest ∧
      Derives IsBound (.union s []) part ∧ Derives IsBound (.union s' ms) rest := by
  obtain ⟨⟨hs, hs', hms⟩, hn, last, spelled, hlast⟩ := h
  simp only [Tree.nesting, memberNesting, Bool.false_eq_true, if_false] at hn
  obtain ⟨following, first, blanks, rest, hb, rfl, others⟩ := Spells.append.1 spelled
  obtain ⟨u, rfl, crossed⟩ := Suffixed.carries 0 s hs _ _ first
  obtain ⟨v, same, anywhere⟩ := first.exists_append
  obtain rfl := List.append_cancel_right same
  refine ⟨u ++ blanks, rest, by simp, ?_, ?_, ?_⟩
  · rw [← List.append_assoc, List.singleton_append, crossed.append (crosses_spacing hb 0), outer_bar, prepend,
      List.append_nil]
  · refine ⟨⟨hs, trivial⟩, ?_, blanks, ?_, hb⟩
    · simp only [Tree.nesting, memberNesting]
      omega
    · rw [Tree.tokens, memberTokens, List.append_nil]
      exact anywhere blanks
  · refine ⟨⟨hs', hms⟩, ?_, last, by simpa [tokenIf, Tree.tokens] using others, hlast⟩
    simp only [Tree.nesting]
    omega

/-! ## `null` -/

theorem admitsNull_value_union (h : (Tree.union s ms).WellFormed bound) :
    (Tree.union s ms).value.admitsNull = (s.value.admitsNull || (memberValues ms).any TypeNode.admitsNull) := by
  cases ms with
  | nil => simp [Tree.value, memberValues]
  | cons m ms =>
    have normal : ∀ v ∈ s.value :: memberValues (m :: ms), v.All IsNormal :=
      List.forall_mem_cons.2 ⟨s.all_value normalizing_isNormal h.1,
        all_memberValues normalizing_isNormal (m :: ms) h.2⟩
    rw [Tree.value, TypeNode.admitsNull_union (by simp) normal, List.any_cons]

/-- A text without `null` is derived as a union. -/
theorem exists_union_of_admitsNull (h : (parse t).admitsNull = false) :
    ∃ s ms, Derives IsBound (.union s ms) t ∧ (Tree.union s ms).value.admitsNull = false := by
  rcases parse_eq t with ⟨e, he, ht⟩ | ht
  · cases e with
    | nullable e =>
      rw [ht, Tree.value, admitsNull_nullable] at h
      exact absurd h (by simp)
    | union s ms => exact ⟨s, ms, he, ht ▸ h⟩
  · rw [ht] at h
    exact absurd h (by decide)

/-- `null` is a value of a text iff it is one of what stands before or behind its first outer bar. -/
theorem admitsNull_parse_bar (h : outer (.within 0) (part ++ '|' :: rest) = part :: outer (.within 0) rest) :
    (parse (part ++ '|' :: rest)).admitsNull = ((parse part).admitsNull || (parse rest).admitsNull) := by
  -- Malformed texts have `null` as a value, so it is the absence of `null` that derivations tell of.
  rw [Bool.eq_iff_iff, ← Decidable.not_iff_not, Bool.not_eq_true, Bool.not_eq_true, Bool.or_eq_false_iff]
  constructor
  · intro whole
    obtain ⟨s, ms, derived, hnull⟩ := exists_union_of_admitsNull whole
    rw [admitsNull_value_union derived.wellFormed, Bool.or_eq_false_iff] at hnull
    match ms with
    | [] =>
      rw [derived.outer_eq] at h
      exact absurd (List.cons.inj h).2.symm (outer_ne_nil _ _)
    | (true, s') :: ms =>
      -- A question mark before a member adds `null` to it.
      have marked := hnull.2
      rw [memberValues, if_pos rfl, List.any_cons, admitsNull_nullable] at marked
      exact absurd marked (by simp)
    | (false, s') :: ms =>
      -- The scan and the derivation cut the text at the same bar.
      obtain ⟨first, others, split, parts, hfirst, hothers⟩ := derived.cut
      obtain rfl : part = first := (List.cons.inj (h.symm.trans parts)).1
      obtain rfl : rest = others := (List.cons.inj (List.append_cancel_left split)).2
      have members := hnull.2
      rw [memberValues, List.any_cons, Bool.or_eq_false_iff] at members
      rw [parse_of_derives hfirst, parse_of_derives hothers, admitsNull_value_union hfirst.wellFormed,
        admitsNull_value_union hothers.wellFormed]
      simp_all [memberValues]
  · rintro ⟨hpart, hrest⟩
    obtain ⟨s, ms, derived, hnull⟩ := exists_union_of_admitsNull hpart
    obtain ⟨s', ms', derived', hnull'⟩ := exists_union_of_admitsNull hrest
    have joined := derived.join derived'
    rw [admitsNull_value_union derived.wellFormed] at hnull
    rw [admitsNull_value_union derived'.wellFormed] at hnull'
    rw [parse_of_derives joined, admitsNull_value_union joined.wellFormed, memberValues_append]
    simp_all [memberValues]

/-- **`null` in unions.** It is a value of a text iff it is one of a part between outer bars. -/
theorem admitsNull_parse (t : Text) :
    (parse t).admitsNull = (outer (.within 0) t).any fun part => (parse part).admitsNull := by
  induction h : t.length using Nat.strongRecOn generalizing t with
  | ind n ih =>
    rcases TypeExpr.outer_eq (.within 0) t with whole | ⟨part, rest, rfl, parts⟩
    · rw [whole, List.any_cons, List.any_nil, Bool.or_false]
    · have shorter : rest.length < n := by
        rw [← h]
        simp
        omega
      rw [admitsNull_parse_bar parts, parts, List.any_cons, ih rest.length shorter rest rfl]

end DeclGen.TypeExpr
