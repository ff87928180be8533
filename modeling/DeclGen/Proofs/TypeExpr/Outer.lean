import DeclGen.Proofs.TypeExpr.Tokens
import DeclGen.Proofs.TypeScript.Alternatives

/-!
# Bars outside of all brackets and quotes

A scan that counts brackets and knows quotes cuts a type expression at the bars of its own union, since what
a derivation puts between brackets or quotes is passed over.

* `Place` : where the scan stands; `outer` : the parts that it cuts a text into;
* `Crosses` : a text is passed over as a part of one of them, `Carries` : tokens with blanks between them are;
* `kept_carries`, `Suffixed.carries` : the tokens of derivations in brackets are passed over, and those without bars
  of their own anywhere.
-/

namespace DeclGen.TypeExpr
open Text (isSpacing)
open TypeScript (brackets depthAfter prepend prepend_prepend)

/-! ## The scan -/

/-- The number of brackets that are open, and the quote that is. -/
structure Place where
  depth : Nat
  quote : Option Char
  deriving DecidableEq

namespace Place

/-- In the given number of brackets, outside of quotes. -/
def within (depth : Nat) : Place := ⟨depth, none⟩

/-- The place after a character. Brackets in quotes do not count. -/
def after (p : Place) (c : Char) : Place :=
  match p.quote with
  | some quote => if c = quote then within p.depth else p
  | none => if c = '\'' ∨ c = '"' then ⟨p.depth, some c⟩ else within (depthAfter p.depth c)

end Place

/-- The parts of a text between the bars that stand outside of all brackets and quotes. -/
def outer (p : Place) : Text → List Text
  | [] => [[]]
  | c :: t => if c = '|' ∧ p = .within 0 then [] :: outer p t else prepend [c] (outer (p.after c) t)

theorem outer_ne_nil (p : Place) (t : Text) : outer p t ≠ [] := by
  cases t with
  | nil => simp [outer]
  | cons c t =>
    rw [outer]
    split
    · simp
    · cases outer (p.after c) t <;> simp [prepend]

theorem outer_bar (t : Text) : outer (.within 0) ('|' :: t) = [] :: outer (.within 0) t := by
  rw [outer, if_pos ⟨rfl, rfl⟩]

/-- The first part reaches to the end of the text or to a bar. -/
theorem outer_eq (p : Place) (t : Text) : outer p t = [t] ∨
    ∃ part rest, t = part ++ '|' :: rest ∧ outer p t = part :: outer (.within 0) rest := by
  induction t generalizing p with
  | nil => exact Or.inl rfl
  | cons c t ih =>
    by_cases cut : c = '|' ∧ p = .within 0
    · obtain ⟨rfl, rfl⟩ := cut
      exact Or.inr ⟨[], t, rfl, outer_bar t⟩
    · rw [outer, if_neg cut]
      rcases ih (p.after c) with whole | ⟨part, rest, ht, parts⟩
      · exact Or.inl (by rw [whole]; rfl)
      · exact Or.inr ⟨c :: part, rest, by rw [ht]; rfl, by rw [parts]; rfl⟩

/-! ## Texts without cuts -/

/-- From `p` to `q`, the text is passed over as a part of one alternative. -/
def Crosses (p q : Place) (u : Text) : Prop := ∀ rest, outer p (u ++ rest) = prepend u (outer q rest)

theorem crosses_nil (p : Place) : Crosses p p [] := by
  intro rest
  obtain ⟨part, parts, h⟩ := List.exists_cons_of_ne_nil (outer_ne_nil p rest)
  rw [List.nil_append, h]
  rfl

theorem Crosses.append {p q r : Place} {u v : Text} (hu : Crosses p q u) (hv : Crosses q r v) :
    Crosses p r (u ++ v) := by
  intro rest
  rw [List.append_assoc, hu, hv, prepend_prepend]

theorem Crosses.outer_eq {p q : Place} {u : Text} (h : Crosses p q u) : outer p u = [u] := by
  simpa [outer, prepend] using h []

theorem crosses_single {p : Place} {c : Char} (h : c = '|' → p ≠ .within 0) : Crosses p (p.after c) [c] := by
  intro rest
  rw [List.singleton_append, outer, if_neg (not_and.2 h)]

theorem crosses_of_forall {p : Place} {u : Text} (h : ∀ c ∈ u, p.after c = p ∧ (c = '|' → p ≠ .within 0)) :
    Crosses p p u := by
  induction u with
  | nil => exact crosses_nil p
  | cons c u ih =>
    rw [List.forall_mem_cons] at h
    have first := crosses_single h.1.2
    rw [h.1.1] at first
    exact first.append (ih h.2)

/-- The characters that mean something to the scan. -/
def marks : List Char := '|' :: '\'' :: '"' :: brackets

theorem after_of_notMem {c : Char} (h : c ∉ marks) (depth : Nat) :
    (Place.within depth).after c = .within depth := by
  simp only [marks, brackets, List.mem_cons, List.not_mem_nil, or_false, not_or] at h
  simp [Place.after, Place.within, depthAfter, h]

theorem crosses_word {u : Text} (h : ∀ c ∈ u, c ∉ marks) (depth : Nat) :
    Crosses (.within depth) (.within depth) u :=
  crosses_of_forall fun c hc => ⟨after_of_notMem (h c hc) depth, fun bar _ => h c hc (bar ▸ List.mem_cons_self)⟩

theorem crosses_spacing {blanks : Text} (h : ∀ c ∈ blanks, isSpacing c = true) (depth : Nat) :
    Crosses (.within depth) (.within depth) blanks := by
  have other : ∀ c ∈ marks, isSpacing c = false := Text.forall_mem_of_all (by decide)
  exact crosses_word (fun c hc hm => absurd (h c hc) (by simp [other c hm])) depth

/-- Everything between quotes is passed over. -/
theorem crosses_quoted {quote : Char} (hq : quote = '\'' ∨ quote = '"') {name : Text} (hn : quote ∉ name)
    (depth : Nat) : Crosses (.within depth) (.within depth) (quote :: name ++ [quote]) := by
  have bar : quote ≠ '|' := by rcases hq with rfl | rfl <;> decide
  have opened : (Place.within depth).after quote = ⟨depth, some quote⟩ := if_pos hq
  have closed : Place.after ⟨depth, some quote⟩ quote = .within depth := if_pos rfl
  have first : Crosses (.within depth) ⟨depth, some quote⟩ [quote] :=
    opened ▸ crosses_single fun h => absurd h bar
  have last : Crosses ⟨depth, some quote⟩ (.within depth) [quote] :=
    closed ▸ crosses_single fun h => absurd h bar
  have between : Crosses ⟨depth, some quote⟩ ⟨depth, some quote⟩ name := by
    refine crosses_of_forall fun c hc => ⟨if_neg ?_, fun _ => by simp [Place.within]⟩
    rintro rfl
    exact hn hc
  exact (first.append between).append last

/-! ## Tokens -/

/-- The tokens, with blanks between them, are passed over from one bracket depth to another. -/
def Carries (depth depth' : Nat) (tokens : List Text) : Prop :=
  ∀ t rest : Text, Spells tokens t rest →
    ∃ u, t = u ++ rest ∧ Crosses (.within depth) (.within depth') u

theorem carries_nil (depth : Nat) : Carries depth depth [] :=
  fun _ _ h => ⟨[], h, crosses_nil _⟩

theorem Carries.append {depth depth' depth'' : Nat} {front back : List Text}
    (hf : Carries depth depth' front) (hb : Carries depth' depth'' back) :
    Carries depth depth'' (front ++ back) := by
  intro t rest h
  obtain ⟨following, first, more⟩ := Spells.append.1 h
  obtain ⟨u, rfl, hu⟩ := hf _ _ first
  obtain ⟨v, rfl, hv⟩ := hb _ _ more
  exact ⟨u ++ v, (List.append_assoc ..).symm, hu.append hv⟩

theorem carries_single {depth depth' : Nat} {token : Text}
    (h : Crosses (.within depth) (.within depth') token) : Carries depth depth' [token] := by
  intro t rest hs
  obtain ⟨blanks, following, hb, rfl, rfl⟩ := hs
  exact ⟨blanks ++ token, (List.append_assoc ..).symm, (crosses_spacing hb depth).append h⟩

theorem Carries.cons {depth depth' depth'' : Nat} {token : Text} {tokens : List Text}
    (h : Crosses (.within depth) (.within depth') token) (hs : Carries depth' depth'' tokens) :
    Carries depth depth'' (token :: tokens) :=
  (carries_single h).append hs

theorem crosses_opening {c : Char} (hc : c ∈ ['{', '<', '(', '[']) (depth : Nat) :
    Crosses (.within depth) (.within (depth + 1)) [c] := by
  have other : ∀ c ∈ ['{', '<', '(', '['], c ≠ '|' ∧ ¬ (c = '\'' ∨ c = '"') :=
    Text.forall_mem_of_all (by decide)
  have opened : (Place.within depth).after c = .within (depth + 1) := by
    simp only [Place.after, Place.within, if_neg (other c hc).2]
    rw [depthAfter, if_pos hc]
  exact opened ▸ crosses_single fun bar => absurd bar (other c hc).1

theorem crosses_closing {c : Char} (hc : c ∈ ['}', '>', ')', ']']) (depth : Nat) :
    Crosses (.within (depth + 1)) (.within depth) [c] := by
  have other : ∀ c ∈ ['}', '>', ')', ']'], c ≠ '|' ∧ ¬ (c = '\'' ∨ c = '"') ∧ c ∉ ['{', '<', '(', '['] :=
    Text.forall_mem_of_all (by decide)
  have closed : (Place.within (depth + 1)).after c = .within depth := by
    simp only [Place.after, Place.within, if_neg (other c hc).2.1]
    rw [depthAfter, if_neg (other c hc).2.2, if_pos hc, Nat.add_sub_cancel]
  exact closed ▸ crosses_single fun bar => absurd bar (other c hc).1

theorem crosses_bar (depth : Nat) : Crosses (.within (depth + 1)) (.within (depth + 1)) ['|'] := by
  refine crosses_single (p := .within (depth + 1)) fun _ => ?_
  simp [Place.within]

/-! ## Words -/

theorem IsName.crosses {name : Text} (h : IsName name) (depth : Nat) :
    Crosses (.within depth) (.within depth) name := by
  have other : ∀ c ∈ marks, inName c = false := Text.forall_mem_of_all (by decide)
  exact crosses_word (fun c hc hm => absurd (h.2 c hc) (by simp [other c hm])) depth

theorem IsBound.crosses {word : Text} (h : IsBound word) (depth : Nat) :
    Crosses (.within depth) (.within depth) word := by
  have other : ∀ c ∈ marks, c.isDigit = false := Text.forall_mem_of_all (by decide)
  have digits : ∀ ds : Text, (∀ c ∈ ds, c.isDigit = true) → ∀ c ∈ ds, c ∉ marks :=
    fun ds hd c hc hm => absurd (hd c hc) (by simp [other c hm])
  refine crosses_word ?_ depth
  rcases h with ⟨ds, -, hd, rfl | rfl⟩ | rfl
  · exact digits _ hd
  · exact List.forall_mem_cons.2 ⟨by decide, digits ds hd⟩
  · exact Text.forall_mem_of_all (by decide)

theorem Key.WellFormed.crosses {key : Key} (h : key.WellFormed) (depth : Nat) :
    Crosses (.within depth) (.within depth) key.token := by
  cases key with
  | bare name =>
    have other : ∀ c ∈ marks, inKey c = false := Text.forall_mem_of_all (by decide)
    exact crosses_word (fun c hc hm => absurd (h.2 c hc) (by simp [other c hm])) depth
  | quoted quote name => exact crosses_quoted h.1 h.2 depth

/-! ## Derivations -/

theorem kept_carries : Kept Carries where
  nil := carries_nil
  append := .append
  opening hc depth := carries_single (crosses_opening (List.mem_append_left ['['] hc) depth)
  closing hc depth := carries_single (crosses_closing (List.mem_append_left [']'] hc) depth)
  suffix depth := .cons (crosses_opening (by decide) depth) (carries_single (crosses_closing (by decide) depth))
  bar depth := carries_single (crosses_bar depth)
  mark hc depth := by
    have other : ∀ c ∈ ['?', ',', ':'], c ∉ marks := Text.forall_mem_of_all (by decide)
    exact carries_single (crosses_word (by simpa using other _ hc) depth)
  name h depth := carries_single (h.crosses depth)
  bound h depth := carries_single (h.crosses depth)
  key h depth := carries_single (h.crosses _)

/-- A derivation that has no union of its own is passed over. -/
theorem Suffixed.carries (depth : Nat) (s : Suffixed) (h : s.WellFormed IsBound) : Carries depth depth s.tokens :=
  kept_carries.suffixed depth s h

end DeclGen.TypeExpr
