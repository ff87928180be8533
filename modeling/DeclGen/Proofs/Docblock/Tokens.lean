import DeclGen.Proofs.Docblock.Scan
import DeclGen.Proofs.TypeExpr.Acceptance
import DeclGen.Proofs.TypeExpr.Tokens

/-!
# Type expressions in documentation blocks

An accepted type expression without quotes consists of marks and words, its brackets match, and it does not end in a
bar. So the scan reads it to its end, and other spaces beside punctuation do not change what it denotes.

* `IsToken` : marks and words; `Spelled` : a text is some tokens with blanks around them;
* `Respaced.spelled` : with other spaces, a text has the same tokens;
* `Scans`, `kept_scans`, `scans_tree` : the brackets in the tokens of a derivation match;
* `Finished`, `finished_tree` : a derivation does not end in a bar;
* `Plain` : accepted texts without quotes, line breaks and blanks outside of brackets; `Tokenized` : their derivations;
* `Plain.readable`, `Plain.parse_eq` : such a text is read to its end, and with other spaces it denotes the same.
-/

namespace DeclGen.Docblock
open Text (isSpacing isBlank)
open TypeExpr

/-! ## Marks and words -/

/-- The characters of words: those of names, and the dollar sign of keys. -/
def inWord (c : Char) : Bool := inName c || c = '$'

/-- A token outside of quotes. -/
def IsToken (token : Text) : Prop :=
  (∃ c ∈ punctuation, token = [c]) ∨ token ≠ [] ∧ ∀ c ∈ token, inWord c = true

variable {depth depth' : Nat} {c : Char} {word t u : Text} {tokens front back : List Text}

theorem inWord_of_punctuation (h : c ∈ punctuation) : inWord c = false :=
  Text.forall_mem_of_all (p := fun c => inWord c = false) (by decide) c h

theorem inWord_of_isSpacing (h : isSpacing c = true) : inWord c = false := by
  simp only [isSpacing, Bool.or_eq_true, decide_eq_true_eq] at h
  rcases h with (((rfl | rfl) | rfl) | rfl) | rfl <;> decide

theorem isSpacing_of_punctuation (h : c ∈ punctuation) : isSpacing c = false :=
  Text.forall_mem_of_all (p := fun c => isSpacing c = false) (by decide) c h

theorem isSpacing_of_inWord (h : inWord c = true) : isSpacing c = false :=
  Bool.eq_false_iff.2 fun blank => absurd h (by simp [inWord_of_isSpacing blank])

theorem notMem_punctuation_of_inWord (h : inWord c = true) : c ∉ punctuation :=
  fun mark => absurd h (by simp [inWord_of_punctuation mark])

theorem IsToken.mem_cases (h : IsToken word) : ∀ c ∈ word, c ∈ punctuation ∨ inWord c = true := by
  intro c hc
  rcases h with ⟨d, hd, rfl⟩ | ⟨-, hw⟩
  · obtain rfl := List.mem_singleton.1 hc
    exact Or.inl hd
  · exact Or.inr (hw c hc)

theorem IsToken.solid (h : IsToken word) : ∀ c ∈ word, isSpacing c = false := by
  intro c hc
  rcases h.mem_cases c hc with mark | inside
  · exact isSpacing_of_punctuation mark
  · exact isSpacing_of_inWord inside

theorem IsToken.ne_nil (h : IsToken word) : word ≠ [] := by
  rcases h with ⟨c, -, rfl⟩ | ⟨hne, -⟩
  · simp
  · exact hne

/-- No punctuation stands before the further characters of a token. -/
theorem IsToken.tail (h : IsToken (c :: word)) :
    (∀ d ∈ word, inWord d = true) ∧ (word ≠ [] → ∀ d ∈ some c, d ∉ punctuation) := by
  rcases h with ⟨d, -, single⟩ | ⟨-, hw⟩
  · obtain rfl := (List.cons.inj single).2
    simp
  · rw [List.forall_mem_cons] at hw
    refine ⟨hw.2, fun _ => ?_⟩
    rintro _ ⟨⟩
    exact notMem_punctuation_of_inWord hw.1

/-! ## Spelled texts -/

/-- The text consists of the tokens, with blanks before and behind any of them. -/
def Spelled (tokens : List Text) (t : Text) : Prop := ∃ rest, Spells tokens t rest ∧ ∀ c ∈ rest, isSpacing c = true

theorem Spelled.token (h : Spelled tokens t) (word : Text) : Spelled (word :: tokens) (word ++ t) := by
  obtain ⟨rest, hs, blank⟩ := h
  exact ⟨rest, hs.token word, blank⟩

theorem Spelled.blank (hc : isSpacing c = true) (h : Spelled tokens t) : Spelled tokens (c :: t) := by
  obtain ⟨rest, hs, blank⟩ := h
  cases tokens with
  | nil =>
    obtain rfl : t = rest := hs
    exact ⟨c :: t, rfl, List.forall_mem_cons.2 ⟨hc, blank⟩⟩
  | cons word tokens =>
    obtain ⟨blanks, following, hb, rfl, hs⟩ := hs
    exact ⟨rest, ⟨c :: blanks, following, List.forall_mem_cons.2 ⟨hc, hb⟩, rfl, hs⟩, blank⟩

/-- The text starts with a blank, and the tokens stand behind it, or with the first character of the first token. -/
theorem Spelled.cases (each : ∀ word ∈ tokens, IsToken word) (h : Spelled tokens (c :: t)) :
    (isSpacing c = true ∧ Spelled tokens t) ∨ ∃ word more following,
      tokens = (c :: word) :: more ∧ t = word ++ following ∧ Spelled more following := by
  obtain ⟨rest, hs, blank⟩ := h
  cases tokens with
  | nil =>
    obtain rfl : c :: t = rest := hs
    rw [List.forall_mem_cons] at blank
    exact Or.inl ⟨blank.1, t, rfl, blank.2⟩
  | cons word more =>
    obtain ⟨blanks, following, hb, ht, hs⟩ := hs
    cases blanks with
    | nil =>
      obtain ⟨d, word, rfl⟩ := List.exists_cons_of_ne_nil (each word List.mem_cons_self).ne_nil
      obtain ⟨rfl, rfl⟩ := List.cons.inj ht
      exact Or.inr ⟨word, more, following, rfl, rfl, rest, hs, blank⟩
    | cons d blanks =>
      rw [List.forall_mem_cons] at hb
      obtain ⟨rfl, rfl⟩ := List.cons.inj ht
      exact Or.inl ⟨hb.1, rest, ⟨blanks, following, hb.2, rfl, hs⟩, blank⟩

theorem Spelled.subset (h : Spelled tokens t) : tokens.flatten ⊆ t := by
  obtain ⟨rest, hs, -⟩ := h
  induction tokens generalizing t with
  | nil => exact List.nil_subset t
  | cons word tokens ih =>
    obtain ⟨blanks, following, -, rfl, hs⟩ := hs
    rw [List.flatten_cons]
    refine List.append_subset.2 ⟨fun c hc => ?_, fun c hc => ?_⟩
    · exact List.mem_append_right _ (List.mem_append_left _ hc)
    · exact List.mem_append_right _ (List.mem_append_right _ (ih hs hc))

/-- The characters of a text that are no blanks are those of its tokens. -/
theorem Spelled.filter_eq (each : ∀ word ∈ tokens, IsToken word) (h : Spelled tokens t) :
    t.filter (fun c => !isSpacing c) = tokens.flatten := by
  obtain ⟨rest, hs, blank⟩ := h
  have dropped {blanks : Text} (hb : ∀ c ∈ blanks, isSpacing c = true) :
      blanks.filter (fun c => !isSpacing c) = [] :=
    List.filter_eq_nil_iff.2 fun c hc => by simp [hb c hc]
  induction tokens generalizing t with
  | nil =>
    obtain rfl : t = rest := hs
    exact dropped blank
  | cons word tokens ih =>
    obtain ⟨blanks, following, hb, rfl, hs⟩ := hs
    rw [List.forall_mem_cons] at each
    have kept : word.filter (fun c => !isSpacing c) = word :=
      List.filter_eq_self.2 fun c hc => by simp [each.1.solid c hc]
    rw [List.filter_append, List.filter_append, dropped hb, kept, ih each.2 hs, List.nil_append, List.flatten_cons]

/-- With other spaces, a text has the same tokens. The text may start inside a word: nothing is put into that, since
no punctuation stands beside its characters. -/
theorem Respaced.spelled_behind {before : Option Char} (h : Respaced before t u) :
    ∀ {word following : Text} {tokens : List Text}, t = word ++ following → (∀ c ∈ word, inWord c = true) →
      (word ≠ [] → ∀ c ∈ before, c ∉ punctuation) → (∀ token ∈ tokens, IsToken token) → Spelled tokens following →
        ∃ following', u = word ++ following' ∧ Spelled tokens following' := by
  have bare {before : Option Char} : ([] : Text) ≠ [] → ∀ c ∈ before, c ∉ punctuation := fun h => absurd rfl h
  have none : ∀ c ∈ ([] : Text), inWord c = true := fun c hc => absurd hc List.not_mem_nil
  induction h with
  | nil =>
    intro word following tokens ht _ _ _ hs
    obtain ⟨rfl, rfl⟩ := List.append_eq_nil_iff.1 ht.symm
    exact ⟨[], rfl, hs⟩
  | @keep before c t u h ih =>
    intro word following tokens ht hw _ each hs
    cases word with
    | cons d word =>
      obtain ⟨rfl, rfl⟩ := List.cons.inj ht
      rw [List.forall_mem_cons] at hw
      have inside : ∀ d ∈ some c, d ∉ punctuation := by
        rintro _ ⟨⟩
        exact notMem_punctuation_of_inWord hw.1
      obtain ⟨v, rfl, hs'⟩ := ih rfl hw.2 (fun _ => inside) each hs
      exact ⟨v, rfl, hs'⟩
    | nil =>
      obtain rfl : c :: t = following := ht
      rcases hs.cases each with ⟨blank, hmore⟩ | ⟨word, more, following, rfl, ht, hmore⟩
      · obtain ⟨v, hv, hs'⟩ := ih (List.nil_append t).symm none bare each hmore
        exact ⟨c :: v, congrArg (c :: ·) hv, hs'.blank blank⟩
      · rw [List.forall_mem_cons] at each
        obtain ⟨v, rfl, hs'⟩ := ih ht each.1.tail.1 each.1.tail.2 each.2 hmore
        exact ⟨_, rfl, hs'.token (c :: word)⟩
  | @drop before c t u blank h ih =>
    intro word following tokens ht hw _ each hs
    cases word with
    | cons d word =>
      obtain ⟨rfl, rfl⟩ := List.cons.inj ht
      exact absurd (hw c List.mem_cons_self) (by simp [inWord_of_isSpacing blank])
    | nil =>
      obtain rfl : c :: t = following := ht
      rcases hs.cases each with ⟨-, hmore⟩ | ⟨word, more, following, rfl, -, -⟩
      · exact ih (List.nil_append t).symm none bare each hmore
      · have solid := (each _ List.mem_cons_self).solid c List.mem_cons_self
        exact absurd blank (by simp [solid])
  | @add before t u beside h ih =>
    intro word following tokens ht hw hb each hs
    cases word with
    | cons d word =>
      rcases beside with ⟨c, hc, mark⟩ | ⟨c, hc, mark⟩
      · exact absurd mark (hb (by simp) c hc)
      · rw [ht] at hc
        obtain rfl : d = c := Option.some.inj hc
        exact absurd mark (notMem_punctuation_of_inWord (hw d List.mem_cons_self))
    | nil =>
      obtain ⟨v, hv, hs'⟩ := ih ht none bare each hs
      exact ⟨' ' :: v, congrArg (' ' :: ·) hv, hs'.blank rfl⟩

theorem Respaced.spelled {before : Option Char} (h : Respaced before t u) (each : ∀ word ∈ tokens, IsToken word)
    (hs : Spelled tokens t) : Spelled tokens u := by
  obtain ⟨v, hv, hs'⟩ :=
    h.spelled_behind (List.nil_append t).symm (fun c hc => absurd hc List.not_mem_nil) (absurd rfl) each hs
  exact hv ▸ hs'

/-! ## Brackets -/

/-- Outside of quotes. -/
def Unquoted (t : Text) : Prop := ∀ c ∈ t, c ≠ '\'' ∧ c ≠ '"'

/-- Marks and words, with as many brackets open behind them. -/
structure Scans (depth depth' : Nat) (tokens : List Text) : Prop where
  each : ∀ word ∈ tokens, IsToken word
  opened : opened? depth tokens.flatten = some depth'

theorem Scans.append {depth'' : Nat} (hf : Scans depth depth' front) (hb : Scans depth' depth'' back) :
    Scans depth depth'' (front ++ back) := by
  refine ⟨List.forall_mem_append.2 ⟨hf.each, hb.each⟩, ?_⟩
  rw [List.flatten_append, opened?_append, hf.opened]
  exact hb.opened

theorem opened?_single (h : ¬ (depth = 0 ∧ (c ∈ closing ∨ c = '$'))) : opened? depth [c] = some (nest depth c) := by
  rw [opened?, if_neg h, opened?]

theorem scans_mark (depth : Nat) (hc : c ∈ punctuation) (h : ¬ (depth = 0 ∧ (c ∈ closing ∨ c = '$'))) :
    Scans depth (nest depth c) [[c]] := by
  refine ⟨fun word hw => Or.inl ⟨c, hc, List.mem_singleton.1 hw⟩, ?_⟩
  rw [List.flatten_singleton, opened?_single h]

/-- A mark that is no bracket. -/
theorem scans_other (hc : c ∈ ['[', ']', ',', ':', '|', '?']) (depth : Nat) : Scans depth depth [[c]] := by
  have other : ∀ c ∈ ['[', ']', ',', ':', '|', '?'], c ∈ punctuation ∧ c ∉ opening ∧ c ∉ closing ∧ c ≠ '$' :=
    Text.forall_mem_of_all (by decide)
  obtain ⟨mark, opens, closes, dollar⟩ := other c hc
  have scans := scans_mark depth mark (by simp [closes, dollar])
  rwa [nest, if_neg opens, if_neg closes] at scans

theorem opened?_word (hw : ∀ c ∈ word, inWord c = true ∧ (depth = 0 → c ≠ '$')) :
    opened? depth word = some depth := by
  induction word with
  | nil => rfl
  | cons c word ih =>
    rw [List.forall_mem_cons] at hw
    have brackets : ∀ c ∈ opening ++ closing, inWord c = false := Text.forall_mem_of_all (by decide)
    have opens : c ∉ opening := fun h => absurd hw.1.1 (by simp [brackets c (List.mem_append_left _ h)])
    have closes : c ∉ closing := fun h => absurd hw.1.1 (by simp [brackets c (List.mem_append_right _ h)])
    rw [opened?, if_neg, nest, if_neg opens, if_neg closes]
    · exact ih hw.2
    · rintro ⟨none, close | dollar⟩
      · exact closes close
      · exact hw.1.2 none dollar

theorem scans_word (hne : word ≠ []) (hw : ∀ c ∈ word, inWord c = true ∧ (depth = 0 → c ≠ '$')) :
    Scans depth depth [word] := by
  refine ⟨fun token ht => ?_, ?_⟩
  · obtain rfl := List.mem_singleton.1 ht
    exact Or.inr ⟨hne, fun c hc => (hw c hc).1⟩
  · rw [List.flatten_singleton]
    exact opened?_word hw

theorem scans_inName (hne : word ≠ []) (hw : ∀ c ∈ word, inName c = true) (depth : Nat) :
    Scans depth depth [word] := by
  refine scans_word hne fun c hc => ⟨by rw [inWord, hw c hc, Bool.true_or], fun _ => ?_⟩
  rintro rfl
  exact absurd (hw _ hc) (by decide)

theorem scans_bound (h : IsBound word) (depth : Nat) : Scans depth depth [word] := by
  have digits {ds : Text} (hd : ∀ c ∈ ds, c.isDigit = true) : ∀ c ∈ ds, inName c = true :=
    fun c hc => by simp [inName, Char.isAlphanum, hd c hc]
  rcases h with ⟨ds, hne, hd, rfl | rfl⟩ | rfl
  · exact scans_inName hne (digits hd) depth
  · exact scans_inName (by simp) (List.forall_mem_cons.2 ⟨by decide, digits hd⟩) depth
  · exact scans_inName (by simp) (Text.forall_mem_of_all (by decide)) depth

/-- A key without quotes stands inside of brackets, where a dollar sign ends nothing. -/
theorem scans_key {key : Key} (h : key.WellFormed) (unquoted : Unquoted key.token) (depth : Nat) :
    Scans (depth + 1) (depth + 1) [key.token] := by
  cases key with
  | bare name =>
    refine scans_word h.1 fun c hc => ⟨?_, fun none => absurd none (by simp)⟩
    have hk := h.2 c hc
    simp only [inKey, Bool.or_eq_true] at hk
    simp only [inWord, inName, Bool.or_eq_true]
    rcases hk with ((letter | line) | dash) | dollar
    · exact Or.inl (Or.inl (Or.inl (Or.inl (Or.inl letter))))
    · exact Or.inl (Or.inl (Or.inl (Or.inl (Or.inr line))))
    · exact Or.inl (Or.inr dash)
    · exact Or.inr dollar
  | quoted quote name =>
    have plain := unquoted quote List.mem_cons_self
    rcases h.1 with rfl | rfl
    · exact absurd rfl plain.1
    · exact absurd rfl plain.2

theorem unquoted_append : Unquoted (front ++ back).flatten ↔ Unquoted front.flatten ∧ Unquoted back.flatten := by
  rw [List.flatten_append, Unquoted, List.forall_mem_append]
  rfl

/-- Outside of quotes, the brackets in the tokens of a derivation match. -/
theorem kept_scans : Kept fun depth depth' tokens => Unquoted tokens.flatten → Scans depth depth' tokens where
  nil depth _ := ⟨by simp, rfl⟩
  append hf hb unquoted := by
    rw [unquoted_append] at unquoted
    exact (hf unquoted.1).append (hb unquoted.2)
  opening {c} hc depth _ := by
    have opens : ∀ c ∈ opening, c ∈ punctuation ∧ c ∉ closing ∧ c ≠ '$' := Text.forall_mem_of_all (by decide)
    obtain ⟨mark, closes, dollar⟩ := opens c hc
    have scans := scans_mark depth mark (by simp [closes, dollar])
    rwa [nest, if_pos (show c ∈ opening from hc)] at scans
  closing {c} hc depth _ := by
    have closes : ∀ c ∈ closing, c ∈ punctuation ∧ c ∉ opening := Text.forall_mem_of_all (by decide)
    obtain ⟨mark, opens⟩ := closes c hc
    have scans := scans_mark (depth + 1) mark (by simp)
    rwa [nest, if_neg opens, if_pos (show c ∈ closing from hc)] at scans
  suffix depth _ := (scans_other (by decide) depth).append (scans_other (by decide) depth)
  bar depth _ := scans_other (by decide) (depth + 1)
  mark {c} hc depth _ := by
    have other : ∀ c ∈ ['?', ',', ':'], c ∈ ['[', ']', ',', ':', '|', '?'] := Text.forall_mem_of_all (by decide)
    exact scans_other (other c hc) depth
  name {name} h depth _ := by
    obtain ⟨c, more, rfl, -⟩ := h.exists_cons
    exact scans_inName (List.cons_ne_nil c more) h.2 depth
  bound h depth _ := scans_bound h depth
  key h depth unquoted := scans_key h (by simpa using unquoted) depth

theorem scans_members (ms : List (Bool × Suffixed)) (h : MembersWellFormed IsBound ms)
    (unquoted : Unquoted (memberTokens ms).flatten) : Scans 0 0 (memberTokens ms) := by
  induction ms with
  | nil => exact kept_scans.nil 0 unquoted
  | cons m ms ih =>
    rw [memberTokens, unquoted_append, unquoted_append] at unquoted
    have mark : Scans 0 0 (tokenIf m.1 '?') :=
      kept_scans.optional (by decide) m.1 0 fun c hc => unquoted.1.1 c (List.mem_cons_of_mem _ hc)
    have start : Scans 0 0 (['|'] :: tokenIf m.1 '?') := (scans_other (by decide) 0).append mark
    exact (start.append (kept_scans.suffixed 0 m.2 h.1 unquoted.1.2)).append (ih h.2 unquoted.2)

/-- Outside of all brackets, bars do not end the scan. -/
theorem scans_tree : ∀ e : Tree, e.WellFormed IsBound → Unquoted e.tokens.flatten → Scans 0 0 e.tokens
  | .nullable e, h, unquoted =>
    (scans_other (by decide) 0).append (scans_tree e h fun c hc => unquoted c (List.mem_cons_of_mem _ hc))
  | .union s ms, h, unquoted => by
    rw [Tree.tokens, unquoted_append] at unquoted
    exact (kept_scans.suffixed 0 s h.1 unquoted.1).append (scans_members ms h.2 unquoted.2)

/-! ## Ends -/

/-- The last character is no bar. -/
def Finished (tokens : List Text) : Prop := ∃ c ∈ tokens.flatten.getLast?, c ≠ '|'

theorem Finished.append_left (h : Finished back) (front : List Text) : Finished (front ++ back) := by
  obtain ⟨c, hc, bar⟩ := h
  refine ⟨c, ?_, bar⟩
  rw [List.flatten_append, List.getLast?_append, Option.mem_def.1 hc]
  rfl

theorem finished_concat (front : List Text) (hc : c ≠ '|') : Finished (front ++ [[c]]) :=
  Finished.append_left ⟨c, by simp, hc⟩ front

theorem finished_name (h : IsName word) : Finished [word] := by
  obtain ⟨c, more, rfl, -⟩ := h.exists_cons
  refine ⟨_, by rw [List.flatten_singleton]; exact List.getLast?_eq_some_getLast (List.cons_ne_nil c more), ?_⟩
  intro bar
  have named := h.2 _ (List.getLast_mem (List.cons_ne_nil c more))
  rw [bar] at named
  exact absurd named (by decide)

theorem finished_brackets (n : Nat) : Finished (bracketTokens (n + 1)) := by
  induction n with
  | zero => exact finished_concat [['[']] (by decide)
  | succ n ih => exact ih.append_left [['['], [']']]

theorem finished_suffixed {s : Suffixed} (h : s.WellFormed IsBound) : Finished s.tokens := by
  obtain ⟨a, n⟩ := s
  cases n with
  | succ n => exact (finished_brackets n).append_left a.tokens
  | zero =>
    rw [Suffixed.tokens, bracketTokens, List.append_nil]
    cases a with
    | name name => exact finished_name h
    | record keyword es comma => exact finished_concat (keyword.toList ++ ['{'] :: entryTokens comma es) (by decide)
    | applied name as => exact finished_concat (name :: ['<'] :: argumentTokens as) (by decide)
    | parenthesized e => exact finished_concat (['('] :: e.tokens) (by decide)

theorem finished_members (ms : List (Bool × Suffixed)) (h : MembersWellFormed IsBound ms) (last : Finished front) :
    Finished (front ++ memberTokens ms) := by
  induction ms generalizing front with
  | nil => rwa [memberTokens, List.append_nil]
  | cons m ms ih =>
    rw [memberTokens, ← List.append_assoc]
    exact ih h.2 (((finished_suffixed h.1).append_left _).append_left front)

theorem finished_tree : ∀ e : Tree, e.WellFormed IsBound → Finished e.tokens
  | .nullable e, h => (finished_tree e h).append_left [['?']]
  | .union _ ms, h => finished_members ms h.2 (finished_suffixed h.1)

/-! ## Accepted texts -/

/-- The accepted texts without quotes, line breaks and blanks outside of brackets. -/
structure Plain (t : Text) : Prop where
  accepted : Accepted t
  unquoted : Unquoted t
  unbroken : ∀ c ∈ t, c ≠ '\n' ∧ c ≠ '\r'
  unblank : ∀ c ∈ outside 0 t, isBlank c = false

/-- The text has the given derivation, whose tokens are marks and words with matching brackets. -/
structure Tokenized (e : Tree) (t : Text) : Prop where
  derives : Derives IsBound e t
  scans : Scans 0 0 e.tokens

namespace Tokenized
variable {e : Tree} (h : Tokenized e t)
include h

theorem filter_eq : t.filter (fun c => !isSpacing c) = e.tokens.flatten :=
  Spelled.filter_eq h.scans.each h.derives.spells

theorem opened : opened? 0 t = some 0 := by
  rw [← opened?_filter, h.filter_eq, h.scans.opened]

/-- There are no other characters than blanks and those of tokens. -/
theorem mem_cases : ∀ c ∈ t, isSpacing c = true ∨ c ∈ punctuation ∨ inWord c = true := by
  intro c hc
  by_cases blank : isSpacing c = true
  · exact Or.inl blank
  · have kept : c ∈ t.filter fun c => !isSpacing c := List.mem_filter.2 ⟨hc, by simpa using blank⟩
    rw [h.filter_eq] at kept
    obtain ⟨word, hw, hm⟩ := List.mem_flatten.1 kept
    exact Or.inr ((h.scans.each word hw).mem_cases c hm)

theorem ne_star : ∀ c ∈ t, c ≠ '*' := by
  rintro _ hc rfl
  exact absurd (h.mem_cases _ hc) (by decide)

theorem ne_nil : t ≠ [] := by
  rintro rfl
  obtain ⟨c, hc, -⟩ := finished_tree e h.derives.wellFormed
  rw [← h.filter_eq] at hc
  exact absurd hc (by simp)

/-- The last character is the last one of the tokens, unless it is a blank. -/
theorem getLast?_ne_bar (hc : t.getLast? = some c) (solid : isSpacing c = false) : c ≠ '|' := by
  obtain ⟨front, rfl⟩ := List.getLast?_eq_some_iff.1 hc
  obtain ⟨d, hd, bar⟩ := finished_tree e h.derives.wellFormed
  rw [← h.filter_eq, List.filter_append, List.filter_cons_of_pos (by simp [solid]), List.filter_nil,
    List.getLast?_concat] at hd
  obtain rfl := Option.some.inj hd
  exact bar

end Tokenized

namespace Plain
variable (h : Plain t)
include h

theorem exists_tokenized : ∃ e, Tokenized e t := by
  obtain ⟨e, he⟩ := accepted_iff.1 h.accepted
  have spelled : Spelled e.tokens t := he.spells
  exact ⟨e, he, scans_tree e he.wellFormed fun c hc => h.unquoted c (spelled.subset hc)⟩

theorem ne_nil : t ≠ [] := by
  obtain ⟨e, he⟩ := h.exists_tokenized
  exact he.ne_nil

theorem isBlank_head : ∀ c ∈ t.head?, isBlank c = false := by
  intro c hc
  obtain ⟨more, rfl⟩ := List.head?_eq_some_iff.1 hc
  exact h.unblank c List.mem_cons_self

theorem isBlank_last : ∀ c ∈ t.getLast?, isBlank c = false := by
  intro c hc
  obtain ⟨e, he⟩ := h.exists_tokenized
  refine Bool.eq_false_iff.2 fun blank => ?_
  exact absurd (h.unblank c (mem_outside_of_getLast? he.opened hc blank)) (by simp [blank])

/-- **The whole text.** The scan reads it to its end. -/
theorem readable : Readable 0 t := by
  obtain ⟨e, he⟩ := h.exists_tokenized
  refine ⟨he.opened, fun c hc => ?_, fun c hc => ⟨he.ne_star c hc, h.unbroken c hc⟩⟩
  exact Bool.eq_false_iff.2 fun blank => absurd (h.unblank c hc) (by simp [Text.isBlank_of_isSpacing blank])

/-- It does not go on behind a blank. -/
theorem endsBar_eq : endsBar false t = false := by
  obtain ⟨e, he⟩ := h.exists_tokenized
  have hc := List.getLast?_eq_some_getLast h.ne_nil
  have blank := h.isBlank_last _ hc
  have solid : isSpacing (t.getLast h.ne_nil) = false :=
    Bool.eq_false_iff.2 fun spacing => absurd (Text.isBlank_of_isSpacing spacing) (by simp [blank])
  rw [endsBar, hc]
  exact decide_eq_false (he.getLast?_ne_bar hc solid)

/-- **Other spaces.** They do not change what is denoted. -/
theorem parse_eq {before : Option Char} (hu : Respaced before t u) : parse u = parse t := by
  obtain ⟨e, he⟩ := h.exists_tokenized
  have spelled : Spelled e.tokens u := hu.spelled he.scans.each he.derives.spells
  have derives : Derives IsBound e u := ⟨he.derives.wellFormed, he.derives.nesting_le, spelled⟩
  rw [parse_of_derives derives, parse_of_derives he.derives]

end Plain

end DeclGen.Docblock
