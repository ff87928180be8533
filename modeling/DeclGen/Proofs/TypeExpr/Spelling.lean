import DeclGen.Proofs.Text
import DeclGen.Proofs.TypeExpr.Grammar

/-!
# Tokens in a text

* `Spells.append`, `spells_cons_iff` : a spelled text, token by token; `Spells.exists_append` : what is
  spelled stands in front of any rest;
* `Before cs t` : behind blanks, `t` ends or goes on with one of `cs`. A word ends before such a
  text (`takeWhile_append_before`, `dropWhile_append_before`);
* `Opens` : what the tokens of a type start with (`Tree.opens`), and what may follow a name that
  stands first.
-/

namespace DeclGen.TypeExpr
open Text (isSpacing skipSpacing)

/-! ## Blanks -/

theorem skipSpacing_append {blanks : Text} (h : ∀ c ∈ blanks, isSpacing c = true) (t : Text) :
    skipSpacing (blanks ++ t) = skipSpacing t :=
  List.dropWhile_append_of_pos h

theorem skipSpacing_cons {c : Char} (h : isSpacing c = false) (t : Text) :
    skipSpacing (c :: t) = c :: t :=
  List.dropWhile_cons_of_neg (by simp [h])

theorem skipSpacing_eq_nil_iff {t : Text} : skipSpacing t = [] ↔ ∀ c ∈ t, isSpacing c = true := by
  induction t with
  | nil => simp [skipSpacing]
  | cons c t ih =>
    simp only [skipSpacing, List.forall_mem_cons] at ih ⊢
    cases hc : isSpacing c with
    | true => simp [hc, ih]
    | false => simp [hc]

theorem isSpacing_eq_false_of_head {c : Char} {t following : Text} (h : skipSpacing t = c :: following) :
    isSpacing c = false := by
  have hne : t.dropWhile isSpacing ≠ [] := by
    intro h0
    rw [skipSpacing, h0] at h
    exact absurd h (by simp)
  have := List.head_dropWhile_not (p := isSpacing) (l := t) hne
  simp only [skipSpacing] at h
  simpa [h] using this

@[simp] theorem skipSpacing_skipSpacing (t : Text) : skipSpacing (skipSpacing t) = skipSpacing t := by
  cases h : skipSpacing t with
  | nil => rfl
  | cons c following => exact skipSpacing_cons (isSpacing_eq_false_of_head h) following

theorem length_skipSpacing_le (t : Text) : (skipSpacing t).length ≤ t.length :=
  (List.dropWhile_suffix isSpacing).length_le

/-! ## Spelled texts -/

theorem Spells.append {front back : List Text} {t rest : Text} :
    Spells (front ++ back) t rest ↔ ∃ following, Spells front t following ∧ Spells back following rest := by
  induction front generalizing t with
  | nil => simp [Spells]
  | cons token tokens ih =>
    constructor
    · rintro ⟨blanks, u, hb, ht, hu⟩
      obtain ⟨following, hf, hr⟩ := ih.1 hu
      exact ⟨following, ⟨blanks, u, hb, ht, hf⟩, hr⟩
    · rintro ⟨following, ⟨blanks, u, hb, ht, hu⟩, hr⟩
      exact ⟨blanks, u, hb, ht, ih.2 ⟨following, hu, hr⟩⟩

/-- A token may stand right at the start. -/
theorem Spells.token {tokens : List Text} {following rest : Text} (h : Spells tokens following rest)
    (token : Text) : Spells (token :: tokens) (token ++ following) rest :=
  ⟨[], following, by simp, rfl, h⟩

theorem spells_single (token rest : Text) : Spells [token] (token ++ rest) rest :=
  Spells.token (show Spells [] rest rest from rfl) token

/-- Without blanks. -/
theorem spells_flatten : ∀ tokens : List Text, Spells tokens tokens.flatten []
  | [] => rfl
  | _ :: tokens => (spells_flatten tokens).token _

theorem Spells.blank {tokens : List Text} {t rest : Text} (hne : tokens ≠ [])
    (h : Spells tokens t rest) : Spells tokens (' ' :: t) rest := by
  cases tokens with
  | nil => exact absurd rfl hne
  | cons token tokens =>
    obtain ⟨blanks, following, hb, rfl, hs⟩ := h
    exact ⟨' ' :: blanks, following, List.forall_mem_cons.2 ⟨by decide, hb⟩, rfl, hs⟩

/-- The first token stands behind the blanks, unless it starts with one. -/
theorem spells_cons_iff {c : Char} (hc : isSpacing c = false) {token : Text} {tokens : List Text}
    {t rest : Text} :
    Spells ((c :: token) :: tokens) t rest ↔
      ∃ following, skipSpacing t = c :: (token ++ following) ∧ Spells tokens following rest := by
  constructor
  · rintro ⟨blanks, following, hb, rfl, hs⟩
    refine ⟨following, ?_, hs⟩
    rw [skipSpacing_append hb, List.cons_append, skipSpacing_cons hc]
  · rintro ⟨following, ht, hs⟩
    refine ⟨t.takeWhile isSpacing, following, ?_, ?_, hs⟩
    · exact fun d hd => List.all_eq_true.1 List.all_takeWhile d hd
    · have parts := List.takeWhile_append_dropWhile (p := isSpacing) (l := t)
      rw [← skipSpacing, ht] at parts
      exact parts.symm

theorem spells_mark_iff {c : Char} (hc : isSpacing c = false) {tokens : List Text} {t rest : Text} :
    Spells ([c] :: tokens) t rest ↔
      ∃ following, skipSpacing t = c :: following ∧ Spells tokens following rest := by
  rw [spells_cons_iff hc]
  simp

theorem spells_tokenIf_false {c : Char} {tokens : List Text} {t rest : Text} :
    Spells (tokenIf false c ++ tokens) t rest ↔ Spells tokens t rest := Iff.rfl

theorem spells_tokenIf_true {c : Char} {tokens : List Text} {t rest : Text} :
    Spells (tokenIf true c ++ tokens) t rest ↔ Spells ([c] :: tokens) t rest := Iff.rfl

/-- Whatever follows, the text in front of the rest is spelled by the tokens. -/
theorem Spells.exists_append {tokens : List Text} {t rest : Text} (h : Spells tokens t rest) :
    ∃ u, t = u ++ rest ∧ ∀ rest', Spells tokens (u ++ rest') rest' := by
  induction tokens generalizing t with
  | nil => exact ⟨[], h, fun rest' => rfl⟩
  | cons token tokens ih =>
    obtain ⟨blanks, following, hb, rfl, hs⟩ := h
    obtain ⟨u, rfl, hu⟩ := ih hs
    exact ⟨blanks ++ (token ++ u), by simp, fun rest' => ⟨blanks, u ++ rest', hb, by simp, hu rest'⟩⟩

theorem Spells.length_le {tokens : List Text} {t rest : Text} (h : Spells tokens t rest) :
    rest.length ≤ t.length := by
  obtain ⟨u, rfl, -⟩ := h.exists_append
  exact (List.suffix_append u rest).length_le

/-! ## What may follow -/

/-- Behind blanks, the text ends or goes on with one of the characters. -/
def Before (cs : List Char) (t : Text) : Prop := ∀ c ∈ (skipSpacing t).head?, c ∈ cs

/-- What ends a type inside another one. -/
def closers : List Char := [')', ',', '}', '>']

theorem Before.mono {cs ds : List Char} {t : Text} (h : Before cs t) (hs : cs ⊆ ds) : Before ds t :=
  fun _ hc => hs (h _ hc)

theorem Before.of_blank {cs : List Char} {t : Text} (h : skipSpacing t = []) : Before cs t := by
  intro c hc
  rw [h] at hc
  exact absurd hc (by simp)

theorem Before.of_head {c : Char} {cs : List Char} {t u : Text} (h : skipSpacing t = c :: u)
    (hc : c ∈ cs) : Before cs t := by
  intro d hd
  rw [h, List.head?_cons, Option.mem_some_iff] at hd
  exact hd ▸ hc

theorem Before.of_mark {c : Char} {cs : List Char} {tokens : List Text} {t rest : Text}
    (hc : isSpacing c = false) (h : Spells ([c] :: tokens) t rest) (hm : c ∈ cs) : Before cs t := by
  obtain ⟨following, ht, -⟩ := (spells_mark_iff hc).1 h
  exact Before.of_head ht hm

/-- A text that goes on with a character that is not allowed to follow. -/
theorem Before.ne_cons {cs : List Char} {t : Text} (h : Before cs t) {c : Char} (hc : c ∉ cs)
    (following : Text) : skipSpacing t ≠ c :: following := by
  intro ht
  exact hc (h c (by rw [ht]; rfl))

/-- The first character of what follows is a blank or one of those that may follow. -/
theorem Before.head {cs : List Char} {t : Text} (h : Before cs t) :
    ∀ c ∈ t.head?, isSpacing c = true ∨ c ∈ cs := by
  intro c hc
  cases t with
  | nil => simp at hc
  | cons d t =>
    obtain rfl : d = c := by simpa using hc
    cases hd : isSpacing d with
    | true => exact Or.inl rfl
    | false => exact Or.inr (h d (by rw [skipSpacing_cons hd]; rfl))

section Words
variable {p : Char → Bool} {cs : List Char} {t : Text}

theorem eq_false_of_any {c : Char} (h : cs.any p = false) (hc : c ∈ cs) : p c = false :=
  Bool.eq_false_iff.2 (List.any_eq_false.1 h c hc)

theorem head?_of_before (hs : ∀ c, isSpacing c = true → p c = false) (hcs : cs.any p = false)
    (h : Before cs t) : ∀ c ∈ t.head?, p c = false := by
  intro c hc
  rcases h.head c hc with hb | hm
  · exact hs c hb
  · exact eq_false_of_any hcs hm

end Words

theorem inName_of_isSpacing (c : Char) (h : isSpacing c = true) : inName c = false := by
  simp only [isSpacing, Bool.or_eq_true, decide_eq_true_eq] at h
  rcases h with (((rfl | rfl) | rfl) | rfl) | rfl <;> decide

theorem inKey_of_isSpacing (c : Char) (h : isSpacing c = true) : inKey c = false := by
  simp only [isSpacing, Bool.or_eq_true, decide_eq_true_eq] at h
  rcases h with (((rfl | rfl) | rfl) | rfl) | rfl <;> decide

theorem isDigit_of_isSpacing (c : Char) (h : isSpacing c = true) : c.isDigit = false := by
  simp only [isSpacing, Bool.or_eq_true, decide_eq_true_eq] at h
  rcases h with (((rfl | rfl) | rfl) | rfl) | rfl <;> decide

theorem isSpacing_of_inName {c : Char} (h : inName c = true) : isSpacing c = false := by
  cases hc : isSpacing c with
  | false => rfl
  | true => rw [inName_of_isSpacing c hc] at h; exact absurd h (by simp)

/-! ## How keys and types begin -/

theorem Key.exists_cons {key : Key} (h : key.WellFormed) :
    ∃ c token, key.token = c :: token ∧ isSpacing c = false ∧ c ≠ '}' := by
  cases key with
  | bare name =>
    obtain ⟨hn, hc⟩ := h
    cases name with
    | nil => exact absurd rfl hn
    | cons c name =>
      have hk := hc c (by simp)
      refine ⟨c, name, rfl, ?_, ?_⟩
      · cases hs : isSpacing c with
        | false => rfl
        | true => rw [inKey_of_isSpacing c hs] at hk; exact absurd hk (by simp)
      · rintro rfl
        exact absurd hk (by decide)
  | quoted quote name =>
    refine ⟨quote, name ++ [quote], rfl, ?_⟩
    rcases h.1 with rfl | rfl <;> decide

/-- The marks that a type may start with. -/
def openers : List Char := ['?', '{', '(']

/-- The marks that may stand behind a name inside a type. -/
def followers : List Char := ['{', '<', '[', '|']

theorem isSpacing_of_bound {c : Char} (h : (c = '-' || c.isDigit) = true) : isSpacing c = false := by
  cases hs : isSpacing c with
  | false => rfl
  | true =>
    rw [isDigit_of_isSpacing c hs, Bool.or_false, decide_eq_true_eq] at h
    subst h
    exact absurd hs (by decide)

/-- What the tokens of a type look like: an opening mark stands first, or a name that is alone or
stands before a mark. -/
def Opens : List Text → Prop
  | [] => False
  | first :: more =>
    (∃ c ∈ openers, first = [c]) ∨
      IsName first ∧ ∀ token ∈ more.head?, ∃ c ∈ followers, token = [c]

theorem Opens.append {front back : List Text} (h : Opens front)
    (hb : ∀ token ∈ back.head?, ∃ c ∈ followers, token = [c]) : Opens (front ++ back) := by
  cases front with
  | nil => exact absurd h id
  | cons first more =>
    rcases h with hf | ⟨hn, hm⟩
    · exact Or.inl hf
    · refine Or.inr ⟨hn, ?_⟩
      cases more with
      | nil => simpa using hb
      | cons token more => simpa using hm

theorem isName_of_isCollection {name : Text} (h : isCollection name = true) : IsName name := by
  have names : collections.all (fun n => n.head?.any isNameStart && n.all inName) = true := by decide
  have hm : name ∈ collections := List.contains_iff_mem.1 h
  have hn := List.all_eq_true.1 names name hm
  rw [Bool.and_eq_true] at hn
  exact ⟨hn.1, List.all_eq_true.1 hn.2⟩

theorem isCollection_of_takesShape {name : Text} (h : takesShape name = true) :
    isCollection name = true :=
  (Bool.and_eq_true_iff.1 h).1

section Opening
variable {bound : Text → Prop}

theorem Atom.opens {a : Atom} (h : a.WellFormed bound) : Opens a.tokens := by
  cases a with
  | name n => exact Or.inr ⟨h, by simp⟩
  | record keyword es comma =>
    cases keyword with
    | none => exact Or.inl ⟨'{', by decide, rfl⟩
    | some k =>
      refine Or.inr ⟨isName_of_isCollection (isCollection_of_takesShape (h.1 k rfl)), ?_⟩
      intro token ht
      obtain rfl : ['{'] = token := by simpa using ht
      exact ⟨'{', by decide, rfl⟩
  | applied n as =>
    refine Or.inr ⟨h.1, ?_⟩
    intro token ht
    obtain rfl : ['<'] = token := by simpa using ht
    exact ⟨'<', by decide, rfl⟩
  | parenthesized t => exact Or.inl ⟨'(', by decide, rfl⟩

theorem Suffixed.opens {s : Suffixed} (h : s.WellFormed bound) : Opens s.tokens := by
  obtain ⟨a, n⟩ := s
  refine (Atom.opens h).append ?_
  cases n with
  | zero => simp [bracketTokens]
  | succ n =>
    intro token ht
    obtain rfl : ['['] = token := by simpa [bracketTokens] using ht
    exact ⟨'[', by decide, rfl⟩

theorem Tree.opens {e : Tree} (h : e.WellFormed bound) : Opens e.tokens := by
  cases e with
  | nullable t => exact Or.inl ⟨'?', by decide, rfl⟩
  | union s ms =>
    refine (Suffixed.opens h.1).append ?_
    cases ms with
    | nil => simp [memberTokens]
    | cons m ms =>
      intro token ht
      obtain rfl : ['|'] = token := by simpa [memberTokens] using ht
      exact ⟨'|', by decide, rfl⟩

end Opening

theorem IsName.exists_cons {name : Text} (h : IsName name) :
    ∃ c more, name = c :: more ∧ isNameStart c = true := by
  cases name with
  | nil => exact absurd h.1 (by simp)
  | cons c more => exact ⟨c, more, rfl, by simpa using h.1⟩

theorem inName_of_isNameStart {c : Char} (h : isNameStart c = true) : inName c = true := by
  simp only [isNameStart, Bool.or_eq_true, decide_eq_true_eq] at h
  simp only [inName, Char.isAlphanum, Bool.or_eq_true, decide_eq_true_eq]
  rcases h with (h | h) | h
  · exact Or.inl (Or.inl (Or.inl (Or.inl (Or.inl h))))
  · exact Or.inl (Or.inl (Or.inl (Or.inr h)))
  · exact Or.inl (Or.inl (Or.inr h))

theorem isSpacing_of_isNameStart {c : Char} (h : isNameStart c = true) : isSpacing c = false :=
  isSpacing_of_inName (inName_of_isNameStart h)

theorem spells_name_iff {name : Text} (hn : IsName name) {tokens : List Text} {t rest : Text} :
    Spells (name :: tokens) t rest ↔
      ∃ following, skipSpacing t = name ++ following ∧ Spells tokens following rest := by
  obtain ⟨c, more, rfl, hc⟩ := hn.exists_cons
  rw [spells_cons_iff (isSpacing_of_isNameStart hc)]
  rfl

theorem Atom.ne_question {bound : Text → Prop} {a : Atom} (h : a.WellFormed bound) {tokens : List Text}
    {t rest : Text} (hs : Spells (a.tokens ++ tokens) t rest) (u : Text) :
    skipSpacing t ≠ '?' :: u := by
  have name : ∀ {n more}, IsName n → Spells (n :: more) t rest → skipSpacing t ≠ '?' :: u := by
    intro n more hn hs ht
    obtain ⟨v, hv, -⟩ := (spells_name_iff hn).1 hs
    obtain ⟨c, more, rfl, hc⟩ := hn.exists_cons
    obtain rfl : c = '?' := (List.cons.inj (hv.symm.trans ht)).1
    exact absurd hc (by decide)
  have mark : ∀ {c more}, isSpacing c = false → c ≠ '?' → Spells ([c] :: more) t rest →
      skipSpacing t ≠ '?' :: u := by
    intro c more hc hne hs ht
    obtain ⟨v, hv, -⟩ := (spells_mark_iff hc).1 hs
    exact hne (List.cons.inj (hv.symm.trans ht)).1
  cases a with
  | name n => exact name h hs
  | record keyword es comma =>
    cases keyword with
    | none => exact mark (by decide) (by decide) hs
    | some k => exact name (isName_of_isCollection (isCollection_of_takesShape (h.1 k rfl))) hs
  | applied n as => exact name h.1 hs
  | parenthesized e => exact mark (by decide) (by decide) hs

theorem Suffixed.ne_question {bound : Text → Prop} {s : Suffixed} (h : s.WellFormed bound)
    {t rest : Text} (hs : Spells s.tokens t rest) (u : Text) : skipSpacing t ≠ '?' :: u := by
  obtain ⟨a, n⟩ := s
  exact Atom.ne_question h hs u

/-- The first token of a type starts with no blank. -/
theorem Opens.exists_cons {tokens : List Text} (h : Opens tokens) :
    ∃ c token more, tokens = (c :: token) :: more ∧ (c ∈ openers ∨ isNameStart c = true) ∧
      isSpacing c = false := by
  cases tokens with
  | nil => exact absurd h id
  | cons first more =>
    rcases h with ⟨c, hc, rfl⟩ | ⟨hn, -⟩
    · exact ⟨c, [], more, rfl, Or.inl hc, eq_false_of_any (by decide) hc⟩
    · obtain ⟨c, token, rfl, hc⟩ := hn.exists_cons
      exact ⟨c, token, more, rfl, Or.inr hc, isSpacing_of_isNameStart hc⟩

theorem Opens.ne_nil {tokens : List Text} (h : Opens tokens) : tokens ≠ [] := by
  obtain ⟨c, token, more, rfl, -⟩ := h.exists_cons
  exact List.cons_ne_nil _ _

/-- Blanks before a type make no difference. -/
theorem Opens.spells_skip {tokens : List Text} (h : Opens tokens) {t rest : Text} :
    Spells tokens (skipSpacing t) rest ↔ Spells tokens t rest := by
  obtain ⟨c, token, more, rfl, -, hc⟩ := h.exists_cons
  rw [spells_cons_iff hc, spells_cons_iff hc, skipSpacing_skipSpacing]

end DeclGen.TypeExpr
