import DeclGen.Proofs.TypeScript.Alternatives
import DeclGen.Proofs.TypeScript.Grammar
import DeclGen.Text.Alphanumeric

/-!
# Derivations as texts

* `Tree.text` : the text of a derivation, as types are written for fields;
* `Reads` : in front of whatever no word goes on with, a text is read as some tokens;
* `Tree.derives_text` : a derivation is one of its text;
* `Primary.scans` : the text of an alternative is passed over as one, if the words in it have no
  brackets and no bars;
* `Suffixed.solid` : it neither starts nor ends with a blank.
-/

namespace DeclGen.TypeScript
open Text (isBlank trimStart)

/-! ## Texts -/

def Key.text : Key → Text
  | bare name => name
  | quoted name => quote name

def Property.leadText {τ : Type} (p : Property τ) : Text :=
  p.key.text ++ ((if p.optional then ['?'] else []) ++ [':', ' '])

def bracketText (n : Nat) : Text := (List.replicate n ['[', ']']).flatten

/-- Alternatives with bars between them. -/
def barred (alternatives : List Text) : Text := List.intercalate " | ".toList alternatives

mutual

/-- The text of a derivation. -/
def Primary.text : Primary → Text
  | .name name => name
  | .record key value =>
    "Record".toList ++ '<' :: (barred (alternativeTexts key) ++
      ',' :: ' ' :: (barred (alternativeTexts value) ++ ['>']))
  | .object properties =>
    if properties.isEmpty then ['{', '}']
    else '{' :: ' ' :: (List.intercalate "; ".toList (propertyTexts properties) ++ [' ', '}'])
  | .parenthesized inner => '(' :: (barred (alternativeTexts inner) ++ [')'])

def alternativeTexts : List (Suffixed Primary) → List Text
  | [] => []
  | ⟨primary, n⟩ :: ss => (primary.text ++ bracketText n) :: alternativeTexts ss

def propertyTexts : List (Property (List (Suffixed Primary))) → List Text
  | [] => []
  | ⟨key, optional, type⟩ :: ps =>
    (Property.leadText ⟨key, optional, type⟩ ++ barred (alternativeTexts type)) :: propertyTexts ps

end

def Suffixed.text (s : Suffixed Primary) : Text := s.primary.text ++ bracketText s.brackets

def Tree.text (t : Tree) : Text := barred (t.map Suffixed.text)

def Property.text (p : Property Tree) : Text := p.leadText ++ Tree.text p.type

theorem Tree.text_singleton (s : Suffixed Primary) : Tree.text [s] = s.text := by
  rw [Tree.text, List.map_singleton, barred, List.intercalate_singleton]

theorem alternativeTexts_eq (t : Tree) : alternativeTexts t = t.map Suffixed.text := by
  induction t with
  | nil => rfl
  | cons s t ih => rw [alternativeTexts, ih]; rfl

theorem propertyTexts_eq (ps : List (Property Tree)) : propertyTexts ps = ps.map Property.text := by
  induction ps with
  | nil => rfl
  | cons p ps ih => rw [propertyTexts, ih, alternativeTexts_eq]; rfl

theorem bracketText_succ' (n : Nat) : bracketText (n + 1) = bracketText n ++ ['[', ']'] := by
  rw [bracketText, List.replicate_succ', List.flatten_append]
  rfl

namespace Primary

theorem text_record (k v : Tree) : (record k v).text =
    "Record".toList ++ '<' :: (k.text ++ ',' :: ' ' :: (v.text ++ ['>'])) := by
  rw [Tree.text, Tree.text, ← alternativeTexts_eq, ← alternativeTexts_eq]
  rfl

theorem text_object {ps : List (Property Tree)} (h : ps ≠ []) : (object ps).text =
    '{' :: ' ' :: (List.intercalate "; ".toList (ps.map Property.text) ++ [' ', '}']) := by
  rw [← propertyTexts_eq]
  exact if_neg (by simpa using h)

theorem text_parenthesized (t : Tree) : (parenthesized t).text = '(' :: (t.text ++ [')']) := by
  rw [Tree.text, ← alternativeTexts_eq]
  rfl

end Primary

/-! ## Reading tokens -/

variable {letters : Letters}

theorem Letters.ends_nil : letters.Ends [] := fun _ h => absurd h (by simp)

theorem Letters.ends_cons {c : Char} (hc : letters.holds c = false) (t : Text) :
    letters.Ends (c :: t) := by
  rintro _ ⟨⟩
  exact hc

theorem Letters.Ends.append {t u : Text} (ht : letters.Ends t) (hu : letters.Ends u) :
    letters.Ends (t ++ u) := by
  cases t with
  | nil => exact hu
  | cons c t => exact letters.ends_cons (ht c rfl) _

theorem Letters.holds_mark {c : Char} (hc : c ∈ marks) : letters.holds c = false :=
  Bool.eq_false_iff.2 fun h => (letters.apart c h).2.2 hc

theorem Letters.ends_mark {c : Char} (hc : c ∈ marks) (t : Text) : letters.Ends (c :: t) :=
  letters.ends_cons (letters.holds_mark hc) t

theorem Letters.holds_blank {c : Char} (hc : isBlank c = true) : letters.holds c = false := by
  refine Bool.eq_false_iff.2 fun h => ?_
  rw [(letters.apart c h).1] at hc
  exact absurd hc (by simp)

/-- The text is read as the tokens, whatever follows that no word goes on with. -/
def Reads (letters : Letters) (tokens : List Token) (t : Text) : Prop :=
  ∀ (following : List Token) (rest : Text), Spells letters following rest → letters.Ends rest →
    Spells letters (tokens ++ following) (t ++ rest)

theorem reads_nil : Reads letters [] [] := fun _ _ hs _ => hs

theorem Reads.append {tokens tokens' : List Token} {t u : Text} (ht : Reads letters tokens t)
    (hu : Reads letters tokens' u) (hends : letters.Ends u) :
    Reads letters (tokens ++ tokens') (t ++ u) := by
  intro following rest hs he
  rw [List.append_assoc, List.append_assoc]
  exact ht _ _ (hu _ _ hs he) (hends.append he)

theorem reads_word {word : Text} (h : letters.IsWord word) : Reads letters [.word word] word := by
  obtain ⟨hne, hw⟩ := h
  obtain ⟨c, more, rfl⟩ := List.exists_cons_of_ne_nil hne
  rw [List.forall_mem_cons] at hw
  obtain ⟨hblank, hquote, hmark⟩ := letters.apart c hw.1
  intro following rest hs he
  refine ⟨rest, ?_, hs⟩
  rw [trimStart, List.cons_append, List.dropWhile_cons_of_neg (by simp [hblank]), next?, if_neg hquote,
    if_neg hmark, if_pos hw.1, Text.takeWhile_append_of_head? hw.2 he,
    Text.dropWhile_append_of_head? hw.2 he]

theorem isBlank_of_mem_marks {c : Char} (hc : c ∈ marks) : isBlank c = false := by
  have all : marks.all (!isBlank ·) = true := by decide
  simpa using List.all_eq_true.1 all c hc

theorem Reads.mark {c : Char} (hc : c ∈ marks) {tokens : List Token} {t : Text}
    (ht : Reads letters tokens t) : Reads letters (.mark c :: tokens) (c :: t) := by
  intro following rest hs he
  refine ⟨t ++ rest, ?_, ht _ _ hs he⟩
  have hquote : c ≠ '\'' := by
    rintro rfl
    exact absurd hc (by decide)
  rw [trimStart, List.cons_append, List.dropWhile_cons_of_neg (by simp [isBlank_of_mem_marks hc]),
    next?, if_neg hquote, if_pos hc]

theorem spells_blank {c : Char} (hc : isBlank c = true) {tokens : List Token} {t : Text} :
    Spells letters tokens (c :: t) ↔ Spells letters tokens t := by
  cases tokens <;> simp only [Spells, trimStart, List.dropWhile_cons_of_pos hc]

theorem Reads.blank {tokens : List Token} {t : Text} (ht : Reads letters tokens t) :
    Reads letters tokens (' ' :: t) := by
  intro following rest hs he
  rw [List.cons_append, spells_blank (by decide)]
  exact ht _ _ hs he

/-- What stands in quotes is read up to where the escaped text ends. -/
theorem unquote?_escape_append (content rest : Text) : unquote? (escape content ++ rest) =
    (unquote? rest).map fun (more, rest) => (content ++ more, rest) := by
  induction content with
  | nil => exact Option.map_id'.symm
  | cons c content ih =>
    have unfolded : unquote? (escape (c :: content) ++ rest) =
        (unquote? (escape content ++ rest)).map fun (content, rest) => (c :: content, rest) := by
      rw [escape, List.flatMap_cons, ← escape]
      by_cases hc : c = '\\' ∨ c = '\''
      · have escaped : (if c = '\\' || c = '\'' then ['\\', c] else [c]) = ['\\', c] :=
          if_pos (by simpa using hc)
        rw [escaped]
        rfl
      · rw [not_or] at hc
        rw [if_neg (by simpa using hc), List.singleton_append, List.cons_append, unquote?]
        all_goals simp [hc]
    rw [unfolded, ih, Option.map_map]
    rfl

/-- Quoting is undone by reading. -/
theorem unquote?_escape (content rest : Text) :
    unquote? (escape content ++ '\'' :: rest) = some (content, rest) := by
  rw [unquote?_escape_append, unquote?]
  simp

theorem reads_quoted (content : Text) : Reads letters [.quoted content] (quote content) := by
  intro following rest hs he
  refine ⟨rest, ?_, hs⟩
  rw [quote, List.append_assoc, List.cons_append, trimStart,
    List.dropWhile_cons_of_neg (by decide), next?, if_pos rfl, List.singleton_append, unquote?_escape]
  rfl

/-- Items with marks between them are read if each of them is. -/
theorem reads_separated {ι : Type} {tokens : ι → List Token} {text : ι → Text} {c : Char} {sep : Text}
    (hsep : ∀ {tokens t}, Reads letters tokens t → Reads letters (.mark c :: tokens) (sep ++ t))
    (hends : ∀ t, letters.Ends (sep ++ t)) {items : List ι}
    (h : ∀ i ∈ items, Reads letters (tokens i) (text i)) :
    Reads letters (separated c (items.map tokens)) (List.intercalate sep (items.map text)) := by
  induction items with
  | nil => exact reads_nil
  | cons i items ih =>
    rw [List.forall_mem_cons] at h
    cases items with
    | nil => simpa [separated] using h.1
    | cons j items =>
      simp only [List.map_cons, separated, List.intercalate_cons_cons, List.append_assoc] at ih ⊢
      exact h.1.append (hsep (ih h.2)) (hends _)

theorem reads_brackets : ∀ n, Reads letters (bracketTokens n) (bracketText n)
  | 0 => reads_nil
  | n + 1 => .mark (by decide) (.mark (by decide) (reads_brackets n))

theorem Letters.ends_bracketText : ∀ n, letters.Ends (bracketText n)
  | 0 => letters.ends_nil
  | _ + 1 => letters.ends_mark (by decide) _

/-! ## Reading derivations -/

/-- The identifiers of ASCII are words and names. -/
theorem Letters.isName_of_isIdentifier {name : Text} (h : isIdentifier name = true) :
    letters.IsName name := by
  rw [isIdentifier, Bool.and_eq_true, List.all_eq_true] at h
  cases name with
  | nil => exact absurd h.1 (by simp)
  | cons c name =>
    refine ⟨⟨by simp, fun d hd => letters.ascii d (h.2 d hd)⟩, ?_⟩
    rintro _ ⟨⟩
    have starts : startsIdentifier c = true := h.1
    rw [startsIdentifier, Bool.or_eq_true, Bool.or_eq_true, decide_eq_true_eq, decide_eq_true_eq] at starts
    rcases starts with (alpha | rfl) | rfl
    · refine Bool.eq_false_iff.2 fun digit => ?_
      have := Text.isAlpha_iff.1 alpha
      have := Text.isDigit_iff.1 digit
      omega
    · decide
    · decide

theorem Letters.isWord_of_isIndex {word : Text} (h : isIndex word = true) : letters.IsWord word := by
  rw [isIndex, Bool.and_eq_true, List.all_eq_true] at h
  refine ⟨by simpa using h.1, fun c hc => letters.ascii c ?_⟩
  have digit : c.isAlphanum = true := by simp [Char.isAlphanum, h.2 c hc]
  simp [inIdentifier, digit]

theorem Suffixed.reads_of {s : Suffixed Primary} (h : Reads letters s.primary.tokens s.primary.text) :
    Reads letters s.tokens s.text :=
  h.append (reads_brackets _) (letters.ends_bracketText _)

theorem Tree.reads_of {t : Tree} (h : ∀ s ∈ t, Reads letters s.primary.tokens s.primary.text) :
    Reads letters t.tokens t.text :=
  reads_separated (fun ht => .blank (.mark (by decide) (.blank ht)))
    (fun _ => letters.ends_cons (letters.holds_blank (by decide)) _) fun s hs => Suffixed.reads_of (h s hs)

theorem Key.reads {k : Key} (h : letters.IsKey k) : Reads letters [k.token] k.text := by
  cases k with
  | bare name => exact reads_word h
  | quoted name => exact reads_quoted name

theorem Property.reads_of {p : Property Tree} (hk : letters.IsKey p.key)
    (h : ∀ s ∈ p.type, Reads letters s.primary.tokens s.primary.text) :
    Reads letters p.tokens p.text := by
  have type := Tree.reads_of h
  rw [Property.tokens, Property.text, Property.lead, Property.leadText]
  cases p.optional with
  | false =>
    rw [List.append_assoc]
    exact (Key.reads hk).append (.mark (by decide) (.blank type)) (letters.ends_mark (by decide) _)
  | true =>
    rw [List.append_assoc]
    exact (Key.reads hk).append (.mark (by decide) (.mark (by decide) (.blank type)))
      (letters.ends_mark (by decide) _)

theorem Primary.reads {p : Primary} (h : p.WellFormed letters.IsName letters.IsKey) :
    Reads letters p.tokens p.text := by
  have closed : ∀ {c : Char}, c ∈ marks → Reads letters [.mark c] [c] := fun hc => reads_nil.mark hc
  induction h with
  | name hn => exact reads_word hn.1
  | record _ _ _ _ ihk ihv =>
    rw [tokens_record, text_record]
    have key := Tree.reads_of ihk
    have value := Tree.reads_of ihv
    have word : letters.IsWord "Record".toList := (letters.isName_of_isIdentifier (by decide)).1
    -- The text is put together from its end, as each part has to know what follows it.
    have last := value.append (closed (c := '>') (by decide)) (letters.ends_mark (by decide) _)
    have arguments := key.append (.mark (c := ',') (by decide) last.blank)
      (letters.ends_mark (by decide) _)
    exact (reads_word word).append (.mark (by decide) arguments) (letters.ends_mark (by decide) _)
  | @object ps hps _ ih =>
    rw [tokens_object]
    by_cases hne : ps = []
    · rw [hne]
      exact .mark (by decide) (closed (by decide))
    · rw [text_object hne]
      have properties : Reads letters (separated ';' (ps.map Property.tokens))
          (List.intercalate "; ".toList (ps.map Property.text)) :=
        reads_separated (fun ht => .mark (by decide) (.blank ht))
          (fun _ => letters.ends_mark (by decide) _)
          fun p hp => Property.reads_of (hps p hp).1 (ih p hp)
      exact .mark (by decide) (.blank (properties.append (closed (by decide)).blank
        (letters.ends_cons (letters.holds_blank (by decide)) _)))
  | parenthesized _ _ ih =>
    rw [tokens_parenthesized, text_parenthesized]
    exact .mark (by decide) ((Tree.reads_of ih).append (closed (by decide)) (letters.ends_mark (by decide) _))

/-- A derivation is one of its text. -/
theorem Tree.derives_text {d : Tree} (h : d.WellFormed letters.IsName letters.IsKey) :
    Derives letters d d.text := by
  refine ⟨h, ?_⟩
  have all := Tree.reads_of (fun s hs => Primary.reads (h.alternatives s hs)) [] [] rfl letters.ends_nil
  simpa using all

/-! ## Passing over alternatives -/

theorem IsPlain.key {k : Key} (h : IsPlain k.name) : IsPlain k.text := by
  cases k with
  | bare name => exact h
  | quoted name =>
    intro c hc
    have marked : ∀ c ∈ ['\\', '\''], c ∉ brackets ∧ c ≠ '|' := by simp [brackets]
    simp only [Key.text, quote, escape, List.mem_cons, List.mem_append, List.mem_flatMap,
      List.not_mem_nil, or_false] at hc
    rcases hc with (hc | ⟨d, hd, hc⟩) | hc
    · exact marked c (by simp [hc])
    · split at hc
      · rcases List.mem_cons.1 hc with rfl | hc
        · exact marked _ (by simp)
        · exact List.mem_singleton.1 hc ▸ h d hd
      · exact List.mem_singleton.1 hc ▸ h d hd
    · exact marked c (by simp [hc])

theorem scans_bracketText (depth : Nat) : ∀ n, Scans depth (bracketText n)
  | 0 => scans_nil depth
  | n + 1 => (scans_bracketed '[' ']' (by simp) (by simp) (scans_nil _)).append (scans_bracketText depth n)

theorem Suffixed.scans_of {s : Suffixed Primary} {depth : Nat} (h : Scans depth s.primary.text) :
    Scans depth s.text :=
  h.append (scans_bracketText depth _)

/-- Between brackets, types are passed over with their bars. -/
theorem Tree.scans_of {t : Tree} (h : ∀ s ∈ t, ∀ depth, Scans depth s.primary.text) (depth : Nat) :
    Scans (depth + 1) t.text := by
  refine scans_intercalate (scans_of_forall (by simp [brackets])) ?_
  intro u hu
  obtain ⟨s, hs, rfl⟩ := List.mem_map.1 hu
  exact Suffixed.scans_of (h s hs _)

theorem Property.scans_of {p : Property Tree} (hk : IsPlain p.key.name)
    (h : ∀ s ∈ p.type, ∀ depth, Scans depth s.primary.text) (depth : Nat) :
    Scans (depth + 1) p.text := by
  have colon : IsPlain ((if p.optional then ['?'] else []) ++ [':', ' ']) := by
    cases p.optional <;> simp [IsPlain, brackets]
  exact ((IsPlain.key hk).scans _ |>.append (colon.scans _)).append (Tree.scans_of h depth)

/-- The text of an alternative is passed over as one, if the words in it are plain. -/
theorem Primary.scans {p : Primary} (h : p.WellFormed IsPlain fun k => IsPlain k.name) :
    ∀ depth, Scans depth p.text := by
  induction h with
  | name hn => exact hn.scans
  | @record k v _ _ _ _ ihk ihv =>
    intro depth
    have word : IsPlain "Record".toList := by simp [IsPlain, brackets]
    have comma : IsPlain [',', ' '] := by simp [IsPlain, brackets]
    have arguments := ((Tree.scans_of ihk depth).append (comma.scans _)).append (Tree.scans_of ihv depth)
    have all := (word.scans depth).append
      (scans_bracketed '<' '>' (by simp) (by simp) arguments)
    rw [text_record]
    simpa only [List.append_assoc, List.cons_append, List.nil_append] using all
  | @object ps hps _ ih =>
    intro depth
    by_cases hne : ps = []
    · rw [hne]
      exact scans_bracketed '{' '}' (by simp) (by simp) (scans_nil _)
    · have blank : IsPlain [' '] := by simp [IsPlain, brackets]
      have sep : IsPlain "; ".toList := by simp [IsPlain, brackets]
      have properties : ∀ u ∈ ps.map Property.text, Scans (depth + 1) u := by
        intro u hu
        obtain ⟨p, hp, rfl⟩ := List.mem_map.1 hu
        exact Property.scans_of (hps p hp).1 (ih p hp) depth
      have content := ((blank.scans _).append (scans_intercalate (sep.scans _) properties)).append
        (blank.scans _)
      have all := scans_bracketed '{' '}' (by simp) (by simp) content
      rw [text_object hne]
      simpa only [List.append_assoc, List.cons_append, List.nil_append] using all
  | parenthesized _ _ ih =>
    intro depth
    rw [text_parenthesized]
    exact scans_bracketed '(' ')' (by simp) (by simp) (Tree.scans_of ih depth)

/-! ## Ends of alternatives -/

theorem Letters.solid_of_isWord {word : Text} (h : letters.IsWord word) : Solid word :=
  solid_of_unblank h.1 fun c hc => (letters.apart c (h.2 c hc)).1

theorem Primary.solid {p : Primary} {key : Key → Prop} (h : p.WellFormed letters.IsName key) :
    Solid p.text := by
  cases h with
  | name hn => exact letters.solid_of_isWord hn.1
  | @record k v =>
    have all := solid_cons_concat (c := 'R') (d := '>') (by decide) (by decide)
      ("ecord<".toList ++ (k.text ++ ',' :: ' ' :: v.text))
    rw [text_record]
    simpa using all
  | @object ps =>
    by_cases hne : ps = []
    · rw [hne]
      exact solid_cons_concat (by decide) (by decide) []
    · have all := solid_cons_concat (c := '{') (d := '}') (by decide) (by decide)
        (' ' :: (List.intercalate "; ".toList (ps.map Property.text) ++ [' ']))
      rw [text_object hne]
      simpa using all
  | parenthesized =>
    rw [text_parenthesized]
    exact solid_cons_concat (by decide) (by decide) _

theorem Suffixed.solid {s : Suffixed Primary} {key : Key → Prop}
    (h : s.primary.WellFormed letters.IsName key) : Solid s.text := by
  rw [Suffixed.text]
  cases s.brackets with
  | zero => simpa [bracketText] using Primary.solid h
  | succ n =>
    rw [bracketText_succ', ← List.append_assoc]
    exact (Primary.solid h).around (solid_cons_concat (by decide) (by decide) []) _

end DeclGen.TypeScript
