import DeclGen.Proofs.Outcome
import DeclGen.Proofs.Text
import DeclGen.Proofs.Xml.Escape
import Mathlib.Data.List.TakeWhile

/-!
# Written tags

* `IsWord` : the names of elements and attributes, made of letters and dashes;
* `written` : an attribute behind a space, its value escaped and in quotes;
* `Keyed` : attributes whose keys are words, each written once;
* `content` : a name and its attributes, as they stand between the angles of a tag;
* `attributes_content`, `tagName_content` : the attributes and the name are read back;
* `Closed` : text that leaves no quote open and closes no tag; `closed_content`.
-/

namespace DeclGen.Xml

/-- Letters and dashes, at least one. -/
def IsWord (t : Text) : Prop := t ≠ [] ∧ ∀ c ∈ t, (c.isAlpha || c = '-') = true

instance (t : Text) : Decidable (IsWord t) :=
  have : Decidable (∀ c ∈ t, (c.isAlpha || c = '-') = true) := List.decidableBAll _ _
  inferInstanceAs (Decidable (t ≠ [] ∧ _))

theorem ne_of_isLetter {c d : Char} (hc : (c.isAlpha || c = '-') = true)
    (hd : (d.isAlpha || d = '-') = false) : c ≠ d := by
  rintro rfl
  rw [hc] at hd
  exact absurd hd (by decide)

theorem IsWord.notMem {t : Text} (h : IsWord t) {d : Char}
    (hd : (d.isAlpha || d = '-') = false) : d ∉ t :=
  fun hm => ne_of_isLetter (h.2 d hm) hd rfl

theorem IsWord.forall_eq_false {t : Text} (h : IsWord t) {p : Char → Bool}
    (hp : ∀ d, p d = true → (d.isAlpha || d = '-') = false) : ∀ c ∈ t, p c = false := by
  intro c hc
  cases hpc : p c with
  | false => rfl
  | true => exact absurd hc (h.notMem (hp c hpc))

theorem isLetter_of_isSpace {c : Char} (h : isSpace c = true) : (c.isAlpha || c = '-') = false := by
  simp only [isSpace, Bool.or_eq_true, decide_eq_true_eq] at h
  rcases h with ((rfl | rfl) | rfl) | rfl <;> decide

theorem isLetter_of_endsKey {c : Char} (h : endsKey c = true) : (c.isAlpha || c = '-') = false := by
  simp only [endsKey, Bool.or_eq_true, decide_eq_true_eq] at h
  rcases h with rfl | h
  · decide
  · exact isLetter_of_isSpace h

theorem isLetter_of_isQuote {c : Char} (h : isQuote c = true) : (c.isAlpha || c = '-') = false := by
  simp only [isQuote, Bool.or_eq_true, decide_eq_true_eq] at h
  rcases h with rfl | rfl <;> decide

theorem isSpace_of_isQuote {c : Char} (h : isQuote c = true) : isSpace c = false := by
  simp only [isQuote, Bool.or_eq_true, decide_eq_true_eq] at h
  rcases h with rfl | rfl <;> decide

/-- An attribute behind a space, its value escaped. -/
def written (quote : Char) (a : Attribute) : Text :=
  ' ' :: a.1 ++ '=' :: quote :: escape a.2 ++ [quote]

/-- The keys are words, and no two are the same. -/
structure Keyed (as : List Attribute) : Prop where
  words : ∀ key ∈ as.map Prod.fst, IsWord key
  nodup : (as.map Prod.fst).Nodup

theorem keyed_nil : Keyed [] := ⟨fun _ h => absurd h List.not_mem_nil, List.nodup_nil⟩

/-- A name and the attributes behind it. -/
def content (quote : Char) (name : Text) (as : List Attribute) : Text :=
  name ++ as.flatMap (written quote)

section Content
variable {quote : Char} {name : Text} {as : List Attribute}

/-! ## Attributes -/

theorem ne_quote_of_mem_escape (hq : isQuote quote = true) {value : Text} :
    ∀ c ∈ escape value, c ≠ quote := by
  rintro c hc rfl
  rw [isQuote_of_mem_escape c hc] at hq
  exact absurd hq (by decide)

theorem attributeValue_written (hq : isQuote quote = true) (total : Nat) (value rest : Text) :
    attributeValue total (quote :: escape value ++ quote :: rest) = .ok (escape value, rest) := by
  have inside (c : Char) (hc : c ∈ escape value) : (c != quote) = true :=
    bne_iff_ne.2 (ne_quote_of_mem_escape hq c hc)
  have stop : ∀ c ∈ (quote :: rest).head?, (c != quote) = false := by
    intro c hc
    obtain rfl := Option.some.inj hc
    exact bne_self_eq_false _
  rw [attributeValue, List.cons_append,
    List.dropWhile_cons_of_neg (by rw [isSpace_of_isQuote hq]; decide)]
  simp only [hq, if_true, Text.dropWhile_append_of_head? inside stop,
    Text.takeWhile_append_of_head? inside stop]

theorem attributesFrom_written (hq : isQuote quote = true) (total : Nat) (as : List Attribute) :
    ∀ (fuel : Nat) (seen : List (Text × Nat)), Keyed as →
      (∀ a ∈ as, seen.lookup a.1 = none) → as.length ≤ fuel →
      attributesFrom total fuel seen (as.flatMap (written quote)) =
        as.map fun a => .ok (a.1, escape a.2) := by
  induction as with
  | nil =>
    intro fuel seen _ _ _
    cases fuel <;> rfl
  | cons a as ih =>
    intro fuel seen keyed unseen enough
    obtain ⟨words, nodup⟩ := keyed
    obtain ⟨key, value⟩ := a
    obtain ⟨fuel, rfl⟩ := Nat.exists_eq_succ_of_ne_zero (Nat.ne_zero_of_lt enough)
    rw [List.map_cons, List.forall_mem_cons] at words
    rw [List.map_cons, List.nodup_cons] at nodup
    rw [List.forall_mem_cons] at unseen
    obtain ⟨c, word, rfl⟩ := List.exists_cons_of_ne_nil words.1.1
    have letters := words.1.forall_eq_false fun _ => isLetter_of_endsKey
    rw [List.forall_mem_cons] at letters
    have start : isSpace c = false := (Bool.or_eq_false_iff.1 letters.1).2
    have inside : ∀ d ∈ word, (!endsKey d) = true := fun d hd => by rw [letters.2 d hd]; rfl
    -- The text is the key, then the equals sign, the value in quotes and the other attributes.
    have shape : List.flatMap (written quote) ((c :: word, value) :: as) =
        ' ' :: c :: (word ++ '=' :: (quote :: escape value ++ quote :: as.flatMap (written quote))) := by
      simp [written]
    have keys : ∀ a ∈ as, ∀ n, ((c :: word, n) :: seen).lookup a.1 = none := by
      intro a ha n
      have other : a.1 ≠ c :: word := fun h => nodup.1 (List.mem_map.2 ⟨a, ha, h⟩)
      rw [List.lookup_cons, beq_eq_false_iff_ne.2 other]
      exact unseen.2 a ha
    have stop {rest : Text} : ∀ d ∈ ('=' :: rest).head?, (!endsKey d) = false := by
      intro d hd
      obtain rfl := Option.some.inj hd
      rfl
    rw [shape, attributesFrom, List.dropWhile_cons_of_pos (by decide),
      List.dropWhile_cons_of_neg (by rw [start]; decide)]
    simp only [Text.dropWhile_append_of_head? inside stop, Text.takeWhile_append_of_head? inside stop,
      List.dropWhile_cons_of_neg (show ¬ isSpace '=' = true by decide), if_true, unseen.1,
      attributeValue_written hq]
    rw [List.map_cons, ih fuel _ ⟨words.2, nodup.2⟩ (fun a ha => keys a ha _) (Nat.le_of_succ_le_succ enough)]

theorem head?_flatMap_written : ∀ c ∈ (as.flatMap (written quote)).head?, isSpace c = true := by
  intro c hc
  cases as with
  | nil => exact absurd hc (by simp)
  | cons a as =>
    obtain rfl := Option.some.inj hc
    rfl

theorem length_le_flatMap_written (as : List Attribute) :
    as.length ≤ (as.flatMap (written quote)).length := by
  induction as with
  | nil => exact Nat.le_refl 0
  | cons a as ih =>
    simp only [List.flatMap_cons, List.length_cons, List.length_append, written]
    omega

/-- The attributes of a tag are read as they were written. -/
theorem attributes_content (hq : isQuote quote = true) (hname : IsWord name) (keyed : Keyed as) :
    attributes (content quote name as) = as.map fun a => .ok (a.1, escape a.2) := by
  have inside : ∀ c ∈ name, (!isSpace c) = true := by
    intro c hc
    rw [hname.forall_eq_false (fun _ => isLetter_of_isSpace) c hc]
    rfl
  have stop : ∀ c ∈ (as.flatMap (written quote)).head?, (!isSpace c) = false := by
    intro c hc
    rw [head?_flatMap_written c hc]
    rfl
  rw [attributes, content, Text.dropWhile_append_of_head? inside stop]
  refine attributesFrom_written hq _ as _ _ keyed (fun _ _ => rfl) ?_
  rw [List.length_append]
  exact Nat.le_add_left_of_le (length_le_flatMap_written as)

/-! ## Names -/

theorem tagName_content (hname : IsWord name) : tagName (content quote name as) = name := by
  refine Text.takeWhile_append_of_head? (fun c hc => ?_) fun c hc => ?_
  · rw [hname.forall_eq_false (fun _ => isLetter_of_isSpace) c hc]
    rfl
  · rw [head?_flatMap_written c hc]
    rfl

theorem localName_eq_self (hname : IsWord name) : localName name = name := by
  have whole : name.dropWhile (· != ':') = [] := by
    rw [List.dropWhile_eq_nil_iff]
    intro c hc
    exact bne_iff_ne.2 (ne_of_isLetter (hname.2 c hc) (by decide))
  rw [localName, whole]

theorem endName_eq_self (hname : IsWord name) : Markup.endName name = name := by
  have solid : ∀ c ∈ name, isSpace c = false := hname.forall_eq_false fun _ => isLetter_of_isSpace
  obtain ⟨c, word, rfl⟩ := List.exists_cons_of_ne_nil hname.1
  have first : ¬ (c :: word).all isSpace = true := by
    rw [List.all_cons, solid c List.mem_cons_self, Bool.false_and]
    decide
  rw [Markup.endName, if_neg first, Text.dropWhile_eq_self_of_head?, List.reverse_reverse]
  exact fun d hd => solid d (List.mem_reverse.1 (List.mem_of_mem_head? hd))

/-! ## Where a tag ends -/

/-- No quote is open behind the text, and no tag ends in it. -/
def Closed (u : Text) : Prop :=
  ∀ t, Markup.closeTag none (u ++ t) = (Markup.closeTag none t).map (Prod.map (u ++ ·) id)

theorem closed_nil : Closed [] := by
  intro t
  rw [List.nil_append]
  cases Markup.closeTag none t <;> rfl

theorem Closed.append {u v : Text} (hu : Closed u) (hv : Closed v) : Closed (u ++ v) := by
  intro t
  rw [List.append_assoc, hu, hv]
  cases Markup.closeTag none t with
  | error fault => rfl
  | ok found =>
    show Except.ok (u ++ (v ++ found.1), found.2) = Except.ok (u ++ v ++ found.1, found.2)
    rw [List.append_assoc]

theorem closed_singleton {c : Char} (hq : isQuote c = false) (hc : c ≠ '>') : Closed [c] := by
  intro t
  have quote : Doctype.quoteAfter none c = none := by simp [Doctype.quoteAfter, hq]
  rw [List.singleton_append, Markup.closeTag, quote]
  simp only [hc, decide_false, Bool.and_false, Bool.false_eq_true, if_false]
  cases Markup.closeTag none t <;> rfl

theorem closed_of_forall {u : Text} (h : ∀ c ∈ u, isQuote c = false ∧ c ≠ '>') : Closed u := by
  induction u with
  | nil => exact closed_nil
  | cons c u ih =>
    rw [List.forall_mem_cons] at h
    exact (closed_singleton h.1.1 h.1.2).append (ih h.2)

theorem IsWord.closed (h : IsWord name) : Closed name :=
  closed_of_forall fun c hc => ⟨h.forall_eq_false (fun _ => isLetter_of_isQuote) c hc,
    ne_of_isLetter (h.2 c hc) (by decide)⟩

theorem closeTag_quoted {value : Text} (h : ∀ c ∈ value, c ≠ quote) (t : Text) :
    Markup.closeTag (some quote) (value ++ quote :: t) =
      (Markup.closeTag none t).map (Prod.map (value ++ quote :: ·) id) := by
  induction value with
  | nil =>
    rw [List.nil_append, Markup.closeTag]
    simp only [reduceCtorEq, decide_false, Bool.false_and, Bool.false_eq_true, if_false,
      Doctype.quoteAfter, if_true]
    cases Markup.closeTag none t <;> rfl
  | cons c value ih =>
    rw [List.forall_mem_cons] at h
    rw [List.cons_append, Markup.closeTag]
    simp only [reduceCtorEq, decide_false, Bool.false_and, Bool.false_eq_true, if_false,
      Doctype.quoteAfter, if_neg h.1, ih h.2]
    cases Markup.closeTag none t <;> rfl

theorem closed_quoted (hq : isQuote quote = true) (value : Text) :
    Closed (quote :: escape value ++ [quote]) := by
  intro t
  have inside : ∀ c ∈ escape value, c ≠ quote := ne_quote_of_mem_escape hq
  have angle : quote ≠ '>' := by
    rintro rfl
    exact absurd hq (by decide)
  have quoted : Doctype.quoteAfter none quote = some quote := by simp [Doctype.quoteAfter, hq]
  rw [List.append_assoc, List.singleton_append, List.cons_append, Markup.closeTag, quoted]
  simp only [angle, decide_false, Bool.and_false, Bool.false_eq_true, if_false, closeTag_quoted inside]
  cases Markup.closeTag none t with
  | error fault => rfl
  | ok found =>
    show Except.ok (_, found.2) = Except.ok (quote :: escape value ++ [quote] ++ found.1, found.2)
    rw [List.append_assoc]
    rfl

theorem closed_content (hq : isQuote quote = true) (hname : IsWord name) (keyed : Keyed as) :
    Closed (content quote name as) := by
  refine hname.closed.append ?_
  have words := keyed.words
  clear keyed
  induction as with
  | nil => exact closed_nil
  | cons a as ih =>
    rw [List.map_cons, List.forall_mem_cons] at words
    have shape : written quote a =
        [' '] ++ a.1 ++ ['='] ++ (quote :: escape a.2 ++ [quote]) := by simp [written]
    rw [List.flatMap_cons, shape]
    exact ((((closed_singleton (by decide) (by decide)).append words.1.closed).append
      (closed_singleton (by decide) (by decide))).append (closed_quoted hq a.2)).append (ih words.2)

/-- A tag ends at the first angle behind closed text. -/
theorem Closed.closeTag_angle {u : Text} (h : Closed u) (rest : Text) :
    Markup.closeTag none (u ++ '>' :: rest) = .ok (u, rest) := by
  rw [h]
  show Except.ok (u ++ [], rest) = Except.ok (u, rest)
  rw [List.append_nil]

end Content

end DeclGen.Xml
