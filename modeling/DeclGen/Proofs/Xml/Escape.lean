import DeclGen.Xml.Markup
import DeclGen.Xml.Escape

/-!
# Escaped text

Escaping writes the five characters that have a meaning in markup as references. It is undone by reading,
whatever the text is, and leaves neither quotes nor the start of a tag.

* `escape` : a text with references for angles, ampersands and quotes;
* `Unescapes` : a text and what is left of it once its references are resolved; `unescape_escape` : escaped
  text is read back, `decodeText_escape` : as the content of an element, too;
* `Escaped` : text without tags, in which ampersands start references; `escaped_escape`;
* `isQuote_of_mem_escape` : escaped text can stand in quotes.
-/

namespace DeclGen.Xml

/-- A character, or the reference for it if it has a meaning in markup. -/
def escapeChar (c : Char) : Text :=
  match predefined.find? (·.2 = c) with
  | some (name, _) => '&' :: name ++ [';']
  | none => [c]

/-- A text with references for the characters that have a meaning in markup. -/
def escape (t : Text) : Text := t.flatMap escapeChar

@[simp] theorem escape_nil : escape [] = [] := rfl

@[simp] theorem escape_cons (c : Char) (t : Text) : escape (c :: t) = escapeChar c ++ escape t :=
  List.flatMap_cons

theorem escapeChar_cases (c : Char) :
    (∃ name, (name, c) ∈ predefined ∧ escapeChar c = '&' :: name ++ [';']) ∨
      (∀ p ∈ predefined, p.2 ≠ c) ∧ escapeChar c = [c] := by
  cases hp : predefined.find? (·.2 = c) with
  | none =>
    refine Or.inr ⟨fun p hm => ?_, by rw [escapeChar, hp]⟩
    simpa using List.find?_eq_none.1 hp p hm
  | some p =>
    obtain ⟨name, d⟩ := p
    obtain rfl : d = c := by simpa using List.find?_some hp
    exact Or.inl ⟨name, List.mem_of_find?_eq_some hp, by rw [escapeChar, hp]⟩

/-- The names of the predefined entities consist of letters that end neither references nor values. -/
theorem plain_of_mem_predefined : ∀ p ∈ predefined, ∀ c ∈ p.1,
    Markup.endsReference c = false ∧ isQuote c = false := by
  have all : ∀ p ∈ predefined, (p.1.all fun c => !Markup.endsReference c && !isQuote c) = true := by
    decide
  intro p hp c hc
  simpa using List.all_eq_true.1 (all p hp) c hc

theorem resolve_predefined (start : Nat) : ∀ p ∈ predefined, resolve start p.1 = .ok p.2 := by
  simp only [predefined, List.forall_mem_cons]
  exact ⟨rfl, rfl, rfl, rfl, rfl, fun _ h => absurd h (by simp)⟩

/-! ## Resolving references -/

/-- Wherever the text stands, `u` is left of it once its references are resolved. -/
def Unescapes (t u : Text) : Prop := ∀ total offset, unescapeFrom total offset none t = .ok u

theorem unescapes_nil : Unescapes [] [] := fun _ _ => rfl

theorem Unescapes.cons {t u : Text} {c : Char} (h : Unescapes t u) (hc : c ≠ '&') :
    Unescapes (c :: t) (c :: u) := by
  intro total offset
  simp only [unescapeFrom, if_neg hc, h total]
  rfl

theorem unescapeFrom_name {t u name : Text} {c : Char} (h : Unescapes t u)
    (hname : ∀ d ∈ name, Markup.endsReference d = false) (total start : Nat) :
    ∀ (seen : Text) (offset : Nat), resolve (start + 1) (seen.reverse ++ name) = .ok c →
      unescapeFrom total offset (some (start, seen)) (name ++ ';' :: t) = .ok (c :: u) := by
  induction name with
  | nil =>
    intro seen offset hr
    rw [List.append_nil] at hr
    simp only [List.nil_append, unescapeFrom, hr, h total]
    rfl
  | cons d name ih =>
    intro seen offset hr
    rw [List.forall_mem_cons] at hname
    obtain ⟨hd, hname⟩ := hname
    simp only [Markup.endsReference, Bool.or_eq_false_iff, decide_eq_false_iff_not] at hd
    have next := ih hname (d :: seen) (offset + d.utf8Size) (by simpa using hr)
    simpa only [List.cons_append, unescapeFrom, if_neg hd.1.1, if_neg hd.1.2] using next

theorem Unescapes.reference {t u name : Text} {c : Char} (h : Unescapes t u)
    (hname : ∀ d ∈ name, Markup.endsReference d = false) (hr : ∀ start, resolve start name = .ok c) :
    Unescapes ('&' :: name ++ ';' :: t) (c :: u) := by
  intro total offset
  simp only [List.cons_append, unescapeFrom, if_pos]
  exact unescapeFrom_name h hname total offset [] _ (hr _)

theorem unescapes_escape (t : Text) : Unescapes (escape t) t := by
  induction t with
  | nil => exact unescapes_nil
  | cons c t ih =>
    rw [escape_cons]
    rcases escapeChar_cases c with ⟨name, hm, hc⟩ | ⟨hp, hc⟩
    · rw [hc, List.append_assoc, List.singleton_append]
      exact ih.reference (fun d hd => (plain_of_mem_predefined _ hm d hd).1)
        fun start => resolve_predefined start _ hm
    · rw [hc, List.singleton_append]
      exact ih.cons (Ne.symm (hp ("amp".toList, '&') (by decide)))

/-- Escaping is undone by resolving references. -/
theorem unescape_escape (t : Text) : unescape (escape t) = .ok t := unescapes_escape t _ _

/-! ## Text between tags -/

/-- No tag starts in the text, and ampersands start references. -/
inductive Escaped : Text → Prop
  | nil : Escaped []
  | cons {c : Char} {t : Text} (hc : Markup.endsText c = false) (h : Escaped t) : Escaped (c :: t)
  | reference {name t : Text} (hname : ∀ d ∈ name, Markup.endsReference d = false) (h : Escaped t) :
    Escaped ('&' :: name ++ ';' :: t)

theorem escaped_of_forall {t : Text} (h : ∀ c ∈ t, Markup.endsText c = false) : Escaped t := by
  induction t with
  | nil => exact .nil
  | cons c t ih =>
    rw [List.forall_mem_cons] at h
    exact .cons h.1 (ih h.2)

theorem escaped_escape (t : Text) : Escaped (escape t) := by
  induction t with
  | nil => exact .nil
  | cons c t ih =>
    rw [escape_cons]
    rcases escapeChar_cases c with ⟨name, hm, hc⟩ | ⟨hp, hc⟩
    · rw [hc, List.append_assoc, List.singleton_append]
      exact .reference (fun d hd => (plain_of_mem_predefined _ hm d hd).1) ih
    · rw [hc, List.singleton_append]
      refine .cons ?_ ih
      simp only [Markup.endsText, Bool.or_eq_false_iff, decide_eq_false_iff_not]
      exact ⟨Ne.symm (hp ("lt".toList, '<') (by decide)), Ne.symm (hp ("amp".toList, '&') (by decide))⟩

theorem Escaped.dropWhile {t : Text} (h : Escaped t) :
    Escaped (t.dropWhile (!Markup.endsText ·)) := by
  induction h with
  | nil => exact .nil
  | @cons c t hc h ih =>
    rw [List.dropWhile_cons_of_pos (by rw [hc]; rfl)]
    exact ih
  | @reference name t hname h _ => exact .reference hname h

theorem Escaped.notMem {t : Text} (h : Escaped t) : '<' ∉ t := by
  induction h with
  | nil => exact List.not_mem_nil
  | @cons c t hc _ ih =>
    rw [List.mem_cons, not_or]
    refine ⟨?_, ih⟩
    rintro rfl
    exact absurd hc (by decide)
  | @reference name t hname _ ih =>
    rw [List.cons_append, List.mem_cons, List.mem_append, List.mem_cons]
    rintro (h | h | h | h)
    · exact absurd h (by decide)
    · exact absurd (hname _ h) (by decide)
    · exact absurd h (by decide)
    · exact ih h

theorem isQuote_of_mem_escape {t : Text} : ∀ c ∈ escape t, isQuote c = false := by
  induction t with
  | nil => exact fun c hc => absurd hc List.not_mem_nil
  | cons d t ih =>
    intro c hc
    rw [escape_cons, List.mem_append] at hc
    refine hc.elim (fun hc => ?_) (ih c)
    rcases escapeChar_cases d with ⟨name, hm, hd⟩ | ⟨hp, hd⟩
    · rw [hd, List.cons_append, List.mem_cons, List.mem_append, List.mem_singleton] at hc
      rcases hc with rfl | hc | rfl
      · decide
      · exact (plain_of_mem_predefined _ hm c hc).2
      · decide
    · rw [hd, List.mem_singleton] at hc
      subst hc
      simp only [isQuote, Bool.or_eq_false_iff, decide_eq_false_iff_not]
      exact ⟨Ne.symm (hp ("quot".toList, '"') (by decide)), Ne.symm (hp ("apos".toList, '\'') (by decide))⟩

/-! ## The content of elements -/

theorem cut?_eq_none_of_notMem {c : Char} {part t : Text} (h : c ∉ t) :
    Text.cut? (c :: part) t = none := by
  induction t with
  | nil => rfl
  | cons d t ih =>
    rw [List.mem_cons, not_or] at h
    rw [Text.cut?, ih h.2]
    simp only [Text.after?, if_neg h.1, Option.map_none]

/-- Without a start of a section there are only references to resolve. -/
theorem decodeText_of_plain {t : Text} (plain : Text.cut? cdataStart t = none) : decodeText t = unescapePiece t := by
  unfold decodeText
  cases t.length with
  | zero => rfl
  | succ fuel => simp only [decodeFrom, plain]

theorem decodeText_escape (t : Text) : decodeText (escape t) = .ok t := by
  have plain : Text.cut? cdataStart (escape t) = none :=
    cut?_eq_none_of_notMem (escaped_escape t).notMem
  rw [decodeText_of_plain plain, unescapePiece, unescape_escape]

end DeclGen.Xml
