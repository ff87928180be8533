import DeclGen.Proofs.Xml.Tag

/-!
# Reading written markup

Written markup is read piece by piece, whatever follows it.

* `readIn` : the pieces of a text inside open elements; `readIn_of_next` : the first piece and the others;
* `next_opening`, `next_selfClosing`, `next_closing` : tags are read as they were written;
* `exists_sources` : escaped text before a tag is read as pieces without meaning that make up the text.
-/

namespace DeclGen.Xml.Markup

/-- What is read before a reading. -/
def Reading.prepend (pieces : List Markup) (r : Reading) : Reading := ⟨pieces ++ r.pieces, r.fault⟩

theorem Reading.prepend_append (pieces pieces' : List Markup) (r : Reading) :
    r.prepend (pieces ++ pieces') = (r.prepend pieces').prepend pieces := by
  simp [Reading.prepend]

/-- The pieces of a text inside the open elements. -/
def readIn (opened : List Text) (t : Text) : Reading := readFrom t.length opened t

theorem readFrom_eq {fuel : Nat} :
    ∀ {fuel' : Nat} {opened : List Text} {t : Text}, t.length ≤ fuel → t.length ≤ fuel' →
      readFrom fuel opened t = readFrom fuel' opened t := by
  induction fuel with
  | zero =>
    intro fuel' opened t h _
    obtain rfl := List.eq_nil_of_length_eq_zero (Nat.le_zero.1 h)
    cases fuel' <;> rfl
  | succ fuel ih =>
    intro fuel' opened t h h'
    cases t with
    | nil => cases fuel' <;> rfl
    | cons c t =>
      obtain ⟨fuel', rfl⟩ := Nat.exists_eq_succ_of_ne_zero (Nat.ne_zero_of_lt h')
      rw [readFrom, readFrom]
      cases hn : next (c :: t) with
      | error fault => rfl
      | ok found =>
        obtain ⟨piece, rest⟩ := found
        have shorter := (starts_of_next hn).2
        have enough : rest.length ≤ fuel := by omega
        have enough' : rest.length ≤ fuel' := by omega
        simp only [ih enough enough']

theorem readIn_of_next {opened opened' : List Text} {c : Char} {t rest : Text} {piece : Markup}
    (hn : next (c :: t) = .ok (piece, rest)) (ho : nest opened piece = .ok opened') :
    readIn opened (c :: t) = (readIn opened' rest).prepend [piece] := by
  have shorter := (starts_of_next hn).2
  have enough : rest.length ≤ t.length := Nat.le_of_lt_succ shorter
  show readFrom (t.length + 1) opened (c :: t) = _
  rw [readFrom, hn]
  simp only [ho, readFrom_eq enough (Nat.le_refl _)]
  rfl

/-! ## Tags -/

section Tags
variable {quote : Char} {name : Text} {as : List Attribute}

theorem getLast?_content (hq : isQuote quote = true) (hname : IsWord name) :
    ∀ c ∈ (content quote name as).getLast?, c ≠ '/' := by
  rcases List.eq_nil_or_concat as with rfl | ⟨front, a, rfl⟩
  · intro c hc
    rw [content, List.flatMap_nil, List.append_nil] at hc
    exact ne_of_isLetter (hname.2 c (List.mem_of_mem_getLast? hc)) (by decide)
  · intro c hc
    have shape : content quote name (front ++ [a]) =
        name ++ front.flatMap (written quote) ++ (' ' :: a.1 ++ '=' :: quote :: escape a.2) ++ [quote] := by
      simp [content, written]
    rw [List.concat_eq_append, shape, List.getLast?_concat] at hc
    obtain rfl := Option.some.inj hc
    rintro rfl
    exact absurd hq (by decide)

/-- A tag starts like no other markup. -/
theorem next_content (hname : IsWord name) (rest : Text) :
    next ('<' :: content quote name as ++ rest) = tag (content quote name as ++ rest) := by
  obtain ⟨c, word, rfl⟩ := List.exists_cons_of_ne_nil hname.1
  have letter := hname.2 c List.mem_cons_self
  have h1 := ne_of_isLetter letter (d := '!') (by decide)
  have h2 := ne_of_isLetter letter (d := '/') (by decide)
  have h3 := ne_of_isLetter letter (d := '?') (by decide)
  show next ('<' :: c :: (word ++ as.flatMap (written quote) ++ rest)) =
    tag (c :: (word ++ as.flatMap (written quote) ++ rest))
  simp [next, h1, h2, h3]

variable (hq : isQuote quote = true) (hname : IsWord name) (keyed : Keyed as)
include hq hname keyed

theorem next_opening (rest : Text) :
    next ('<' :: content quote name as ++ '>' :: rest) =
      .ok (opening (content quote name as), rest) := by
  have last : ¬ (content quote name as).getLast? = some '/' :=
    fun h => getLast?_content hq hname '/' h rfl
  rw [next_content hname, tag, (closed_content hq hname keyed).closeTag_angle, ok_bind]
  simp only [if_neg last]
  rfl

theorem next_selfClosing (rest : Text) :
    next ('<' :: content quote name as ++ '/' :: '>' :: rest) =
      .ok (selfClosing (content quote name as), rest) := by
  have slash : Closed ['/'] := closed_singleton (by decide) (by decide)
  have found := ((closed_content hq hname keyed).append slash).closeTag_angle rest
  rw [List.append_assoc] at found
  rw [next_content hname, tag, show '/' :: '>' :: rest = ['/'] ++ '>' :: rest from rfl, found, ok_bind]
  simp only [List.getLast?_concat, if_true, List.dropLast_concat]
  rfl

omit hq keyed in
theorem next_closing (rest : Text) :
    next ('<' :: '/' :: name ++ '>' :: rest) = .ok (closing name, rest) := by
  show closingTag (name ++ '>' :: rest) = _
  rw [closingTag, hname.closed.closeTag_angle, ok_bind]
  rfl

omit hq keyed in
theorem nest_opening (opened : List Text) :
    nest opened (opening (content quote name as)) = .ok (name :: opened) := by
  rw [nest, tagName_content hname]

omit hq keyed in
theorem nest_closing (opened : List Text) : nest (name :: opened) (closing name) = .ok opened := by
  simp only [nest, endName_eq_self hname, if_true]

end Tags

/-! ## Text between tags -/

theorem next_text {c : Char} (hc : endsText c = false) (t : Text) :
    next (c :: t) = .ok (inert (c :: t.takeWhile (!endsText ·)), t.dropWhile (!endsText ·)) := by
  have angle : c ≠ '<' := by rintro rfl; exact absurd hc (by decide)
  have ampersand : c ≠ '&' := by rintro rfl; exact absurd hc (by decide)
  unfold next
  split
  · next h => exact absurd (List.head_eq_of_cons_eq h) angle
  · next h => exact absurd (List.head_eq_of_cons_eq h) ampersand
  · rw [List.takeWhile_cons_of_pos (by rw [hc]; rfl), List.dropWhile_cons_of_pos (by rw [hc]; rfl)]

theorem inertUpTo_append (before rest : Text) : inertUpTo (before ++ rest) rest = inert before := by
  rw [inertUpTo, List.length_append, Nat.add_sub_cancel, List.take_left]

/-- Escaped text before a tag is read as pieces without meaning. -/
theorem exists_sources {t : Text} (h : Escaped t) :
    ∃ sources : List Text, sources.flatten = t ∧ ∀ opened rest,
      readIn opened (t ++ '<' :: rest) =
        (readIn opened ('<' :: rest)).prepend (sources.map inert) := by
  -- A run of text takes many characters at once, so the induction is on the length.
  induction hn : t.length using Nat.strong_induction_on generalizing t with
  | _ n ih =>
    subst hn
    cases h with
    | nil => exact ⟨[], rfl, fun _ _ => rfl⟩
    | @cons c t hc h =>
      have shorter := (List.dropWhile_suffix (l := t) (!endsText ·)).length_le
      obtain ⟨sources, hs, hr⟩ := ih (t.dropWhile (!endsText ·)).length (Nat.lt_succ_of_le shorter)
        h.dropWhile rfl
      refine ⟨(c :: t.takeWhile (!endsText ·)) :: sources, ?_, fun opened rest => ?_⟩
      · rw [List.flatten_cons, hs, List.cons_append, List.takeWhile_append_dropWhile]
      · have run : next (c :: (t ++ '<' :: rest)) =
            .ok (inert (c :: t.takeWhile (!endsText ·)), t.dropWhile (!endsText ·) ++ '<' :: rest) := by
          rw [next_text hc, Text.takeWhile_append_cons (by decide), Text.dropWhile_append_cons (by decide)]
        rw [List.cons_append, readIn_of_next run rfl, hr, ← Reading.prepend_append]
        rfl
    | @reference name t hname h =>
      have shorter : t.length < ('&' :: name ++ ';' :: t).length := by
        simp only [List.length_cons, List.length_append]
        omega
      obtain ⟨sources, hs, hr⟩ := ih t.length shorter h rfl
      refine ⟨('&' :: name ++ [';']) :: sources, ?_, fun opened rest => ?_⟩
      · rw [List.flatten_cons, hs, List.append_assoc, List.singleton_append]
      · have run : next ('&' :: (name ++ ';' :: (t ++ '<' :: rest))) =
            .ok (inert ('&' :: name ++ [';']), t ++ '<' :: rest) := by
          have inside : ∀ d ∈ name, (!endsReference d) = true := fun d hd => by rw [hname d hd]; rfl
          show reference (name ++ ';' :: (t ++ '<' :: rest)) = _
          rw [reference, Text.dropWhile_append_cons (by decide), List.dropWhile_eq_nil_iff.2 inside]
          show Except.ok (inertUpTo ('&' :: (name ++ ';' :: (t ++ '<' :: rest))) _, _) = _
          rw [← inertUpTo_append ('&' :: name ++ [';']), List.append_assoc]
          rfl
        rw [List.append_assoc, List.cons_append, List.cons_append, readIn_of_next run rfl, hr,
          ← Reading.prepend_append]
        rfl

end DeclGen.Xml.Markup
