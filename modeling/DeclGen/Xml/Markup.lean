import DeclGen.Xml.Doctype

/-!
# The markup of a document

* `Markup` : a piece of a document: a tag, or something without meaning for entities;
* `Markup.source` : the text of a piece;
* `Markup.next` : the first piece of a text and what follows it; `Markup.starts_of_next` : together they
  are the text;
* `Markup.nest` : the names of the open elements after a piece;
* `Markup.read` : the pieces of a document up to what is wrong with it; `Markup.flatMap_source_read` :
  without a fault they are the document.
-/

namespace DeclGen.Xml

/-- A piece of a document. -/
inductive Markup where
  /-- Text, a reference, a comment, an instruction, a CDATA section or a document type. -/
  | inert (source : Text)
  /-- A start tag with the given content. -/
  | opening (content : Text)
  /-- An element without content: the tag's content up to the closing slash. -/
  | selfClosing (content : Text)
  /-- An end tag: all that stands before its closing angle. -/
  | closing (content : Text)
  deriving DecidableEq, Repr

namespace Markup

/-- The text of a piece. -/
def source : Markup → Text
  | inert source => source
  | opening content => '<' :: content ++ ['>']
  | selfClosing content => '<' :: content ++ ['/', '>']
  | closing content => '<' :: '/' :: content ++ ['>']

/-- The name in an end tag: blanks after it do not count, but blanks alone are a name. -/
def endName (content : Text) : Text :=
  if content.all isSpace then content else (content.reverse.dropWhile isSpace).reverse

/-! ## One piece -/

/-- A piece of a text and what follows it. -/
abbrev Step := Except Fault (Markup × Text)

/-- The piece made of all of `t` that precedes `rest`. -/
def inertUpTo (t rest : Text) : Markup := inert (t.take (t.length - rest.length))

/-- What stands before the angle that closes a tag, and what follows it; `quote` is the quote that
is open. Angles in quotes do not close a tag. -/
def closeTag (quote : Option Char) : Text → Except Fault (Text × Text)
  | [] =>
    match quote with
    | none => .error (.unclosed .tag)
    | some q => .error (.unclosed (if q = '\'' then .singleQuoted else .doubleQuoted))
  | c :: t =>
    if quote = none && c = '>' then .ok ([], t)
    else do
      let (content, rest) ← closeTag (Doctype.quoteAfter quote c) t
      return (c :: content, rest)

/-- A tag, after its opening angle. -/
def tag (t : Text) : Step := do
  let (content, rest) ← closeTag none t
  if content.getLast? = some '/' then return (selfClosing content.dropLast, rest)
  else return (opening content, rest)

/-- An end tag, after its slash. -/
def closingTag (t : Text) : Step := do
  let (content, rest) ← closeTag none t
  return (closing content, rest)

/-- An instruction; `t` starts after `<?`. -/
def instruction (t : Text) : Step :=
  match Text.cut? "?>".toList ('?' :: t) with
  | some ([], _) => .error (.unclosed .instruction)
  | some (_, rest) => .ok (inertUpTo ('<' :: '?' :: t) rest, rest)
  | none =>
    match Text.after? "xml".toList t with
    | some [] => .error (.unclosed .declaration)
    | some (c :: _) =>
      .error (.unclosed (if isSpace c || c = '?' then .declaration else .instruction))
    | none => .error (.unclosed .instruction)

/-- A CDATA section; `t` starts after `<!`. -/
def cdata (t : Text) : Step :=
  match Text.cut? "]]>".toList t with
  | some (_, rest) =>
    if "[CDATA[".toList.isPrefixOf t then .ok (inertUpTo ('<' :: '!' :: t) rest, rest)
    else .error (.unclosed .cdata)
  | none => .error (.unclosed .cdata)

/-- A comment; `t` starts after `<!`. The dashes of its end are not those of its start. -/
def comment (t : Text) : Step :=
  match Text.cut? "-->".toList (t.drop 2) with
  | some (_, rest) =>
    if "--".toList.isPrefixOf t then .ok (inertUpTo ('<' :: '!' :: t) rest, rest)
    else .error (.unclosed .comment)
  | none => .error (.unclosed .comment)

/-- A document type; `t` starts after `<!`. -/
def doctype (t : Text) : Step :=
  match Doctype.close? (.outer none) t with
  | none => .error (.unclosed .doctype)
  | some (content, rest) =>
    if (content.take 7).map Char.toUpper = "DOCTYPE".toList then
      if (content.drop 7).all isSpace then .error (.illFormed .namelessDoctype)
      else .ok (inertUpTo ('<' :: '!' :: t) rest, rest)
    else .error (.unclosed .doctype)

/-- Markup that starts with `<!`; `t` starts after it. -/
def declaration (t : Text) : Step :=
  match t with
  | '[' :: _ => cdata t
  | '-' :: _ => comment t
  | 'D' :: _ => doctype t
  | 'd' :: _ => doctype t
  | _ => .error (.unclosed .unknownMarkup)

/-- Does the character end the name of a reference? -/
def endsReference (c : Char) : Bool := c = ';' || c = '&' || c = '<'

/-- A reference, after its ampersand. It is not resolved: between elements it means nothing, and the
content of elements is decoded later. -/
def reference (t : Text) : Step :=
  match t.dropWhile (!endsReference ·) with
  | ';' :: rest => .ok (inertUpTo ('&' :: t) rest, rest)
  | _ => .error (.illFormed .unclosedReference)

/-- Does the character end a run of text? -/
def endsText (c : Char) : Bool := c = '<' || c = '&'

/-- The first piece of a nonempty text and what follows it. -/
def next (t : Text) : Step :=
  match t with
  | '<' :: t =>
    match t with
    | [] => .error (.unclosed .tag)
    | '!' :: t => declaration t
    | '/' :: t => closingTag t
    | '?' :: t => instruction t
    | t => tag t
  | '&' :: t => reference t
  | t => .ok (inert (t.takeWhile (!endsText ·)), t.dropWhile (!endsText ·))

/-! ## Pieces and the text -/

/-- The piece is not empty and stands at the start of `t`, before `rest`. -/
def Starts (t : Text) (piece : Markup) (rest : Text) : Prop :=
  piece.source ++ rest = t ∧ rest.length < t.length

theorem starts_inertUpTo {c : Char} {t rest : Text} (h : rest <:+ t) :
    Starts (c :: t) (inertUpTo (c :: t) rest) rest := by
  obtain ⟨before, rfl⟩ := h
  refine ⟨?_, by simp only [List.length_cons, List.length_append]; omega⟩
  have size : (c :: (before ++ rest)).length - rest.length = (c :: before).length := by
    simp only [List.length_cons, List.length_append]; omega
  rw [inertUpTo, size, ← List.cons_append, List.take_left]
  rfl

theorem eq_append_of_closeTag {quote : Option Char} {t content rest : Text}
    (h : closeTag quote t = .ok (content, rest)) : t = content ++ '>' :: rest := by
  induction t generalizing quote content with
  | nil => unfold closeTag at h; split at h <;> simp at h
  | cons c t ih =>
    rw [closeTag] at h
    split at h
    · next closes => simp_all
    · cases hc : closeTag (Doctype.quoteAfter quote c) t with
      | error fault => simp [hc, bind, Except.bind] at h
      | ok found =>
        obtain ⟨inside, after⟩ := found
        simp only [hc, bind, Except.bind, pure, Except.pure, Except.ok.injEq, Prod.mk.injEq] at h
        obtain ⟨rfl, rfl⟩ := h
        simp [ih hc]

theorem starts_of_tag {t rest : Text} {piece : Markup} (h : tag t = .ok (piece, rest)) :
    Starts ('<' :: t) piece rest := by
  unfold tag at h
  cases hc : closeTag none t with
  | error fault => simp [hc, bind, Except.bind] at h
  | ok found =>
    obtain ⟨content, after⟩ := found
    rw [eq_append_of_closeTag hc]
    simp only [hc, bind, Except.bind, pure, Except.pure] at h
    split at h
    · next slash =>
      simp only [Except.ok.injEq, Prod.mk.injEq] at h
      obtain ⟨rfl, rfl⟩ := h
      obtain ⟨before, rfl⟩ := List.getLast?_eq_some_iff.1 slash
      exact ⟨by simp [source], by simp only [List.length_cons, List.length_append]; omega⟩
    · simp only [Except.ok.injEq, Prod.mk.injEq] at h
      obtain ⟨rfl, rfl⟩ := h
      exact ⟨by simp [source], by simp only [List.length_cons, List.length_append]; omega⟩

theorem starts_of_closingTag {t rest : Text} {piece : Markup}
    (h : closingTag t = .ok (piece, rest)) : Starts ('<' :: '/' :: t) piece rest := by
  unfold closingTag at h
  cases hc : closeTag none t with
  | error fault => simp [hc, bind, Except.bind] at h
  | ok found =>
    obtain ⟨content, after⟩ := found
    rw [eq_append_of_closeTag hc]
    simp only [hc, bind, Except.bind, pure, Except.pure, Except.ok.injEq, Prod.mk.injEq] at h
    obtain ⟨rfl, rfl⟩ := h
    exact ⟨by simp [source], by simp only [List.length_cons, List.length_append]; omega⟩

theorem starts_of_instruction {t rest : Text} {piece : Markup}
    (h : instruction t = .ok (piece, rest)) : Starts ('<' :: '?' :: t) piece rest := by
  unfold instruction at h
  split at h
  · simp at h
  · next cut =>
    simp only [Except.ok.injEq, Prod.mk.injEq] at h
    obtain ⟨rfl, rfl⟩ := h
    exact starts_inertUpTo ⟨_, (Text.eq_append_of_cut? cut).symm⟩
  · split at h <;> simp at h

theorem starts_of_cdata {t rest : Text} {piece : Markup} (h : cdata t = .ok (piece, rest)) :
    Starts ('<' :: '!' :: t) piece rest := by
  unfold cdata at h
  split at h
  · next cut =>
    split at h
    · simp only [Except.ok.injEq, Prod.mk.injEq] at h
      obtain ⟨rfl, rfl⟩ := h
      exact starts_inertUpTo (List.IsSuffix.trans ⟨_, (Text.eq_append_of_cut? cut).symm⟩
        (List.suffix_cons _ _))
    · simp at h
  · simp at h

theorem starts_of_comment {t rest : Text} {piece : Markup} (h : comment t = .ok (piece, rest)) :
    Starts ('<' :: '!' :: t) piece rest := by
  unfold comment at h
  split at h
  · next cut =>
    split at h
    · simp only [Except.ok.injEq, Prod.mk.injEq] at h
      obtain ⟨rfl, rfl⟩ := h
      exact starts_inertUpTo (List.IsSuffix.trans ⟨_, (Text.eq_append_of_cut? cut).symm⟩
        ((List.drop_suffix _ _).trans (List.suffix_cons _ _)))
    · simp at h
  · simp at h

theorem starts_of_doctype {t rest : Text} {piece : Markup} (h : doctype t = .ok (piece, rest)) :
    Starts ('<' :: '!' :: t) piece rest := by
  unfold doctype at h
  split at h
  · simp at h
  · next content after closed =>
    have after_suffix : after <:+ t := by
      rw [Doctype.eq_append_of_close? closed]
      exact (List.suffix_cons _ _).trans (List.suffix_append _ _)
    split at h
    · split at h
      · simp at h
      · simp only [Except.ok.injEq, Prod.mk.injEq] at h
        obtain ⟨rfl, rfl⟩ := h
        exact starts_inertUpTo (after_suffix.trans (List.suffix_cons _ _))
    · simp at h

theorem starts_of_declaration {t rest : Text} {piece : Markup}
    (h : declaration t = .ok (piece, rest)) : Starts ('<' :: '!' :: t) piece rest := by
  unfold declaration at h
  split at h
  · exact starts_of_cdata h
  · exact starts_of_comment h
  · exact starts_of_doctype h
  · exact starts_of_doctype h
  · simp at h

theorem starts_of_reference {t rest : Text} {piece : Markup}
    (h : reference t = .ok (piece, rest)) : Starts ('&' :: t) piece rest := by
  unfold reference at h
  split at h
  · next after found =>
    simp only [Except.ok.injEq, Prod.mk.injEq] at h
    obtain ⟨rfl, rfl⟩ := h
    exact starts_inertUpTo
      ((List.suffix_cons ';' after).trans (found ▸ List.dropWhile_suffix _))
  · simp at h

/-- A piece is a nonempty start of the text that it is read from. -/
theorem starts_of_next {c : Char} {t rest : Text} {piece : Markup}
    (h : next (c :: t) = .ok (piece, rest)) : Starts (c :: t) piece rest := by
  unfold next at h
  split at h
  · next opened =>
    rw [opened]
    split at h
    · simp at h
    · exact starts_of_declaration h
    · exact starts_of_closingTag h
    · exact starts_of_instruction h
    · exact starts_of_tag h
  · next opened => rw [opened]; exact starts_of_reference h
  · next noAngle noAmpersand =>
    have plain : endsText c = false := by
      simp only [endsText, Bool.or_eq_false_iff, decide_eq_false_iff_not]
      exact ⟨fun hc => noAngle t (by rw [hc]), fun hc => noAmpersand t (by rw [hc])⟩
    simp only [Except.ok.injEq, Prod.mk.injEq] at h
    obtain ⟨rfl, rfl⟩ := h
    have shorter := (List.dropWhile_suffix (l := t) (!endsText ·)).length_le
    refine ⟨by simp [source], ?_⟩
    simp only [List.dropWhile_cons, plain, Bool.not_false, if_true, List.length_cons]
    omega

/-! ## Nesting -/

/-- The names of the open elements after a piece, the innermost first. -/
def nest (opened : List Text) : Markup → Except Fault (List Text)
  | inert _ => .ok opened
  | opening content => .ok (tagName content :: opened)
  | selfClosing _ => .ok opened
  | closing content =>
    let name := endName content
    match opened with
    | [] => .error (.illFormed (.unmatchedEndTag name))
    | expected :: outer =>
      if name = expected then .ok outer
      else .error (.illFormed (.mismatchedEndTag expected name))

/-- The pieces of a document up to what is wrong with it, if anything is. -/
structure Reading where
  pieces : List Markup
  fault : Option Fault

/-- Reads pieces inside the open elements; `fuel` is at least the length of the text. -/
def readFrom : (fuel : Nat) → (opened : List Text) → Text → Reading
  | _, _, [] => ⟨[], none⟩
  | 0, _, _ :: _ => ⟨[], none⟩
  | fuel + 1, opened, c :: t =>
    match next (c :: t) with
    | .error fault => ⟨[], some fault⟩
    | .ok (piece, rest) =>
      match nest opened piece with
      | .error fault => ⟨[], some fault⟩
      | .ok opened =>
        let more := readFrom fuel opened rest
        ⟨piece :: more.pieces, more.fault⟩

/-- The pieces of a document. -/
def read (t : Text) : Reading := readFrom t.length [] t

/-- The pieces of a document in which nothing is wrong are the document. -/
theorem flatMap_source_read {t : Text} (h : (read t).fault = none) :
    (read t).pieces.flatMap source = t := by
  have go (fuel : Nat) (opened : List Text) (t : Text) (hf : t.length ≤ fuel)
      (h : (readFrom fuel opened t).fault = none) :
      (readFrom fuel opened t).pieces.flatMap source = t := by
    induction fuel generalizing opened t with
    | zero =>
      obtain rfl := List.eq_nil_of_length_eq_zero (Nat.le_zero.1 hf)
      simp [readFrom]
    | succ fuel ih =>
      cases t with
      | nil => simp [readFrom]
      | cons c t =>
        rw [readFrom] at h ⊢
        split at h
        · simp at h
        · next piece rest hn =>
          simp only at h ⊢
          have starts := starts_of_next hn
          split at h
          · simp at h
          · next opened hopen =>
            rw [List.flatMap_cons, ih opened rest (by have := starts.2; simp at hf this; omega) h,
              starts.1]
  exact go t.length [] t (Nat.le_refl _) h

end Markup

end DeclGen.Xml
