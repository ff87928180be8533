import DeclGen.Proofs.Document.Arrangement

/-!
# Alternative spellings

* `Xml.Markup.Whole.opening` : a tag that closes itself may be written as a start tag;
* `Retagged` : a start tag without one of the attributes;
* `Respelled` : an element without content gets an end tag, the value of a member becomes its text, the annotation
  of a field becomes a child;
* `parse_respelled` : none of this changes the entities of a document.
-/

namespace DeclGen

/-! ## Start tags -/

namespace Xml.Markup

theorem closeTag_nil_ne {quote : Option Char} {found : Text × Text} : closeTag quote [] ≠ .ok found := by
  cases quote <;> simp [closeTag]

theorem closeTag_of_slash {quote : Option Char} {content : Text} (h : quote ≠ some '/')
    (closed : closeTag quote (content ++ ['/', '>']) = .ok (content ++ ['/'], [])) :
    closeTag quote (content ++ ['>']) = .ok (content, []) := by
  induction content generalizing quote with
  | nil =>
    cases quote with
    | none => rfl
    | some q =>
      have other : '/' ≠ q := fun same => h (congrArg some same.symm)
      rw [List.nil_append, closeTag, if_neg (by simp), Doctype.quoteAfter, if_neg other] at closed
      obtain ⟨_, closed, -⟩ := bind_eq_ok_iff.1 closed
      rw [closeTag, if_neg (by simp)] at closed
      obtain ⟨_, closed, -⟩ := bind_eq_ok_iff.1 closed
      exact absurd closed closeTag_nil_ne
  | cons c content ih =>
    rw [List.cons_append, closeTag] at closed ⊢
    split at closed
    · exact absurd closed (by simp)
    · next goes =>
      obtain ⟨⟨inside, rest⟩, found, same⟩ := bind_eq_ok_iff.1 closed
      obtain ⟨here, rfl⟩ := Prod.mk.inj (Except.ok.inj same)
      obtain ⟨-, rfl⟩ := List.cons.inj here
      have quoted : Doctype.quoteAfter quote c ≠ some '/' := by
        unfold Doctype.quoteAfter
        split
        · split
          · simp
          · exact h
        · split
          · next quoted =>
            intro same
            obtain rfl := Option.some.inj same
            exact absurd quoted (by decide)
          · simp
      rw [if_neg goes, ih quoted found]
      rfl

theorem startsTag_of_next {t tag rest : Text} (h : next ('<' :: t) = .ok (.selfClosing tag, rest)) : StartsTag t := by
  cases t with
  | nil => exact absurd h (by simp [next])
  | cons c t =>
    refine ⟨List.cons_ne_nil c t, fun d hd => ?_⟩
    obtain rfl := Option.some.inj hd
    refine ⟨?_, ?_, ?_⟩
    · rintro rfl
      obtain ⟨content, same, -⟩ := declaration_append (t := t) h
      exact absurd same (by simp)
    · rintro rfl
      obtain ⟨content, same, -⟩ := closingTag_append (t := t) h
      exact absurd same (by simp)
    · rintro rfl
      obtain ⟨content, same, -⟩ := instruction_append (t := t) h
      exact absurd same (by simp)

/-- A tag that closes itself is a start tag without the slash, unless it ends with another one. -/
theorem Whole.opening {content : Text} (h : Whole (.selfClosing content)) (last : content.getLast? ≠ some '/') :
    Whole (.opening content) := by
  have found : next ('<' :: (content ++ ['/', '>'])) = .ok (.selfClosing content, []) := h.2
  have starts := startsTag_of_next found
  rw [next_of_startsTag starts, tag] at found
  obtain ⟨⟨inside, rest⟩, closed, same⟩ := bind_eq_ok_iff.1 found
  have slash : inside = content ++ ['/'] ∧ rest = [] := by
    dsimp only at same
    split at same
    · next slash =>
      obtain ⟨piece, rfl⟩ := Prod.mk.inj (Except.ok.inj same)
      obtain ⟨front, rfl⟩ := List.getLast?_eq_some_iff.1 slash
      rw [List.dropLast_concat] at piece
      exact ⟨congrArg (· ++ ['/']) (selfClosing.inj piece), rfl⟩
    · exact absurd (Prod.mk.inj (Except.ok.inj same)).1 (by simp)
  obtain ⟨rfl, rfl⟩ := slash
  obtain ⟨c, word, rfl⟩ : ∃ c word, content = c :: word := by
    cases content with
    | nil => exact absurd rfl (starts.2 '/' rfl).2.1
    | cons c word => exact ⟨c, word, rfl⟩
  have starts' : StartsTag (c :: word ++ ['>']) := ⟨by simp, starts.2⟩
  refine ⟨by simp [source], ?_⟩
  show next ('<' :: (c :: word ++ ['>'])) = _
  rw [next_of_startsTag starts', tag, closeTag_of_slash (by simp) closed, ok_bind]
  exact if_neg last

end Xml.Markup

namespace Document
open Xml (Markup Element Contents Attribute)

variable {σ : Type} {content tag tag' ending key v : Text} {add : σ → Attribute → Except DocumentError σ} {s r : σ}

/-! ## Tags -/

/-- A tag that has to have some attribute does not end with a slash. -/
theorem getLast?_ne_slash {β : Type} {next : σ → Except DocumentError β} {b : β}
    (h : foldAttributes content s add >>= next = .ok b) (missing : next s ≠ .ok b) : content.getLast? ≠ some '/' := by
  obtain ⟨r, added, h⟩ := bind_eq_ok_iff.1 h
  obtain ⟨as, decoded, run⟩ := foldAttributes_eq_ok_iff.1 added
  have some : Xml.attributes content ≠ [] := by
    intro none
    have empty : as = [] := by
      rw [decodedAttributes, none] at decoded
      exact List.map_eq_nil_iff.1 decoded.symm
    subst empty
    obtain rfl := Except.ok.inj run
    exact missing h
  have whole : ∀ a ∈ Xml.attributes content, (Xml.keyOf a).isSome := by
    intro a ha
    have key : Xml.keyOf a ∈ (Xml.attributes content).map Xml.keyOf := List.mem_map_of_mem ha
    rw [map_keyOf decoded] at key
    obtain ⟨b, -, same⟩ := List.mem_map.1 key
    rw [← same]
    rfl
  intro slash
  have shape := List.takeWhile_append_dropWhile (p := (!Xml.isSpace ·)) (l := content)
  have behind : content.dropWhile (!Xml.isSpace ·) ≠ [] := by
    intro none
    apply some
    rw [Xml.attributes, none]
    cases content.length <;> rfl
  have last : '/' ∈ (content.dropWhile (!Xml.isSpace ·)).getLast? := by
    rw [← shape, List.getLast?_append_of_ne_nil _ behind] at slash
    exact slash
  have enough := (List.dropWhile_suffix (l := content) (!Xml.isSpace ·)).length_le
  rcases Xml.getLast?_of_attributesFrom _ _ _ _ enough some whole '/' last with quote | blank
  · exact absurd quote (by decide)
  · exact absurd blank (by decide)

/-- The second tag is a start tag with the name and the attributes of the first but one attribute, and can be
closed. -/
structure Retagged (key tag tag' ending : Text) : Prop where
  start : Markup.Whole (.opening tag')
  stop : Markup.Whole (.closing ending)
  closes : Markup.endName ending = Xml.tagName tag'
  name : elementName tag' = elementName tag
  lacks : Lacks key tag tag'

/-! ## Texts -/

section Texts
variable {content : Contents} {marked : Bool}

/-- Escaped text may stand between elements. -/
theorem isGap_escape (t : Text) : Markup.IsGap (Xml.escape t) := by
  obtain ⟨sources, flat, read⟩ := Markup.exists_sources (Xml.escaped_escape t)
  have known : Markup.readIn [] "<a/>".toList = ⟨[.selfClosing "a".toList], none⟩ := rfl
  have behind := read [] "a/>".toList
  rw [show '<' :: "a/>".toList = "<a/>".toList from rfl, known] at behind
  have faultless : (Markup.readIn [] (Xml.escape t ++ "<a/>".toList)).fault = none :=
    congrArg Markup.Reading.fault behind
  have sequence := (Markup.exists_sequence faultless).1
  rw [behind] at sequence
  have gap := (Xml.isGap_of_inert sequence.of_append.1 fun piece hp => by
    obtain ⟨source, -, rfl⟩ := List.mem_map.1 hp
    rfl).1
  have whole : (sources.map Markup.inert).flatMap Markup.source = Xml.escape t := by
    rw [List.flatMap_map, ← flat, ← List.flatMap_id]
    rfl
  rwa [whole] at gap

theorem unharmed_of_unmarked : Unharmed false tag content := rfl

theorem textOf_escape (h : Unharmed marked tag (.gap (Xml.escape v))) :
    textOf marked (held tag (.gap (Xml.escape v))) = .ok v := by
  have source (start : Text) : contentOf false start (held tag (.gap (Xml.escape v))).source = some (Xml.escape v) :=
    congrArg some (source_held (isGap_escape v))
  rw [h, textOf, source]
  simp only [Xml.decodeText_escape]

theorem textOf_empty (h : Unharmed marked tag (.gap [])) : textOf marked (held tag (.gap [])) = .ok [] :=
  textOf_escape (v := []) h

end Texts

/-! ## Members -/

section Members
variable {backing : Option Backing} {m : Member} {text : Option Text}

theorem CaseAttributes.value_of_fold {found : CaseAttributes}
    (h : foldAttributes tag ⟨none, none⟩ CaseAttributes.add = .ok found) :
    found.value = attribute? "value".toList tag := by
  obtain ⟨as, decoded, run⟩ := foldAttributes_eq_ok_iff.1 h
  have value := get_of_foldlM CaseAttributes.value id CaseAttributes.value_of_add (nodup_of_decoded decoded) run
  rw [value, ← attribute?_of_decoded decoded]
  cases attribute? "value".toList tag <;> rfl

/-- A member whose value stands in an attribute does not depend on its text. -/
theorem readCase_of_value (value : attribute? "value".toList tag = some v) (text text' : Option Text) :
    readCase backing tag text = readCase backing tag text' := by
  unfold readCase
  cases read : foldAttributes tag ⟨none, none⟩ CaseAttributes.add with
  | error error => rfl
  | ok found =>
    have first (text : Option Text) : (found.value <|> text) = some v := by
      rw [CaseAttributes.value_of_fold read, value]
      rfl
    simp only [ok_bind, first]

/-- The value of a member may stand in its text. -/
theorem readCase_lacks (lacks : Lacks "value".toList tag tag') (value : attribute? "value".toList tag = some v)
    (h : readCase backing tag text = .ok m) : readCase backing tag' (some v) = .ok m := by
  obtain ⟨found, read, h⟩ := bind_eq_ok_iff.1 h
  have read' := foldAttributes_lacks (fun c : CaseAttributes => { c with value := none })
    (fun {c c' a} added same => by
      obtain ⟨key, value⟩ := a
      obtain rfl : key = _ := same
      exact Except.ok.inj added ▸ rfl)
    (fun {c c' a} added other => by
      rw [CaseAttributes.add_other c other, added]
      rfl) lacks read
  have first : (found.value <|> text) = some v := by
    rw [CaseAttributes.value_of_fold read, value]
    rfl
  rw [first] at h
  exact bind_eq_ok_iff.2 ⟨_, read', h⟩

end Members

/-! ## Annotations -/

section Annotations
variable {marked : Bool} {x : Element} {xs : List Element} {f : OpenField}

def OpenField.annotated (f : OpenField) (typeExpr : Option Text) : OpenField :=
  { f with field := { f.field with typeExpr } }

@[simp] theorem OpenField.annotated_annotated (f : OpenField) (t t' : Option Text) :
    (f.annotated t).annotated t' = f.annotated t' := rfl

theorem fieldChild_annotated (other : elementName x.tag ≠ "annotation".toList) (typeExpr : Option Text) :
    fieldChild marked (f.annotated typeExpr) x = (fieldChild marked f x).map (·.annotated typeExpr) := by
  simp only [fieldChild, if_neg other]
  split
  · cases innerText marked x <;> rfl
  · rfl

/-- Children without an annotation do not look at that of the field. -/
theorem foldlM_annotated (marked : Bool) (other : ∀ x ∈ xs, elementName x.tag ≠ "annotation".toList)
    (typeExpr : Option Text) :
    xs.foldlM (fieldChild marked) (f.annotated typeExpr) =
      (xs.foldlM (fieldChild marked) f).map (·.annotated typeExpr) := by
  induction xs generalizing f with
  | nil => rfl
  | cons x xs ih =>
    rw [List.forall_mem_cons] at other
    rw [List.foldlM_cons, List.foldlM_cons, fieldChild_annotated other.1]
    cases fieldChild marked f x with
    | error error => rfl
    | ok g => exact ih other.2

theorem fieldChild_annotates {content : Contents} (name : elementName tag = "annotation".toList)
    (read : textOf marked (held tag content) = .ok v) (nonblank : Text.trim v ≠ []) :
    fieldChild marked f (.around tag content ending) = .ok (f.annotated (some (Text.trim v))) := by
  have other : elementName tag ≠ "doc".toList := by
    rw [name]
    decide
  simp only [fieldChild, Element.tag, if_neg other, if_pos name, innerText, read]
  show Except.ok _ = _
  simp [OpenField.annotated, Option.filter, nonblank]

theorem readField_lacks {field : Field} (lacks : Lacks "annotation".toList tag tag') (h : readField tag = .ok field) :
    readField tag' = .ok { field with typeExpr := none } := by
  obtain ⟨found, name, read, named, rfl⟩ := readField_eq_ok_iff.1 h
  have read' := foldAttributes_lacks (fun f : FieldAttributes => { f with typeExpr := none })
    (fun {f f' a} added same => by
      obtain ⟨key, value⟩ := a
      obtain rfl : key = _ := same
      exact Except.ok.inj added ▸ rfl)
    (fun {f f' a} added other => by
      rw [FieldAttributes.add_other f other, added]
      rfl) lacks read
  exact readField_eq_ok_iff.2 ⟨_, name, read', named, rfl⟩

/-- The annotation of a field may stand in a child. -/
theorem fieldOf_annotated {content : Contents} {atag aending : Text} {front back : List Element} {field : Field}
    (lacks : Lacks "annotation".toList x.tag tag') (known : attribute? "annotation".toList x.tag = some v)
    (nonblank : Text.trim v ≠ []) (other : ∀ y ∈ x.children, elementName y.tag ≠ "annotation".toList)
    (children : x.children = front ++ back)
    (children' : content.elements = front ++ .around atag (.gap (Xml.escape v)) aending :: back)
    (name : elementName atag = "annotation".toList) (unharmed : Unharmed marked atag (.gap (Xml.escape v)))
    (h : fieldOf marked x = .ok field) : fieldOf marked (.around tag' content ending) = .ok field := by
  obtain ⟨start, read, h⟩ := bind_eq_ok_iff.1 h
  obtain ⟨last, run, h⟩ := bind_eq_ok_iff.1 h
  rw [children, List.forall_mem_append] at other
  rw [children, List.foldlM_append] at run
  obtain ⟨middle, runFront, runBack⟩ := bind_eq_ok_iff.1 run
  have present : start.typeExpr = some (Text.trim v) := by
    rw [typeExpr_of_readField read, known]
    simp [Option.filter, Nonblank, nonblank]
  -- The annotation is known in front of the child that it moves to, and stays what it is.
  have same : middle.annotated (some (Text.trim v)) = middle := by
    have all := foldlM_annotated marked (f := ⟨start, none⟩) other.1 (some (Text.trim v))
    have unchanged : OpenField.annotated ⟨start, none⟩ (some (Text.trim v)) = ⟨start, none⟩ := by
      rw [← present]
      rfl
    rw [unchanged, runFront] at all
    exact (Except.ok.inj all).symm
  have run' : content.elements.foldlM (fieldChild marked) ⟨{ start with typeExpr := none }, none⟩ = .ok last := by
    have front' := foldlM_annotated marked (f := ⟨start, none⟩) other.1 none
    rw [runFront] at front'
    rw [children', List.foldlM_append]
    show List.foldlM (fieldChild marked) (OpenField.annotated ⟨start, none⟩ none) front >>= _ = _
    rw [front']
    show List.foldlM (fieldChild marked) (middle.annotated none) (_ :: back) = _
    rw [List.foldlM_cons, fieldChild_annotates name (textOf_escape unharmed) nonblank, ok_bind,
      OpenField.annotated_annotated, same]
    exact runBack
  exact bind_eq_ok_iff.2 ⟨_, readField_lacks lacks read, bind_eq_ok_iff.2 ⟨last, run', h⟩⟩

end Annotations

/-! ## Spellings -/

/-- Another spelling of an entity, a member or a field. -/
inductive Respelled (marked : Bool) : Element → Element → Prop
  /-- A tag that closes itself becomes a start tag and an end tag. -/
  | ended {tag ending : Text} (stop : Markup.Whole (.closing ending)) (closes : Markup.endName ending = Xml.tagName tag)
    (kind : elementName tag = "entity".toList ∨ elementName tag = "field".toList ∨
      elementName tag = "case".toList ∧ attribute? "value".toList tag ≠ none ∧ Unharmed marked tag (.gap [])) :
    Respelled marked (.selfClosing tag) (.around tag (.gap []) ending)
  /-- The value of a member moves into its text. -/
  | value {x : Element} {tag' ending v : Text} (name : elementName x.tag = "case".toList)
    (value : attribute? "value".toList x.tag = some v) (retagged : Retagged "value".toList x.tag tag' ending)
    (unharmed : Unharmed marked tag' (.gap (Xml.escape v))) :
    Respelled marked x (.around tag' (.gap (Xml.escape v)) ending)
  /-- The annotation of a field moves into a child, between any of the others. -/
  | annotated {x : Element} {tag' ending v atag aending : Text} {front back : List Element} {content : Contents}
    (name : elementName x.tag = "field".toList) (known : attribute? "annotation".toList x.tag = some v)
    (nonblank : Text.trim v ≠ []) (other : ∀ y ∈ x.children, elementName y.tag ≠ "annotation".toList)
    (retagged : Retagged "annotation".toList x.tag tag' ending) (inside : content.WellFormed)
    (children : x.children = front ++ back)
    (children' : content.elements = front ++ .around atag (.gap (Xml.escape v)) aending :: back)
    (child : elementName atag = "annotation".toList) (unharmed : Unharmed marked atag (.gap (Xml.escape v))) :
    Respelled marked x (.around tag' content ending)

section Spellings
variable {marked : Bool} {x x' : Element} {backing : Option Backing} {d : Contribution}

theorem contribution_field (name : elementName x.tag = "field".toList) :
    contribution marked backing x = (fieldOf marked x).map .field := if_pos name

theorem contribution_case (name : elementName x.tag = "case".toList) :
    contribution marked backing x = innerText marked x >>= fun text =>
      (readCase backing x.tag text).map .member := by
  have other : elementName x.tag ≠ "field".toList := by
    rw [name]
    decide
  simp only [contribution, if_neg other, if_pos name]
  cases innerText marked x with
  | error error => rfl
  | ok text => exact (map_eq_bind _ _).symm

/-- **Another spelling contributes the same.** -/
theorem Respelled.contribution (h : Respelled marked x x') (inside : elementName x.tag ≠ "entity".toList)
    (given : contribution marked backing x = .ok d) : Document.contribution marked backing x' = .ok d := by
  cases h with
  | @ended tag ending stop closes kind =>
    rcases kind with entity | field | ⟨case, some, unharmed⟩
    · exact absurd entity inside
    · rw [contribution_field (x := .selfClosing tag) field] at given
      rw [contribution_field (x := .around tag (.gap []) ending) field]
      exact given
    · obtain ⟨v, value⟩ := Option.ne_none_iff_exists'.1 some
      rw [contribution_case (x := .selfClosing tag) case, innerText, ok_bind, map_eq_ok_iff] at given
      obtain ⟨m, read, rfl⟩ := given
      rw [contribution_case (x := .around tag (.gap []) ending) case, innerText, textOf_empty unharmed]
      show (readCase backing tag (Option.some [])).map _ = _
      rw [readCase_of_value value _ none, map_eq_ok_iff]
      exact ⟨m, read, rfl⟩
  | @value _ tag' ending v name value retagged unharmed =>
    rw [contribution_case name] at given
    obtain ⟨text, -, given⟩ := bind_eq_ok_iff.1 given
    obtain ⟨m, read, rfl⟩ := map_eq_ok_iff.1 given
    rw [contribution_case (x := .around tag' (.gap (Xml.escape v)) ending) (retagged.name.trans name), innerText,
      textOf_escape unharmed]
    exact map_eq_ok_iff.2 ⟨m, readCase_lacks retagged.lacks value read, rfl⟩
  | @annotated _ tag' ending v atag aending front back content name known nonblank other retagged inner children
      children' child unharmed =>
    rw [contribution_field name, map_eq_ok_iff] at given
    obtain ⟨field, describes, rfl⟩ := given
    rw [contribution_field (x := .around tag' content ending) (retagged.name.trans name), map_eq_ok_iff]
    exact ⟨field, fieldOf_annotated retagged.lacks known nonblank other children children' child unharmed
      describes, rfl⟩

theorem Respelled.entityOf {scope : Text} (h : Respelled marked x x') (name : elementName x.tag = "entity".toList) :
    Document.entityOf marked scope x' = entityOf marked scope x := by
  cases h with
  | ended => rfl
  | value case => exact absurd (name.symm.trans case) (by decide)
  | annotated field => exact absurd (name.symm.trans field) (by decide)

theorem Respelled.wellFormed (h : Respelled marked x x') (hx : x.WellFormed) (last : x.tag.getLast? ≠ some '/') :
    x'.WellFormed := by
  cases h with
  | ended stop closes => exact ⟨Markup.Whole.opening hx last, isGap_escape [], stop, closes⟩
  | @value _ tag' ending v name value retagged => exact ⟨retagged.start, isGap_escape v, retagged.stop, retagged.closes⟩
  | annotated _ _ _ _ retagged inside => exact ⟨retagged.start, inside, retagged.stop, retagged.closes⟩

theorem Respelled.name (h : Respelled marked x x') : elementName x.tag = "entity".toList ∨
    elementName x.tag = "field".toList ∨ elementName x.tag = "case".toList := by
  cases h with
  | ended stop closes kind => exact kind.imp_right (Or.imp_right And.left)
  | value name => exact Or.inr (Or.inr name)
  | annotated name => exact Or.inr (Or.inl name)

theorem last_of_readEntity {scope : Text} {found : Entity × Text} (h : readEntity scope tag = .ok found) :
    tag.getLast? ≠ some '/' := getLast?_ne_slash h (by simp)

theorem last_of_readField {field : Field} (h : readField tag = .ok field) : tag.getLast? ≠ some '/' :=
  getLast?_ne_slash h (by simp)

theorem last_of_readCase {m : Member} {text : Option Text} (h : readCase backing tag text = .ok m) :
    tag.getLast? ≠ some '/' := getLast?_ne_slash h (by simp)

theorem last_of_contribution (name : elementName x.tag = "field".toList ∨ elementName x.tag = "case".toList)
    (given : contribution marked backing x = .ok d) : x.tag.getLast? ≠ some '/' := by
  rcases name with field | case
  · rw [contribution_field field, map_eq_ok_iff] at given
    obtain ⟨f, describes, -⟩ := given
    obtain ⟨start, read, -⟩ := bind_eq_ok_iff.1 describes
    exact last_of_readField read
  · rw [contribution_case case] at given
    obtain ⟨text, -, given⟩ := bind_eq_ok_iff.1 given
    obtain ⟨m, read, -⟩ := map_eq_ok_iff.1 given
    exact last_of_readCase read

end Spellings

/-! ## Documents -/

/-- **Other spellings change nothing**, wherever the entity, the field or the member stands. -/
theorem parse_respelled {x x' : Element} {before after : Text} {es : List Entity} (hx : x.WellFormed)
    (respelled : Respelled (isMarked before) x x')
    (here : elementName x.tag = "entity".toList ∧ OutsideEntities before ∨
      elementName x.tag ≠ "entity".toList ∧ InEntity before)
    (accepted : parse (before ++ (x.source ++ after)) = .ok es) :
    parse (before ++ (x'.source ++ after)) = .ok es := by
  rcases here with ⟨name, here⟩ | ⟨inside, here⟩
  · obtain ⟨s, e, back, -, described, -⟩ := here.exists_entity hx name accepted
    obtain ⟨found, read, -⟩ := bind_eq_ok_iff.1 described
    have hx' := respelled.wellFormed hx (last_of_readEntity read)
    have name' : elementName x'.tag = "entity".toList := by
      cases respelled with
      | ended => exact name
      | value case => exact absurd (name.symm.trans case) (by decide)
      | annotated field => exact absurd (name.symm.trans field) (by decide)
    exact here.parse_replace hx hx' name name' (fun scope e h => (respelled.entityOf name).trans h) accepted
  · obtain ⟨e, e', does⟩ := here.exists_child hx accepted
    obtain ⟨d, given, -⟩ := map_eq_ok_iff.1 does
    have hx' := respelled.wellFormed hx (last_of_contribution (respelled.name.resolve_left inside) given)
    refine here.parse_replace hx hx' (fun e e' does => ?_) accepted
    obtain ⟨d, given, rfl⟩ := map_eq_ok_iff.1 does
    exact map_eq_ok_iff.2 ⟨d, respelled.contribution inside given, rfl⟩

/-- The annotation of a field moves into a child. Behind a byte order mark it cannot: the text of the child is cut
out elsewhere. -/
theorem parse_respelled_field :
    let before := "<entity name='A'>".toList
    let x : Element := .selfClosing "field name='x' annotation=' A&lt;int>|null'".toList
    let x' : Element := .around "field name='x'".toList (.child [] (.around "annotation".toList
      (.gap " A&lt;int&gt;|null".toList) "annotation".toList) (.gap [])) "field".toList
    let after := "</entity>".toList
    let entity (typeExpr : String) : Entity :=
      ⟨"A".toList, "A".toList, .record,
        [⟨"x".toList, "mixed".toList, some typeExpr.toList, false, false, none⟩], [], none⟩
    x.WellFormed ∧ Respelled (isMarked before) x x' ∧
      (elementName x.tag = "entity".toList ∧ OutsideEntities before ∨
        elementName x.tag ≠ "entity".toList ∧ InEntity before) ∧
      parse (before ++ (x.source ++ after)) = .ok [entity "A<int>|null"] ∧
      parse (before ++ (x'.source ++ after)) = .ok [entity "A<int>|null"] ∧
      parse ('\uFEFF' :: (before ++ (x.source ++ after))) = .ok [entity "A<int>|null"] ∧
      parse ('\uFEFF' :: (before ++ (x'.source ++ after))) = .ok [entity "on> A<int>|n"] := by
  intro before x x' after entity
  have hx : x.WellFormed := by decide +kernel
  have hx' : x'.WellFormed := by decide +kernel
  have respelled : Respelled (isMarked before) x x' := by
    have moved : x'.children =
        [] ++ [.around "annotation".toList (.gap (Xml.escape " A<int>|null".toList)) "annotation".toList] := by
      have written : Xml.escape " A<int>|null".toList = " A&lt;int&gt;|null".toList := by decide +kernel
      rw [written]
      rfl
    have lacks : Lacks "annotation".toList x.tag "field name='x'".toList := by
      show Xml.attributes _ = _
      decide +kernel
    exact .annotated (by decide) (by decide +kernel) (by decide +kernel) (fun y hy => absurd hy List.not_mem_nil)
      ⟨hx'.1, hx'.2.2.1, hx'.2.2.2, by decide, lacks⟩ hx'.2.1 (show x.children = [] ++ [] from rfl) moved
      (by decide) unharmed_of_unmarked
  have here : elementName x.tag = "entity".toList ∧ OutsideEntities before ∨
      elementName x.tag ≠ "entity".toList ∧ InEntity before :=
    Or.inr ⟨by decide, ["entity".toList], by decide +kernel, by decide⟩
  have accepted : parse (before ++ (x.source ++ after)) = .ok [entity "A<int>|null"] := by decide +kernel
  exact ⟨hx, respelled, here, accepted, parse_respelled hx respelled here accepted, by decide +kernel,
    by decide +kernel⟩

end Document

end DeclGen
