import DeclGen.Entity.Validation
import DeclGen.Proofs.TypeExpr.Keys
import DeclGen.Proofs.TypeScript.Enumeration
import DeclGen.Proofs.TypeScript.Nullability

/-!
# Literals and line breaks

A literal has to close on the line it starts on. Backslashes and quotes are escaped, line breaks are copied, so a text
with a line break becomes a literal that does not close.

* `OneLine` : a text without line breaks; `oneLine_propertyKey_iff` : a key has those of its text;
* `next?_firstLine_quote` : a literal is read from its line iff its text has no line breaks;
* `isInfix_toTypeScript` : the keys of a type are written in its text; `oneLine_toTypeScript_iff` : nothing else in the
  text of a type breaks a line;
* `Resolved.quoted` : the texts that stand in quotes in a file; `isInfix_render` : their literals are parts of the file;
* `oneLine_quoted_iff` : which literals are on one line.
-/

namespace DeclGen
namespace TypeScript
open Text (isBlank trim)

variable {s t : Text}

/-! ## Lines -/

/-- Line feeds and carriage returns, behind which no literal goes on. -/
def breaksLine (c : Char) : Bool := c = '\n' || c = '\r'

/-- The text has no line breaks. -/
def OneLine (t : Text) : Prop := ∀ c ∈ t, breaksLine c = false

instance : DecidablePred OneLine := fun t => List.decidableBAll (fun c => breaksLine c = false) t

/-- The text up to its first line break. -/
def firstLine (t : Text) : Text := t.takeWhile (!breaksLine ·)

theorem isBlank_of_breaksLine {c : Char} (h : breaksLine c = true) : isBlank c = true := by
  rw [breaksLine, Bool.or_eq_true, decide_eq_true_eq, decide_eq_true_eq] at h
  rcases h with rfl | rfl <;> decide

theorem oneLine_of_unblank (h : ∀ c ∈ t, isBlank c = false) : OneLine t := by
  intro c hc
  refine Bool.eq_false_iff.2 fun breaks => ?_
  exact absurd (isBlank_of_breaksLine breaks) (by simp [h c hc])

theorem oneLine_append_iff : OneLine (s ++ t) ↔ OneLine s ∧ OneLine t := List.forall_mem_append

theorem OneLine.isInfix (h : OneLine t) (hs : s <:+: t) : OneLine s := fun c hc => h c (hs.subset hc)

theorem oneLine_intercalate {sep : Text} (hsep : OneLine sep) {us : List Text} (h : ∀ u ∈ us, OneLine u) :
    OneLine (List.intercalate sep us) := by
  induction us with
  | nil => exact fun c hc => absurd hc List.not_mem_nil
  | cons u us ih =>
    obtain ⟨hu, hus⟩ := List.forall_mem_cons.1 h
    cases us with
    | nil => simpa using hu
    | cons v us =>
      rw [List.intercalate_cons_cons]
      exact oneLine_append_iff.2 ⟨oneLine_append_iff.2 ⟨hu, hsep⟩, ih hus⟩

theorem isInfix_intercalate {sep u : Text} {us : List Text} (h : u ∈ us) : u <:+: List.intercalate sep us := by
  induction us with
  | nil => exact absurd h List.not_mem_nil
  | cons v us ih =>
    cases us with
    | nil =>
      obtain rfl := List.mem_singleton.1 h
      simp
    | cons w us =>
      rw [List.intercalate_cons_cons, List.append_assoc]
      rcases List.mem_cons.1 h with rfl | h
      · exact (List.prefix_append u _).isInfix
      · exact (ih h).trans (((List.suffix_append sep _).trans (List.suffix_append v _)).isInfix)

theorem firstLine_append_of_oneLine (h : OneLine s) (t : Text) : firstLine (s ++ t) = s ++ firstLine t :=
  List.takeWhile_append_of_pos fun c hc => by rw [h c hc]; rfl

theorem firstLine_append_of_not_oneLine (h : ¬ OneLine s) (t : Text) : firstLine (s ++ t) = firstLine s := by
  rw [firstLine, List.takeWhile_append, if_neg]
  · rfl
  · intro full
    refine h fun c hc => ?_
    rw [← (List.takeWhile_prefix _).eq_of_length full] at hc
    simpa using List.all_eq_true.1 List.all_takeWhile c hc

/-! ## Literals -/

theorem oneLine_escape_iff : OneLine (escape t) ↔ OneLine t := by
  induction t with
  | nil => rfl
  | cons c t ih =>
    rw [escape_cons, oneLine_append_iff, ih, OneLine, OneLine, OneLine, List.forall_mem_cons]
    refine and_congr_left fun _ => ?_
    split <;> simp [breaksLine]

theorem oneLine_quote_iff : OneLine (quote t) ↔ OneLine t := by
  have closing : OneLine ['\''] := by decide
  rw [quote, List.cons_append, ← List.singleton_append, oneLine_append_iff, oneLine_append_iff, oneLine_escape_iff]
  exact ⟨fun h => h.2.1, fun h => ⟨closing, h, closing⟩⟩

/-- A word has no line breaks, and a literal has those of its text. -/
theorem oneLine_propertyKey_iff : OneLine (propertyKey t) ↔ OneLine t := by
  rcases propertyKey_cases t with quoted | ⟨bare, -⟩
  · rw [quoted, oneLine_quote_iff]
  · rw [bare]

/-- Line breaks are not escaped. -/
theorem firstLine_escape (t : Text) : firstLine (escape t) = escape (firstLine t) := by
  induction t with
  | nil => rfl
  | cons c t ih =>
    by_cases breaks : breaksLine c = true
    · have plain : escape (c :: t) = c :: escape t := by
        rw [breaksLine, Bool.or_eq_true, decide_eq_true_eq, decide_eq_true_eq] at breaks
        rcases breaks with rfl | rfl <;> rfl
      rw [plain, firstLine, firstLine, List.takeWhile_cons_of_neg (by simpa using breaks),
        List.takeWhile_cons_of_neg (by simpa using breaks)]
      rfl
    · have whole : OneLine (if c = '\\' || c = '\'' then ['\\', c] else [c]) := by
        split <;> simp_all [OneLine, breaksLine]
      rw [escape_cons, firstLine_append_of_oneLine whole, ih, firstLine, firstLine,
        List.takeWhile_cons_of_pos (by simpa using breaks), escape_cons]

/-- From the line on which a literal starts, it is read iff it has no line breaks. -/
theorem next?_firstLine_quote (letters : Letters) (content rest : Text) :
    next? letters (firstLine (quote content ++ rest)) =
      if OneLine content then some (.quoted content, firstLine rest) else none := by
  have parts : quote content ++ rest = ['\''] ++ (escape content ++ '\'' :: rest) := by simp [quote]
  rw [parts, firstLine_append_of_oneLine (by decide), List.singleton_append, next?, if_pos rfl]
  split
  · next h =>
    rw [firstLine_append_of_oneLine (oneLine_escape_iff.2 h)]
    have quoted : firstLine ('\'' :: rest) = '\'' :: firstLine rest := rfl
    rw [quoted, unquote?_escape]
    rfl
  · next h =>
    -- The line ends in the escaped text, and without its last quote.
    have none : unquote? (escape (firstLine content)) = none := by
      simpa [unquote?] using unquote?_escape_append (firstLine content) []
    rw [firstLine_append_of_not_oneLine (mt oneLine_escape_iff.1 h), firstLine_escape, none]
    rfl

/-! ## Types -/

/-- Blanks around a text do not matter to a part of it without blanks at its ends. -/
theorem Solid.isInfix_trim (h : Solid s) (hs : s <:+: t) : s <:+: trim t := by
  obtain ⟨⟨first, hfirst, unblank⟩, last, hlast, unblank'⟩ := h
  refine Text.trim_induction (P := fun t => s <:+: t) (fun c t blank inside => ?_) (fun c t blank inside => ?_) hs
  · refine (List.infix_cons_iff.1 inside).resolve_left fun start => ?_
    obtain ⟨rest, parts⟩ := start
    have same : (c :: t).head? = some first := by
      rw [← parts, List.head?_append, Option.mem_def.1 hfirst]
      rfl
    obtain rfl := Option.some.inj same
    exact absurd blank (by simp [unblank])
  · refine (List.infix_concat_iff.1 inside).resolve_left fun back => ?_
    obtain ⟨front, parts⟩ := back
    have same : (t ++ [c]).getLast? = some last := by
      rw [← parts, List.getLast?_append, Option.mem_def.1 hlast]
      rfl
    rw [List.getLast?_concat] at same
    obtain rfl := Option.some.inj same
    exact absurd blank (by simp [unblank'])

theorem isInfix_wrapNullable (t : Text) : trim t <:+: wrapNullable t := by
  rw [wrapNullable]
  split
  · exact List.infix_rfl
  · exact (List.prefix_append _ _).isInfix

theorem solid_propertyKey (key : Text) : Solid (propertyKey key) := by
  rcases propertyKey_cases key with quoted | ⟨bare, hne, word⟩
  · rw [quoted]
    exact solid_cons_concat (by decide) (by decide) (escape key)
  · rw [bare]
    exact solid_of_unblank hne fun c hc => isBlank_of_inIdentifier (word c hc)

end TypeScript

namespace TypeNode
open TypeScript

/-- An entry is a part of the text of its record. -/
theorem isInfix_record {es : List (RecordEntry TypeNode)} {e : RecordEntry TypeNode} (he : e ∈ es) :
    propertyKey e.key ++ optionalMark e.optional ++ ": ".toList ++ e.type.toTypeScript <:+:
      (record es).toTypeScript := by
  rw [toTypeScript_record, if_neg (by simpa using List.ne_nil_of_mem he), entryTexts_eq]
  refine .trans (isInfix_intercalate ?_) ⟨['{', ' '], [' ', '}'], rfl⟩
  exact List.mem_map.2 ⟨e, he, rfl⟩

/-- The keys of a type are written in its text. -/
theorem isInfix_toTypeScript (t : TypeNode) : ∀ key ∈ t.keys, propertyKey key <:+: t.toTypeScript := by
  induction t using TypeNode.induction with
  | primitive kind => exact fun key h => absurd h List.not_mem_nil
  | named name => exact fun key h => absurd h List.not_mem_nil
  | array t ih =>
    intro key h
    refine (ih key h).trans ?_
    rw [toTypeScript_array]
    split
    · exact ⟨['('], ")[]".toList, rfl⟩
    · exact (List.prefix_append _ _).isInfix
  | record es ih =>
    intro key h
    obtain ⟨e, he, rfl | hk⟩ := mem_keys_record_iff.1 h
    · exact (by simp : propertyKey e.key <+: _).isInfix.trans (isInfix_record he)
    · exact (ih e he key hk).trans ((List.suffix_append _ _).isInfix.trans (isInfix_record he))
  | dictionary k v ihk ihv =>
    intro key h
    rw [toTypeScript_dictionary]
    rw [keys_dictionary, List.mem_append] at h
    rcases h with h | h
    · exact (ihk key h).trans ⟨"Record<".toList, ", ".toList ++ v.toTypeScript ++ ['>'], by simp⟩
    · exact (ihv key h).trans (List.infix_append _ _ _)
  | orNull t ih =>
    intro key h
    exact ((solid_propertyKey key).isInfix_trim (ih key h)).trans (isInfix_wrapNullable _)
  | oneOf ts ih =>
    intro key h
    obtain ⟨t, ht, hk⟩ := mem_keys_oneOf_iff.1 h
    rw [toTypeScript_oneOf, memberTexts_eq]
    exact (ih t ht key hk).trans (isInfix_intercalate (List.mem_map_of_mem ht))

/-- Beside the keys, nothing that is written for a type breaks a line. -/
theorem oneLine_toTypeScript {t : TypeNode} (h : t.All IsWorded) (keys : ∀ key ∈ t.keys, OneLine key) :
    OneLine t.toTypeScript := by
  induction t using TypeNode.induction with
  | primitive kind => cases kind <;> decide
  | named name =>
    have word := all_named_iff.1 h
    rw [toTypeScript_eq_short word]
    exact oneLine_of_unblank (isBlank_of_mem_short word)
  | array t ih =>
    have item := ih (all_array_iff.1 h).2 keys
    rw [toTypeScript_array]
    split
    · exact oneLine_append_iff.2 ⟨oneLine_append_iff.2 ⟨(by decide : OneLine ['(']), item⟩, by decide⟩
    · exact oneLine_append_iff.2 ⟨item, by decide⟩
  | record es ih =>
    have entries := (all_record_iff.1 h).2
    rw [toTypeScript_record]
    split
    · decide
    · refine oneLine_append_iff.2 ⟨oneLine_append_iff.2 ⟨by decide, ?_⟩, by decide⟩
      refine oneLine_intercalate (by decide) fun u hu => ?_
      rw [entryTexts_eq] at hu
      obtain ⟨e, he, rfl⟩ := List.mem_map.1 hu
      have key := oneLine_propertyKey_iff.2 (keys e.key (mem_keys_record_iff.2 ⟨e, he, .inl rfl⟩))
      have type := ih e he (entries e he) fun key hk => keys key (mem_keys_record_iff.2 ⟨e, he, .inr hk⟩)
      have mark : OneLine (optionalMark e.optional) := by cases e.optional <;> decide
      exact oneLine_append_iff.2 ⟨oneLine_append_iff.2 ⟨oneLine_append_iff.2 ⟨key, mark⟩, by decide⟩, type⟩
  | dictionary k v ihk ihv =>
    obtain ⟨-, hk, hv⟩ := all_dictionary_iff.1 h
    rw [keys_dictionary, List.forall_mem_append] at keys
    simp only [toTypeScript_dictionary, oneLine_append_iff]
    exact ⟨⟨⟨⟨by decide, ihk hk keys.1⟩, by decide⟩, ihv hv keys.2⟩, by decide⟩
  | orNull t ih =>
    have inner := ih (all_orNull_iff.1 h).2 keys
    rw [toTypeScript_orNull, wrapNullable]
    split
    · exact inner.isInfix (Text.isInfix_trim _)
    · exact oneLine_append_iff.2 ⟨inner.isInfix (Text.isInfix_trim _), by decide⟩
  | oneOf ts ih =>
    rw [toTypeScript_oneOf, memberTexts_eq]
    refine oneLine_intercalate (by decide) fun u hu => ?_
    obtain ⟨t, ht, rfl⟩ := List.mem_map.1 hu
    exact ih t ht ((all_oneOf_iff.1 h).2 t ht) fun key hk => keys key (mem_keys_oneOf_iff.2 ⟨t, ht, hk⟩)

theorem oneLine_toTypeScript_iff {t : TypeNode} (h : t.All IsWorded) :
    OneLine t.toTypeScript ↔ ∀ key ∈ t.keys, OneLine key :=
  ⟨fun line key hk => oneLine_propertyKey_iff.1 (line.isInfix (isInfix_toTypeScript t key hk)),
    oneLine_toTypeScript h⟩

end TypeNode

/-! ## Files -/

open TypeScript

/-- The texts among values. -/
def EnumValue.texts : EnumValue → List Text
  | .text t => [t]
  | .integer _ => []

theorem EnumValue.valueText_of_mem_texts {v : EnumValue} {text : Text} (h : text ∈ v.texts) :
    valueText v = quote text := by
  cases v with
  | text t => rw [List.mem_singleton.1 h, valueText]
  | integer n => exact absurd h List.not_mem_nil

namespace Resolved
variable {options : Options} {e : Resolved}

/-- What is written as a property key: the names of fields and of members, and the keys in types. -/
def keys (e : Resolved) : List Text :=
  match e.kind with
  | .record => e.fields.flatMap fun f => f.name :: f.type.keys
  | .enumeration _ => e.members.map Member.name

/-- The texts among the values of an enumeration. -/
def texts (e : Resolved) : List Text :=
  match e.kind with
  | .record => []
  | .enumeration _ => e.members.flatMap fun m => m.value.texts

/-- What stands in quotes: the texts, and the keys that do not stand bare. -/
def quoted (e : Resolved) : List Text := e.keys.filter (fun key => propertyKey key = quote key) ++ e.texts

theorem isInfix_fieldText {f : ResolvedField} (hf : f ∈ e.fields) :
    fieldText options f <:+: interface options e := by
  obtain ⟨before, after, parts⟩ := List.append_of_mem hf
  rw [interface, parts, List.flatMap_append, List.flatMap_cons, ← List.append_assoc, ← List.append_assoc]
  rw [List.append_assoc _ _ "\x7d\n".toList]
  exact List.infix_append _ _ _

theorem isInfix_render_of_mem_keys {key : Text} (h : key ∈ e.keys) : propertyKey key <:+: render options e := by
  rw [keys] at h
  rw [render]
  cases kind : e.kind with
  | record =>
    rw [kind] at h
    obtain ⟨f, hf, hk⟩ := List.mem_flatMap.1 h
    refine .trans ?_ (isInfix_fieldText hf)
    rcases List.mem_cons.1 hk with rfl | hk
    · exact ⟨optionalDoc f.doc options.indent ++ options.indent, ": ".toList ++ f.type.toTypeScript ++ ";\n".toList,
        by simp [fieldText]⟩
    · exact (f.type.isInfix_toTypeScript key hk).trans (List.infix_append _ _ _)
  | enumeration backing =>
    rw [kind] at h
    obtain ⟨m, hm, rfl⟩ := List.mem_map.1 h
    obtain ⟨front, back, file, -⟩ := enumeration_of_mem options hm
    simp only [file]
    exact ⟨front ++ '\n' :: options.indent, " = ".toList ++ valueText m.value ++ back, by simp [memberText]⟩

theorem isInfix_render_of_mem_texts {text : Text} (h : text ∈ e.texts) : quote text <:+: render options e := by
  rw [texts] at h
  rw [render]
  cases kind : e.kind with
  | record =>
    rw [kind] at h
    exact absurd h List.not_mem_nil
  | enumeration backing =>
    rw [kind] at h
    obtain ⟨m, hm, ht⟩ := List.mem_flatMap.1 h
    obtain ⟨front, back, file, -⟩ := enumeration_of_mem options hm
    simp only [file]
    exact ⟨front ++ '\n' :: options.indent ++ propertyKey m.name ++ " = ".toList, back,
      by simp [memberText, EnumValue.valueText_of_mem_texts ht]⟩

/-- What stands in quotes is a part of the file. -/
theorem isInfix_render {content : Text} (h : content ∈ e.quoted) : quote content <:+: render options e := by
  rcases List.mem_append.1 h with key | text
  · obtain ⟨key, quoted⟩ := List.mem_filter.1 key
    rw [← of_decide_eq_true quoted]
    exact isInfix_render_of_mem_keys key
  · exact isInfix_render_of_mem_texts text

theorem forall_oneLine_quoted_iff : (∀ content ∈ e.quoted, OneLine (quote content)) ↔
    (∀ key ∈ e.keys, OneLine key) ∧ ∀ text ∈ e.texts, OneLine text := by
  simp only [oneLine_quote_iff, quoted, List.forall_mem_append]
  refine and_congr_left fun _ => ⟨fun h key hk => ?_, fun h key hk => h key (List.mem_filter.1 hk).1⟩
  rcases propertyKey_cases key with quoted | ⟨-, -, word⟩
  · exact h key (List.mem_filter.2 ⟨hk, decide_eq_true quoted⟩)
  · exact oneLine_of_unblank fun c hc => isBlank_of_inIdentifier (word c hc)

end Resolved

/-- **Literals and line breaks.** Whatever stands in quotes stands so in the file, and its literal is read from its line
iff it is on one line. All literals of a file are so iff no name, no key and no text in it has a line break; the text of
a type is on one line iff no key in it has one, and each key stands in the text the type is read from. -/
theorem oneLine_quoted_iff (letters : Letters) (options : Options) (e : Entity) (source : Text) :
    (∀ content ∈ e.resolve.quoted, quote content <:+: render options e.resolve ∧
      ∀ rest, next? letters (firstLine (quote content ++ rest)) =
        if OneLine (quote content) then some (.quoted content, firstLine rest) else none) ∧
    ((∀ content ∈ e.resolve.quoted, OneLine (quote content)) ↔
      (∀ key ∈ e.resolve.keys, OneLine key) ∧ ∀ text ∈ e.resolve.texts, OneLine text) ∧
    (OneLine (TypeExpr.parse source).toTypeScript ↔ ∀ key ∈ (TypeExpr.parse source).keys, OneLine key) ∧
    ∀ key ∈ (TypeExpr.parse source).keys, propertyKey key <:+: (TypeExpr.parse source).toTypeScript ∧
      (key <:+: source ∨ ∃ n, key = Text.ofNat n) := by
  refine ⟨fun content h => ⟨Resolved.isInfix_render h, fun rest => ?_⟩, Resolved.forall_oneLine_quoted_iff,
    TypeNode.oneLine_toTypeScript_iff (TypeExpr.all_parse TypeNode.normalizing_isWorded source), fun key hk => ?_⟩
  · rw [next?_firstLine_quote]
    simp only [oneLine_quote_iff]
  · exact ⟨TypeNode.isInfix_toTypeScript _ key hk, TypeExpr.isInfix_of_mem_keys hk⟩

/-- A line feed in the text of a valid member, in the name of a valid field and in a quoted key. -/
theorem oneLine_quoted_iff_feeds :
    let e : Entity := { Entity.ofName (.enumeration (some .string)) "E".toList with
      members := [⟨"A".toList, .text "a\nb".toList⟩] }
    let r : Entity := (Entity.ofName .record "R".toList).addField
      ⟨"a\nb".toList, "int".toList, none, false, false, none⟩
    let source : Text := "\x7b'a\nb': int\x7d".toList
    e.validate = .ok () ∧ r.validate = .ok () ∧
      (¬ ∀ content ∈ e.resolve.quoted, OneLine (quote content)) ∧
      (¬ ∀ content ∈ r.resolve.quoted, OneLine (quote content)) ∧
      ¬ OneLine (TypeExpr.parse source).toTypeScript := by
  intro e r source
  have broken : ¬ OneLine "a\nb".toList := by decide
  refine ⟨by decide, by decide, fun all => ?_, fun all => ?_, fun line => ?_⟩
  · have texts := ((oneLine_quoted_iff asciiLetters .default e source).2.1.1 all).2
    exact broken (texts _ (by decide))
  · have keys := ((oneLine_quoted_iff asciiLetters .default r source).2.1.1 all).1
    exact broken (keys _ (by decide +kernel))
  · have keys := (oneLine_quoted_iff asciiLetters .default e source).2.2.1.1 line
    exact broken (keys _ (by decide +kernel))

end DeclGen
