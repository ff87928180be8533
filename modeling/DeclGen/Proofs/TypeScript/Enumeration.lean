import DeclGen.Proofs.TypeScript.Spelling
import DeclGen.TypeScript.Declaration

/-!
# Members are told by the file

A name and a value are told apart from what is written behind them: a quoted text by its closing quote, a bare name and
an integer by the first character that cannot go on with them. A file of an enumeration therefore tells its members.

* `quote_append_inj`, `propertyKey_append_inj`, `valueText_append_inj`, `memberText_append_inj` : the parts of a member
  and what follows them;
* `memberBlock_cons`, `memberBlock_append` : a member and what is written around it; `memberBlock_injective` : the
  members of a block;
* `enumeration_of_mem` : where a member stands in the file;
* `enumeration_eq_iff` : two files are the same iff the members are.
-/

namespace DeclGen.TypeScript

variable {options : Options} {s t : Text}

/-! ## Names and values -/

/-- A text ends where its quotes do. -/
theorem quote_append_inj {content content' : Text} (h : quote content ++ s = quote content' ++ t) :
    content = content' ∧ s = t := by
  have read (content s : Text) : unquote? ((quote content ++ s).tail) = some (content, s) := by
    rw [quote, List.cons_append, List.cons_append, List.tail_cons, List.append_assoc, List.singleton_append,
      unquote?_escape]
  have same := read content s
  rw [h, read] at same
  obtain ⟨rfl, rfl⟩ := Prod.mk.inj (Option.some.inj same)
  exact ⟨rfl, rfl⟩

/-- A key is quoted, or a word. -/
theorem propertyKey_cases (key : Text) : propertyKey key = quote key ∨
    propertyKey key = key ∧ key ≠ [] ∧ ∀ c ∈ key, inIdentifier c = true := by
  rw [propertyKey]
  split
  · next bare =>
    refine .inr ⟨rfl, ?_⟩
    rw [Bool.or_eq_true] at bare
    rcases bare with identifier | index
    · exact (asciiLetters.isName_of_isIdentifier identifier).1
    · exact asciiLetters.isWord_of_isIndex index
  · exact .inl rfl

/-- No word starts with a quote. -/
theorem quote_append_ne {p : Char → Bool} (hp : p '\'' = false) {word : Text} (hne : word ≠ [])
    (hw : ∀ c ∈ word, p c = true) (content : Text) : quote content ++ s ≠ word ++ t := by
  obtain ⟨c, word, rfl⟩ := List.exists_cons_of_ne_nil hne
  intro h
  obtain ⟨rfl, -⟩ := List.cons.inj h
  exact absurd (hw '\'' List.mem_cons_self) (by simp [hp])

theorem propertyKey_append_inj {key key' : Text} (hs : ∀ c ∈ s.head?, inIdentifier c = false)
    (ht : ∀ c ∈ t.head?, inIdentifier c = false) (h : propertyKey key ++ s = propertyKey key' ++ t) :
    key = key' ∧ s = t := by
  rcases propertyKey_cases key with quoted | ⟨bare, hne, word⟩ <;>
  rcases propertyKey_cases key' with quoted' | ⟨bare', hne', word'⟩
  · rw [quoted, quoted'] at h
    exact quote_append_inj h
  · rw [quoted, bare'] at h
    exact absurd h (quote_append_ne (by decide) hne' word' key)
  · rw [bare, quoted'] at h
    exact absurd h.symm (quote_append_ne (by decide) hne word key')
  · rw [bare, bare'] at h
    exact Text.word_append_inj word word' hs ht h

/-- The characters of integers. -/
def inInteger (c : Char) : Bool := c.isDigit || c = '-'

theorem inInteger_of_mem_ofInt {n : Int} : ∀ c ∈ Text.ofInt n, inInteger c = true := by
  intro c hc
  rw [inInteger, Bool.or_eq_true, decide_eq_true_eq]
  cases n with
  | ofNat n => exact .inl (Text.isDigit_of_mem_ofNat hc)
  | negSucc n =>
    rcases List.mem_cons.1 hc with rfl | hc
    · exact .inr rfl
    · exact .inl (Text.isDigit_of_mem_ofNat hc)

theorem ofInt_ne_nil (n : Int) : Text.ofInt n ≠ [] := by
  cases n with
  | ofNat n => exact Text.ofNat_ne_nil n
  | negSucc n => exact List.cons_ne_nil _ _

theorem valueText_append_inj {v w : EnumValue} (hs : ∀ c ∈ s.head?, inInteger c = false)
    (ht : ∀ c ∈ t.head?, inInteger c = false) (h : valueText v ++ s = valueText w ++ t) : v = w ∧ s = t := by
  cases v with
  | text content =>
    cases w with
    | text content' =>
      obtain ⟨rfl, rfl⟩ := quote_append_inj h
      exact ⟨rfl, rfl⟩
    | integer n => exact absurd h (quote_append_ne (by decide) (ofInt_ne_nil n) inInteger_of_mem_ofInt content)
  | integer m =>
    cases w with
    | text content => exact absurd h.symm (quote_append_ne (by decide) (ofInt_ne_nil m) inInteger_of_mem_ofInt content)
    | integer n =>
      obtain ⟨same, rfl⟩ := Text.word_append_inj inInteger_of_mem_ofInt inInteger_of_mem_ofInt hs ht h
      exact ⟨congrArg EnumValue.integer (Text.ofInt_injective same), rfl⟩

/-! ## Members -/

theorem memberText_append_inj {m n : Member} (hs : ∀ c ∈ s.head?, inInteger c = false)
    (ht : ∀ c ∈ t.head?, inInteger c = false) (h : memberText options m ++ s = memberText options n ++ t) :
    m = n ∧ s = t := by
  have parts (m : Member) (s : Text) : memberText options m ++ s =
      options.indent ++ (propertyKey m.name ++ (" = ".toList ++ (valueText m.value ++ s))) := by
    simp [memberText]
  rw [parts, parts] at h
  have blank (u : Text) : ∀ c ∈ (" = ".toList ++ u).head?, inIdentifier c = false := by
    rintro _ ⟨⟩
    decide
  obtain ⟨name, assigned⟩ := propertyKey_append_inj (blank _) (blank _) (List.append_cancel_left h)
  obtain ⟨value, rest⟩ := valueText_append_inj hs ht (List.append_cancel_left assigned)
  obtain ⟨name', value'⟩ := m
  obtain rfl : name' = n.name := name
  obtain rfl : value' = n.value := value
  exact ⟨rfl, rest⟩

/-- What is written behind a member: the end of its line, or a comma and the members after it. -/
def memberRest (options : Options) : List Member → Text
  | [] => ['\n']
  | m :: ms => ",\n".toList ++ memberBlock options (m :: ms)

theorem memberBlock_cons (options : Options) (m : Member) (ms : List Member) :
    memberBlock options (m :: ms) = memberText options m ++ memberRest options ms := by
  cases ms with
  | nil => rfl
  | cons n ms => rw [memberBlock, memberRest, List.append_assoc]

theorem head?_memberRest (options : Options) (ms : List Member) :
    ∀ c ∈ (memberRest options ms).head?, inInteger c = false := by
  cases ms <;> rintro _ ⟨⟩ <;> decide

theorem memberBlock_cons_ne (options : Options) (m : Member) (ms : List Member) :
    memberBlock options (m :: ms) ≠ [] := by
  rw [memberBlock_cons]
  cases ms <;> simp [memberRest]

/-- A member stands on lines of its own. -/
theorem memberBlock_append (options : Options) (front : List Member) (m : Member) (back : List Member) :
    memberBlock options (front ++ m :: back) = (front.flatMap fun n => memberText options n ++ ",\n".toList) ++
      (memberText options m ++ memberRest options back) := by
  induction front with
  | nil => exact memberBlock_cons options m back
  | cons n front ih =>
    obtain ⟨n', rest, parts⟩ := List.exists_cons_of_ne_nil
      (List.append_ne_nil_of_right_ne_nil front (List.cons_ne_nil m back))
    rw [List.cons_append, memberBlock_cons, parts, memberRest, ← parts, ih, List.flatMap_cons, List.append_assoc,
      List.append_assoc]

theorem memberBlock_injective (options : Options) : Function.Injective (memberBlock options) := by
  intro ms ns h
  induction ms generalizing ns with
  | nil =>
    cases ns with
    | nil => rfl
    | cons n ns => exact absurd h.symm (memberBlock_cons_ne options n ns)
  | cons m ms ih =>
    cases ns with
    | nil => exact absurd h (memberBlock_cons_ne options m ms)
    | cons n ns =>
      rw [memberBlock_cons, memberBlock_cons] at h
      obtain ⟨rfl, rest⟩ := memberText_append_inj (head?_memberRest options ms) (head?_memberRest options ns) h
      match ms, ns with
      | [], [] => rfl
      | [], n :: ns => exact absurd (List.cons.inj rest).1 (by decide)
      | m :: ms, [] => exact absurd (List.cons.inj rest).1 (by decide)
      | m' :: ms, n :: ns => rw [ih (List.append_cancel_left rest)]

/-- Each member is written, from the start of a line up to a comma or the end of the line. -/
theorem enumeration_of_mem (options : Options) {e : Resolved} {m : Member} (h : m ∈ e.members) : ∃ front back,
    enumeration options e = front ++ '\n' :: (memberText options m ++ back) ∧
    (back.head? = some ',' ∨ back.head? = some '\n') := by
  obtain ⟨before, after, parts⟩ := List.append_of_mem h
  let head := optionalDoc e.doc [] ++ "export enum ".toList ++ e.shortName
  have start : ∃ front, head ++ " \x7b\n".toList ++ (before.flatMap fun n => memberText options n ++ ",\n".toList) =
      front ++ ['\n'] := by
    rcases List.eq_nil_or_concat before with rfl | ⟨before, last, rfl⟩
    · exact ⟨head ++ " \x7b".toList, by simp⟩
    · refine ⟨head ++ " \x7b\n".toList ++ (before.flatMap fun n => memberText options n ++ ",\n".toList) ++
        memberText options last ++ [','], ?_⟩
      rw [List.concat_eq_append, List.flatMap_append, List.flatMap_singleton]
      simp
  obtain ⟨front, start⟩ := start
  refine ⟨front, memberRest options after ++ "\x7d\n".toList, ?_, ?_⟩
  · show head ++ " \x7b\n".toList ++ memberBlock options e.members ++ "\x7d\n".toList = _
    rw [parts, memberBlock_append, ← List.append_assoc _ _ (memberText options m ++ _), start]
    simp
  · cases after with
    | nil => exact .inr rfl
    | cons => exact .inl rfl

/-- **A file tells the members.** Under the same name and documentation, two enumerations are written the same iff they
have the same members in the same order: no name is taken for a part of another member, and no text for an integer. -/
theorem enumeration_eq_iff {e e' : Resolved} (name : e.shortName = e'.shortName) (doc : e.doc = e'.doc) :
    enumeration options e = enumeration options e' ↔ e.members = e'.members := by
  constructor
  · intro same
    rw [enumeration, enumeration, name, doc] at same
    exact memberBlock_injective options (List.append_cancel_left (List.append_cancel_right same))
  · intro same
    rw [enumeration, enumeration, name, doc, same]

/-- Quotes, a comma and the start of another member in a value, and digits in quotes. -/
theorem enumeration_eq_iff_quotes :
    enumeration .default { Entity.ofName (.enumeration (some .string)) "E".toList with
      members := [⟨"a".toList, .text "1',\n  b = '2".toList⟩] }.resolve ≠
    enumeration .default { Entity.ofName (.enumeration (some .string)) "E".toList with
      members := [⟨"a".toList, .text ['1']⟩, ⟨"b".toList, .text ['2']⟩] }.resolve ∧
    enumeration .default { Entity.ofName (.enumeration (some .integer)) "E".toList with
      members := [⟨['1'], .integer 1⟩] }.resolve ≠
    enumeration .default { Entity.ofName (.enumeration (some .string)) "E".toList with
      members := [⟨['1'], .text ['1']⟩] }.resolve := by
  refine ⟨fun same => ?_, fun same => ?_⟩
  · have members := (enumeration_eq_iff (by rfl) (by rfl)).1 same
    exact absurd members (by decide)
  · have members := (enumeration_eq_iff (by rfl) (by rfl)).1 same
    exact absurd members (by decide)

end DeclGen.TypeScript
