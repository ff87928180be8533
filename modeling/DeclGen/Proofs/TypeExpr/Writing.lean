import DeclGen.Proofs.TypeExpr.Acceptance
import DeclGen.Proofs.TypeNode.Normalized

/-!
# Writing types as type expressions

* `Spelling` : which names primitive types have, and in which quotes keys stand;
* `TypeNode.write` : a type as a type expression;
* `TypeNode.writtenNesting` : how deeply it is nested;
* `TypeNode.IsWritable` : what is asked of the names and keys in a type;
* `Writes` : a derivation of the written type that denotes the type; `exists_writes` : a normalized
  type has one;
* `diagnose_write` : a normalized type is read back, unless it is nested too deeply.
-/

namespace DeclGen

/-- Which of the names of a primitive type is written, and in which quotes a key stands. -/
structure Spelling where
  name : Primitive → Text
  quote : Text → Char
  named : ∀ kind, Primitive.ofName? (name kind) = some kind
  quotes : ∀ key, quote key = '\'' ∨ quote key = '"'
  /-- Unless a key has both quotes in it, it does not have its own. -/
  apart : ∀ key, '\'' ∉ key ∨ '"' ∉ key → quote key ∉ key

/-- The first of the names, and single quotes where possible. -/
def Spelling.plain : Spelling where
  name kind := ((Primitive.table.find? (·.2 = kind)).map Prod.fst).getD []
  quote key := if '\'' ∈ key then '"' else '\''
  named kind := by cases kind <;> decide +kernel
  quotes key := by split <;> simp
  apart key h := by
    split
    · next hm => exact h.resolve_left fun hn => hn hm
    · next hm => exact hm

namespace TypeNode

mutual

/-- The type as a type expression. -/
def write (s : Spelling) : TypeNode → Text
  | primitive kind => s.name kind
  | named name => name
  | array t => "list".toList ++ '<' :: write s t ++ ['>']
  | record es => "array".toList ++ '{' :: List.intercalate [',', ' '] (writtenEntries s es) ++ ['}']
  | dictionary k v => "array".toList ++ '<' :: write s k ++ [',', ' '] ++ write s v ++ ['>']
  | orNull t => '(' :: '?' :: write s t ++ [')']
  | oneOf ts => '(' :: List.intercalate ['|'] (writtenMembers s ts) ++ [')']

def writtenEntries (s : Spelling) : List (RecordEntry TypeNode) → List Text
  | [] => []
  | ⟨key, t, optional⟩ :: es =>
    (s.quote key :: key ++ s.quote key :: (if optional then ['?'] else []) ++ [':', ' '] ++ write s t) ::
      writtenEntries s es

def writtenMembers (s : Spelling) : List TypeNode → List Text
  | [] => []
  | t :: ts => write s t :: writtenMembers s ts

end

section Equations
variable (s : Spelling) (t : TypeNode) (ts : List TypeNode) (e : RecordEntry TypeNode)
  (es : List (RecordEntry TypeNode))

theorem write_record : (record es).write s =
    "array".toList ++ '{' :: List.intercalate [',', ' '] (writtenEntries s es) ++ ['}'] := rfl

theorem write_orNull : (orNull t).write s = '(' :: '?' :: write s t ++ [')'] := rfl

theorem write_oneOf :
    (oneOf ts).write s = '(' :: List.intercalate ['|'] (writtenMembers s ts) ++ [')'] := rfl

theorem writtenEntries_nil : writtenEntries s [] = [] := rfl

theorem writtenEntries_cons : writtenEntries s (e :: es) =
    (s.quote e.key :: e.key ++ s.quote e.key :: (if e.optional then ['?'] else []) ++ [':', ' '] ++
      write s e.type) :: writtenEntries s es := rfl

theorem writtenMembers_cons : writtenMembers s (t :: ts) = write s t :: writtenMembers s ts := rfl

end Equations

mutual

/-- How deeply the written type is nested. -/
def writtenNesting : TypeNode → Nat
  | primitive _ => 0
  | named _ => 0
  | array t => writtenNesting t + 1
  | record es => nestingOfEntries es + 1
  | dictionary k v => max (writtenNesting k) (writtenNesting v) + 1
  | orNull t => writtenNesting t + 2
  | oneOf ts => nestingOfMembers ts + 1

def nestingOfEntries : List (RecordEntry TypeNode) → Nat
  | [] => 0
  | ⟨_, t, _⟩ :: es => max (writtenNesting t) (nestingOfEntries es)

def nestingOfMembers : List TypeNode → Nat
  | [] => 0
  | t :: ts => max (writtenNesting t) (nestingOfMembers ts)

end

/-- What is asked of a node to be written: a name is read as the entity it names, and a key does not
have both quotes in it. -/
def IsWritable : TypeNode → Prop
  | named name => TypeExpr.IsName name ∧ TypeExpr.isCollection name = false ∧
    TypeExpr.resolveName name = named name
  | record es => ∀ e ∈ es, '\'' ∉ e.key ∨ '"' ∉ e.key
  | _ => True

end TypeNode

namespace TypeExpr

instance : DecidablePred IsName := fun name =>
  decidable_of_iff (name.head?.any isNameStart = true ∧ name.all inName = true)
    (and_congr_right' List.all_eq_true)

instance : DecidablePred TypeNode.IsWritable
  | .named name => inferInstanceAs
      (Decidable (IsName name ∧ isCollection name = false ∧ resolveName name = .named name))
  | .record es => inferInstanceAs (Decidable (∀ e ∈ es, '\'' ∉ e.key ∨ '"' ∉ e.key))
  | .primitive _ | .array _ | .dictionary _ _ | .orNull _ | .oneOf _ => isTrue trivial

/-! ## Derivations of what is written -/

/-- The derivation of an atom alone. -/
def Tree.ofAtom (a : Atom) : Tree := .union (.mk a 0) []

section OfAtom
variable (a : Atom)

@[simp] theorem Tree.tokens_ofAtom : (ofAtom a).tokens = a.tokens := by
  simp [ofAtom, tokens, memberTokens, Suffixed.tokens, bracketTokens]

@[simp] theorem Tree.nesting_ofAtom : (ofAtom a).nesting = a.nesting := by
  simp [ofAtom, nesting, memberNesting, Suffixed.nesting]

@[simp] theorem Tree.wellFormed_ofAtom {bound : Text → Prop} :
    (ofAtom a).WellFormed bound ↔ a.WellFormed bound := by
  simp [ofAtom, WellFormed, MembersWellFormed, Suffixed.WellFormed]

@[simp] theorem Tree.value_ofAtom : (ofAtom a).value = a.value := rfl

@[simp] theorem Tree.redeclared_ofAtom : (ofAtom a).redeclared = a.redeclared := by
  simp [ofAtom, redeclared, memberRedeclared, Suffixed.redeclared]

end OfAtom

/-- The atom is the derivation of the written type, and denotes the type. -/
structure Writes (s : Spelling) (t : TypeNode) (a : Atom) : Prop where
  wellFormed : a.WellFormed IsBound
  spells : ∀ rest, Spells a.tokens (t.write s ++ rest) rest
  nesting : a.nesting = t.writtenNesting
  value : a.value = t
  redeclared : a.redeclared = []

/-- The same for the members of a union after the first one. -/
structure WritesMembers (s : Spelling) (ts : List TypeNode) (ms : List (Bool × Suffixed)) : Prop where
  wellFormed : MembersWellFormed IsBound ms
  spells : ∀ rest, Spells (memberTokens ms)
    ((TypeNode.writtenMembers s ts).flatMap (['|'] ++ ·) ++ rest) rest
  nesting : memberNesting ms = TypeNode.nestingOfMembers ts
  values : memberValues ms = ts
  redeclared : memberRedeclared ms = []

/-- The same for the entries of a record. -/
structure WritesEntries (s : Spelling) (es : List (RecordEntry TypeNode))
    (trees : List (EntryTree Tree)) : Prop where
  wellFormed : EntriesWellFormed IsBound trees
  spells : ∀ rest, Spells (entryTokens false trees)
    (List.intercalate [',', ' '] (TypeNode.writtenEntries s es) ++ rest) rest
  nesting : entryNesting trees = TypeNode.nestingOfEntries es
  values : ∀ index, entryValues index trees = es
  redeclared : ∀ seen index, (∀ e ∈ es, e.key ∉ seen) → (keysOf es).Nodup →
    entryRedeclared seen index trees = []
  isEmpty : trees.isEmpty = es.isEmpty

section
variable {s : Spelling} {t k v : TypeNode} {a b : Atom}

/-- A written type and a closing mark. -/
theorem Writes.spells_mark (h : Writes s t a) (c : Char) (rest : Text) :
    Spells (a.tokens ++ [[c]]) (t.write s ++ c :: rest) rest :=
  Spells.append.2 ⟨c :: rest, h.spells _, spells_single [c] rest⟩

theorem Writes.spells_one (h : Writes s t a) (n rest : Text) :
    Spells (Atom.applied n [.type (.ofAtom a)]).tokens (n ++ '<' :: t.write s ++ ['>'] ++ rest) rest := by
  simpa [Atom.tokens, argumentTokens, tokenIf] using ((h.spells_mark '>' rest).token ['<']).token n

theorem Writes.spells_two (h : Writes s k a) (h' : Writes s v b) (n rest : Text) :
    Spells (Atom.applied n [.type (.ofAtom a), .type (.ofAtom b)]).tokens
      (n ++ '<' :: k.write s ++ [',', ' '] ++ v.write s ++ ['>'] ++ rest) rest := by
  have value : Spells (b.tokens ++ [['>']]) (' ' :: (v.write s ++ '>' :: rest)) rest :=
    (h'.spells_mark '>' rest).blank (by simp)
  have both : Spells (a.tokens ++ [','] :: (b.tokens ++ [['>']]))
      (k.write s ++ ([','] ++ ' ' :: (v.write s ++ '>' :: rest))) rest :=
    Spells.append.2 ⟨_, h.spells _, value.token [',']⟩
  simpa [Atom.tokens, argumentTokens, tokenIf] using (both.token ['<']).token n

theorem Writes.array (h : Writes s t a) :
    Writes s (.array t) (.applied "list".toList [.type (.ofAtom a)]) where
  wellFormed := ⟨isName_of_isCollection (by decide), by simp, fun _ => by simp,
    (Tree.wellFormed_ofAtom a).2 h.wellFormed, trivial⟩
  spells := h.spells_one "list".toList
  nesting := by
    simp [Atom.nesting, argumentNesting, TypeNode.writtenNesting, h.nesting]
  value := by
    have hc : isCollection "list".toList = true := by decide
    rw [Atom.value, if_pos hc, argumentValues, argumentValues, Tree.value_ofAtom, h.value]
    rfl
  redeclared := by
    simp [Atom.redeclared, argumentRedeclared, h.redeclared]

theorem Writes.dictionary (h : Writes s k a) (h' : Writes s v b) :
    Writes s (.dictionary k v) (.applied "array".toList [.type (.ofAtom a), .type (.ofAtom b)]) where
  wellFormed := ⟨isName_of_isCollection (by decide), by simp, fun _ => by simp,
    (Tree.wellFormed_ofAtom a).2 h.wellFormed, (Tree.wellFormed_ofAtom b).2 h'.wellFormed, trivial⟩
  spells := h.spells_two h' "array".toList
  nesting := by
    simp [Atom.nesting, argumentNesting, TypeNode.writtenNesting, h.nesting, h'.nesting]
  value := by
    have hc : isCollection "array".toList = true := by decide
    rw [Atom.value, if_pos hc]
    simp only [argumentValues, Tree.value_ofAtom, h.value, h'.value]
    rfl
  redeclared := by
    simp [Atom.redeclared, argumentRedeclared, h.redeclared, h'.redeclared]

theorem Writes.orNull (h : Writes s t a) (hn : t.IsNonNull) :
    Writes s (.orNull t) (.parenthesized (.nullable (.ofAtom a))) where
  wellFormed := (Tree.wellFormed_ofAtom a).2 h.wellFormed
  spells rest := by
    rw [TypeNode.write_orNull]
    simpa [Atom.tokens, Tree.tokens] using ((h.spells_mark ')' rest).token ['?']).token ['(']
  nesting := by
    simp [Atom.nesting, Tree.nesting, TypeNode.writtenNesting, h.nesting]
  value := by
    rw [Atom.value, Tree.value, Tree.value_ofAtom, h.value, TypeNode.nullable_of_isNonNull hn]
  redeclared := by
    rw [Atom.redeclared, Tree.redeclared, Tree.redeclared_ofAtom, h.redeclared]

/-! ## Names -/

/-- The names of primitive types are names, and are read as what they name. -/
theorem plainName_of_ofName? {name : Text} {kind : Primitive}
    (h : Primitive.ofName? name = some kind) : IsName name ∧ plainName name = .primitive kind := by
  have names : ∀ p ∈ Primitive.table, IsName p.1 ∧ plainName p.1 = .primitive p.2 := by decide +kernel
  exact names _ (Primitive.mem_table_of_ofName? h)

theorem writes_primitive (s : Spelling) (kind : Primitive) :
    Writes s (.primitive kind) (.name (s.name kind)) where
  wellFormed := (plainName_of_ofName? (s.named kind)).1
  spells := spells_single (s.name kind)
  nesting := rfl
  value := (plainName_of_ofName? (s.named kind)).2
  redeclared := rfl

theorem writes_named (s : Spelling) {name : Text} (h : (TypeNode.named name).IsWritable) :
    Writes s (.named name) (.name name) where
  wellFormed := h.1
  spells := spells_single name
  nesting := rfl
  value := by
    obtain ⟨-, hc, hr⟩ := h
    simp only [Atom.value, plainName, hc, hr, Bool.false_eq_true, if_false]
  redeclared := rfl

/-! ## Unions -/

theorem writesMembers_nil (s : Spelling) : WritesMembers s [] [] where
  wellFormed := trivial
  spells _ := rfl
  nesting := rfl
  values := rfl
  redeclared := rfl

theorem WritesMembers.cons {ts : List TypeNode} {ms : List (Bool × Suffixed)}
    (h : WritesMembers s ts ms) (ha : Writes s t a) :
    WritesMembers s (t :: ts) ((false, .mk a 0) :: ms) where
  wellFormed := ⟨ha.wellFormed, h.wellFormed⟩
  spells rest := by
    have both := Spells.append.2 ⟨_, ha.spells _, h.spells rest⟩
    simpa [memberTokens, tokenIf, Suffixed.tokens, bracketTokens, TypeNode.writtenMembers_cons] using
      both.token ['|']
  nesting := by
    simp [memberNesting, Suffixed.nesting, TypeNode.nestingOfMembers, ha.nesting, h.nesting]
  values := by
    simp [memberValues, Suffixed.value, arrayOf, ha.value, h.values]
  redeclared := by
    simp [memberRedeclared, Suffixed.redeclared, ha.redeclared, h.redeclared]

theorem exists_writesMembers {ts : List TypeNode} (h : ∀ t ∈ ts, ∃ a, Writes s t a) :
    ∃ ms, WritesMembers s ts ms := by
  induction ts with
  | nil => exact ⟨[], writesMembers_nil s⟩
  | cons t ts ih =>
    obtain ⟨⟨a, ha⟩, hts⟩ := List.forall_mem_cons.1 h
    obtain ⟨ms, hms⟩ := ih hts
    exact ⟨_, hms.cons ha⟩

theorem intercalate_cons_eq (separator part : Text) (parts : List Text) :
    List.intercalate separator (part :: parts) = part ++ parts.flatMap (separator ++ ·) := by
  induction parts generalizing part with
  | nil => simp
  | cons next parts ih =>
    rw [List.intercalate_cons_cons, ih, List.flatMap_cons, List.append_assoc, List.append_assoc]

theorem exists_writes_oneOf {ts : List TypeNode} (h : ∀ t ∈ ts, ∃ a, Writes s t a)
    (hn : (TypeNode.oneOf ts).IsNormal) : ∃ a, Writes s (.oneOf ts) a := by
  obtain ⟨t, u, ts, rfl⟩ : ∃ t u us, ts = t :: u :: us := by
    match ts, hn.1 with
    | t :: u :: us, _ => exact ⟨t, u, us, rfl⟩
  obtain ⟨⟨a, ha⟩, hts⟩ := List.forall_mem_cons.1 h
  obtain ⟨ms, hms⟩ := exists_writesMembers hts
  obtain ⟨m, ms, rfl⟩ : ∃ m ms', ms = m :: ms' := by
    refine List.exists_cons_of_ne_nil ?_
    rintro rfl
    exact absurd hms.values (by simp [memberValues])
  refine ⟨.parenthesized (.union (.mk a 0) (m :: ms)), ⟨ha.wellFormed, hms.wellFormed⟩, fun rest => ?_,
    ?_, ?_, ?_⟩
  · have closed := Spells.append.2 ⟨_, hms.spells (')' :: rest), spells_single [')'] rest⟩
    have all := Spells.append.2 ⟨_, ha.spells _, closed⟩
    rw [TypeNode.write_oneOf, TypeNode.writtenMembers_cons, intercalate_cons_eq]
    simpa [Atom.tokens, Tree.tokens, Suffixed.tokens, bracketTokens] using all.token ['(']
  · simp only [Atom.nesting, Tree.nesting, Suffixed.nesting, ha.nesting, hms.nesting]
    rfl
  · rw [Atom.value, Tree.value, Suffixed.value, arrayOf, ha.value, hms.values]
    exact TypeNode.union_of_isNormal hn
  · simp [Atom.redeclared, Tree.redeclared, Suffixed.redeclared, ha.redeclared, hms.redeclared]

/-! ## Records -/

theorem entryTokens_ne_nil {trees : List (EntryTree Tree)} (h : EntriesWellFormed IsBound trees)
    (hne : trees ≠ []) : entryTokens false trees ≠ [] := by
  obtain ⟨⟨key, t⟩, trees, rfl⟩ := List.exists_cons_of_ne_nil hne
  have ht := (Tree.opens h.2.1).ne_nil
  simp [entryTokens, ht]

/-- A written entry, whatever follows it. -/
theorem Writes.spells_entry (h : Writes s t a) (key : Text) (optional : Bool) {tokens : List Text}
    {following rest : Text} (hf : Spells tokens following rest) :
    Spells (keyTokens (some (.quoted (s.quote key) key, optional)) ++ a.tokens ++ tokens)
      (s.quote key :: key ++ s.quote key :: (if optional then ['?'] else []) ++ [':', ' '] ++
        t.write s ++ following) rest := by
  have type : Spells (a.tokens ++ tokens) (' ' :: (t.write s ++ following)) rest := by
    refine (Spells.append.2 ⟨following, h.spells _, hf⟩).blank ?_
    simp [(Atom.opens h.wellFormed).ne_nil]
  cases optional with
  | true => simpa [keyTokens, tokenIf, Key.token] using
      ((type.token [':']).token ['?']).token (s.quote key :: key ++ [s.quote key])
  | false => simpa [keyTokens, tokenIf, Key.token] using
      (type.token [':']).token (s.quote key :: key ++ [s.quote key])

theorem writesEntries_nil (s : Spelling) : WritesEntries s [] [] where
  wellFormed := trivial
  spells _ := rfl
  nesting := rfl
  values _ := rfl
  redeclared _ _ _ _ := rfl
  isEmpty := rfl

theorem WritesEntries.cons {e : RecordEntry TypeNode} {es : List (RecordEntry TypeNode)}
    {trees : List (EntryTree Tree)} (h : WritesEntries s es trees) (ha : Writes s e.type a)
    (hkey : '\'' ∉ e.key ∨ '"' ∉ e.key) :
    WritesEntries s (e :: es)
      (⟨some (.quoted (s.quote e.key) e.key, e.optional), .ofAtom a⟩ :: trees) where
  wellFormed := by
    have key : Key.WellFormed (.quoted (s.quote e.key) e.key) := ⟨s.quotes e.key, s.apart e.key hkey⟩
    exact ⟨fun k hk => Option.mem_some_iff.1 hk ▸ key, (Tree.wellFormed_ofAtom a).2 ha.wellFormed,
      h.wellFormed⟩
  spells rest := by
    cases es with
    | nil =>
      obtain rfl : trees = [] := List.isEmpty_iff.1 h.isEmpty
      have entry := ha.spells_entry e.key e.optional (show Spells [] rest rest from rfl)
      simpa [entryTokens, tokenIf, TypeNode.writtenEntries_cons, TypeNode.writtenEntries_nil] using entry
    | cons d ds =>
      have hne : trees ≠ [] := by
        rintro rfl
        exact absurd h.isEmpty (by simp)
      have others := ((h.spells rest).blank (entryTokens_ne_nil h.wellFormed hne)).token [',']
      have entry := ha.spells_entry e.key e.optional others
      rw [TypeNode.writtenEntries_cons] at entry ⊢
      rw [TypeNode.writtenEntries_cons, List.intercalate_cons_cons]
      simpa [entryTokens, tokenIf, hne] using entry
  nesting := by
    simp [entryNesting, TypeNode.nestingOfEntries, ha.nesting, h.nesting]
  values index := by
    simp only [entryValues, Tree.value_ofAtom, ha.value, h.values]
    rfl
  redeclared seen index hseen hn := by
    obtain ⟨hnot, hn⟩ := List.nodup_cons.1 hn
    obtain ⟨hfree, hseen⟩ := List.forall_mem_cons.1 hseen
    have later : ∀ d ∈ es, d.key ∉ e.key :: seen := by
      intro d hd hm
      rcases List.mem_cons.1 hm with he | hm
      · exact hnot (he ▸ List.mem_map_of_mem hd)
      · exact hseen d hd hm
    simp [entryRedeclared, ha.redeclared, keyAt, Key.name, hfree, h.redeclared _ _ later hn]
  isEmpty := rfl

theorem exists_writesEntries {es : List (RecordEntry TypeNode)}
    (h : ∀ e ∈ es, ∃ a, Writes s e.type a) (hkeys : (TypeNode.record es).IsWritable) :
    ∃ trees, WritesEntries s es trees := by
  induction es with
  | nil => exact ⟨[], writesEntries_nil s⟩
  | cons e es ih =>
    obtain ⟨⟨a, ha⟩, hes⟩ := List.forall_mem_cons.1 h
    obtain ⟨hkey, hkeys⟩ := List.forall_mem_cons.1 hkeys
    obtain ⟨trees, htrees⟩ := ih hes hkeys
    exact ⟨_, htrees.cons ha hkey⟩

/-- Entries with distinct keys are declared as they stand. -/
theorem declareAll_eq_append {declared entries : List (RecordEntry TypeNode)}
    (h : (keysOf (declared ++ entries)).Nodup) : declareAll declared entries = declared ++ entries := by
  induction entries generalizing declared with
  | nil => exact (List.append_nil declared).symm
  | cons e es ih =>
    have hm : e.key ∉ keysOf declared := by
      intro hm
      rw [keysOf, List.map_append, List.nodup_append] at h
      exact h.2.2 _ hm _ List.mem_cons_self rfl
    show declareAll (declare e declared).1 es = _
    rw [declare_of_notMem e declared hm, ih (by rwa [List.append_assoc]), List.append_assoc]
    rfl

theorem exists_writes_record {es : List (RecordEntry TypeNode)}
    (h : ∀ e ∈ es, ∃ a, Writes s e.type a) (hkeys : (TypeNode.record es).IsWritable)
    (hn : (TypeNode.record es).IsNormal) : ∃ a, Writes s (.record es) a := by
  obtain ⟨trees, htrees⟩ := exists_writesEntries h hkeys
  refine ⟨.record (some "array".toList) trees false, ⟨?_, by simp, htrees.wellFormed⟩, fun rest => ?_,
    ?_, ?_, ?_⟩
  · exact fun k hk => Option.mem_some_iff.1 hk ▸ (by decide)
  · have closed := Spells.append.2 ⟨_, htrees.spells ('}' :: rest), spells_single ['}'] rest⟩
    rw [TypeNode.write_record]
    -- As a literal, the keyword would be opened letter by letter.
    generalize "array".toList = keyword
    simpa [Atom.tokens] using (closed.token ['{']).token keyword
  · rw [Atom.nesting, htrees.nesting]
    rfl
  · have declared : declareAll [] es = [] ++ es := declareAll_eq_append hn
    rw [Atom.value, htrees.values, declared, List.nil_append]
  · rw [Atom.redeclared, htrees.redeclared [] 0 (by simp) hn]

/-- A normalized type has a derivation of the way it is written. -/
theorem exists_writes (s : Spelling) (t : TypeNode) :
    t.All TypeNode.IsNormal → t.All TypeNode.IsWritable → ∃ a, Writes s t a := by
  induction t using TypeNode.induction with
  | primitive kind => exact fun _ _ => ⟨_, writes_primitive s kind⟩
  | named name => exact fun _ hw => ⟨_, writes_named s (TypeNode.all_named_iff.1 hw)⟩
  | array t ih =>
    intro hn hw
    obtain ⟨a, ha⟩ := ih (TypeNode.all_array_iff.1 hn).2 (TypeNode.all_array_iff.1 hw).2
    exact ⟨_, ha.array⟩
  | record es ih =>
    intro hn hw
    obtain ⟨hnormal, hn⟩ := TypeNode.all_record_iff.1 hn
    obtain ⟨hkeys, hw⟩ := TypeNode.all_record_iff.1 hw
    exact exists_writes_record (fun e he => ih e he (hn e he) (hw e he)) hkeys hnormal
  | dictionary k v ihk ihv =>
    intro hn hw
    obtain ⟨-, hnk, hnv⟩ := TypeNode.all_dictionary_iff.1 hn
    obtain ⟨-, hwk, hwv⟩ := TypeNode.all_dictionary_iff.1 hw
    obtain ⟨a, ha⟩ := ihk hnk hwk
    obtain ⟨b, hb⟩ := ihv hnv hwv
    exact ⟨_, ha.dictionary hb⟩
  | orNull t ih =>
    intro hn hw
    obtain ⟨hnormal, hn⟩ := TypeNode.all_orNull_iff.1 hn
    obtain ⟨a, ha⟩ := ih hn (TypeNode.all_orNull_iff.1 hw).2
    exact ⟨_, ha.orNull hnormal⟩
  | oneOf ts ih =>
    intro hn hw
    obtain ⟨hnormal, hn⟩ := TypeNode.all_oneOf_iff.1 hn
    obtain ⟨-, hw⟩ := TypeNode.all_oneOf_iff.1 hw
    exact exists_writes_oneOf (fun t ht => ih t ht (hn t ht) (hw t ht)) hnormal

end

/-- **Types are read back.** A normalized type whose names are read as entities and whose keys can be
quoted is read back from the way it is written, without warnings, if and only if it is not nested too
deeply. -/
theorem diagnose_write (s : Spelling) {t : TypeNode} (hn : t.All TypeNode.IsNormal)
    (hw : t.All TypeNode.IsWritable) :
    diagnose (t.write s) = ⟨t, []⟩ ↔ t.writtenNesting ≤ maxNesting := by
  obtain ⟨a, ha⟩ := exists_writes s t hn hw
  have wellFormed := (Tree.wellFormed_ofAtom a).2 ha.wellFormed
  have spells : Spells (Tree.ofAtom a).tokens (t.write s) [] := by
    simpa using ha.spells []
  have nesting : (Tree.ofAtom a).nesting = t.writtenNesting := by rw [Tree.nesting_ofAtom, ha.nesting]
  rw [← nesting]
  constructor
  · intro h
    have accepted : Accepted (t.write s) := by
      rw [Accepted, h]
      simp
    obtain ⟨e, he⟩ := accepted_iff.1 accepted
    -- There is no other derivation, so this one is not nested too deeply.
    obtain ⟨rest, hs, hblank⟩ := he.spells
    have hb : Before closers rest := Before.of_blank (skipSpacing_eq_nil_iff.2 hblank)
    have same := Tree.unique _ e wellFormed he.wellFormed spells hs (Before.of_blank rfl) hb
    exact same ▸ he.nesting_le
  · intro hle
    have derives : Derives IsBound (Tree.ofAtom a) (t.write s) :=
      ⟨wellFormed, hle, [], spells, by simp⟩
    rw [diagnose_of_derives derives, Tree.value_ofAtom, ha.value, Tree.redeclared_ofAtom, ha.redeclared]
    rfl

/-- A record with a key in double quotes. -/
theorem diagnose_write_record :
    ∃ t : TypeNode, t.write .plain =
        "array\x7b'ids': list<int>, \"it's\"?: (?(App\\Item|array<string, mixed>))\x7d".toList ∧
      t.All TypeNode.IsNormal ∧ t.All TypeNode.IsWritable ∧ t.writtenNesting = 5 ∧
      diagnose (t.write .plain) = ⟨t, []⟩ := by
  let items : TypeNode := .oneOf [.named "App\\Item".toList, .dictionary (.primitive .string) .any]
  let t : TypeNode := .record [⟨"ids".toList, .array (.primitive .integer), false⟩,
    ⟨"it's".toList, .orNull items, true⟩]
  have hn : t.All TypeNode.IsNormal := by decide +kernel
  have hw : t.All TypeNode.IsWritable := by decide +kernel
  exact ⟨t, by decide +kernel, hn, hw, rfl, (diagnose_write .plain hn hw).2 (by decide)⟩

end TypeExpr

end DeclGen
