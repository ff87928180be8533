import DeclGen.Proofs.TypeExpr.Denotation

/-!
# Records

A record declares each key at the place of its first entry, with the type and the question mark of its last one. The
entries that declare a key again are told in the order in which they end, those of records inside of them before.

* `writtenKeys`, `writtenEntries` : the entries of a record as they stand;
* `Occurrence` : an entry with the tokens up to its end; `Tree.records` : all records of a derivation;
* `Reports`, `Tree.reports` : the keys that are told, production by production;
* `diagnose_records` : the entries of a record text, and the warnings of any text.
-/

namespace DeclGen.TypeExpr

variable {front : List Text} {key : Option (Key × Bool)} {t : Tree} {es : List (EntryTree Tree)}

/-! ## Entries as they are written -/

/-- How many of the entries before the place `i` have no key. -/
def rank (es : List (EntryTree Tree)) (i : Nat) : Nat := (es.take i).countP (·.key.isNone)

/-- The keys of the entries if `index` entries without a key precede them; an entry without a key has its rank for
one. -/
def writtenKeys (index : Nat) (es : List (EntryTree Tree)) : List Text :=
  es.mapIdx fun i e => keyAt (index + rank es i) e.key

/-- The entries as they stand, if `index` entries without a key precede them. -/
def writtenEntries (index : Nat) (es : List (EntryTree Tree)) : List (RecordEntry TypeNode) :=
  es.mapIdx fun i e => ⟨keyAt (index + rank es i) e.key, e.type.value, isOptional e.key⟩

@[simp] theorem rank_zero (es : List (EntryTree Tree)) : rank es 0 = 0 := rfl

theorem rank_succ (key : Option (Key × Bool)) (t : Tree) (es : List (EntryTree Tree)) (index i : Nat) :
    index + rank (⟨key, t⟩ :: es) (i + 1) = nextIndex index key + rank es i := by
  cases key with
  | none => simp [rank, nextIndex]; omega
  | some key => simp [rank, nextIndex]

theorem writtenKeys_cons (index : Nat) : writtenKeys index (⟨key, t⟩ :: es) =
    keyAt index key :: writtenKeys (nextIndex index key) es := by
  simp only [writtenKeys, List.mapIdx_cons, rank_zero, rank_succ, Nat.add_zero]

theorem entryValues_eq (index : Nat) (es : List (EntryTree Tree)) :
    entryValues index es = writtenEntries index es := by
  induction es generalizing index with
  | nil => rfl
  | cons e es ih =>
    obtain ⟨key, t⟩ := e
    rw [entryValues, ih]
    simp only [writtenEntries, List.mapIdx_cons, rank_zero, rank_succ, Nat.add_zero]

/-! ## Entries where they stand -/

/-- An entry of a record: the tokens of the annotation up to its end, its key, and whether an entry before it in the
record has that key. -/
structure Occurrence where
  upto : List Text
  key : Text
  again : Bool
  deriving DecidableEq, Repr

/-- The entries, if the tokens `front` and entries with the keys `seen`, `index` of them without a key, precede them. -/
def occurrencesFrom (front seen : List Text) (index : Nat) (es : List (EntryTree Tree)) : List Occurrence :=
  es.mapIdx fun i e =>
    let key := keyAt (index + rank es i) e.key
    ⟨front ++ entryTokens true (es.take i) ++ keyTokens e.key ++ e.type.tokens, key,
      key ∈ seen ++ (writtenKeys index es).take i⟩

/-- A record where it stands: the tokens of the annotation before its first entry, and its entries. -/
structure RecordAt where
  front : List Text
  entries : List (EntryTree Tree)

def RecordAt.occurrences (r : RecordAt) : List Occurrence := occurrencesFrom r.front [] 0 r.entries

mutual

/-- All records in a type, if the tokens `front` precede it. -/
def Tree.records (front : List Text) : Tree → List RecordAt
  | .nullable t => t.records (front ++ [['?']])
  | .union s ms => s.records front ++ memberRecords (front ++ s.tokens) ms

def memberRecords (front : List Text) : List (Bool × Suffixed) → List RecordAt
  | [] => []
  | (mark, s) :: ms =>
    s.records (front ++ ['|'] :: tokenIf mark '?') ++
      memberRecords (front ++ (['|'] :: tokenIf mark '?' ++ s.tokens)) ms

def Suffixed.records (front : List Text) : Suffixed → List RecordAt
  | .mk a _ => a.records front

def Atom.records (front : List Text) : Atom → List RecordAt
  | .name _ => []
  | .record keyword es _ =>
    ⟨front ++ (keyword.toList ++ [['{']]), es⟩ :: entryRecords (front ++ (keyword.toList ++ [['{']])) es
  | .applied n as => argumentRecords (front ++ [n, ['<']]) as
  | .parenthesized t => t.records (front ++ [['(']])

def entryRecords (front : List Text) : List (EntryTree Tree) → List RecordAt
  | [] => []
  | ⟨key, t⟩ :: es =>
    t.records (front ++ keyTokens key) ++ entryRecords (front ++ keyTokens key ++ t.tokens ++ [[',']]) es

def argumentRecords (front : List Text) : List (ArgumentTree Tree) → List RecordAt
  | [] => []
  | .type t :: as => t.records front ++ argumentRecords (front ++ t.tokens ++ [[',']]) as
  | .bound word :: as => argumentRecords (front ++ [word, [',']]) as

end

/-- The entries of all these records. -/
abbrev occurrencesOf (records : List RecordAt) : List Occurrence := records.flatMap RecordAt.occurrences

theorem occurrencesFrom_cons (front seen : List Text) (index : Nat) (key : Option (Key × Bool)) (t : Tree)
    (es : List (EntryTree Tree)) : occurrencesFrom front seen index (⟨key, t⟩ :: es) =
      ⟨front ++ keyTokens key ++ t.tokens, keyAt index key, keyAt index key ∈ seen⟩ ::
        occurrencesFrom (front ++ keyTokens key ++ t.tokens ++ [[',']]) (keyAt index key :: seen)
          (nextIndex index key) es := by
  have tokens (i : Nat) : front ++ entryTokens true (⟨key, t⟩ :: es.take i) =
      front ++ keyTokens key ++ t.tokens ++ [[',']] ++ entryTokens true (es.take i) := by
    simp [entryTokens, tokenIf]
  have known (i : Nat) (k : Text) : (k ∈ seen ++ keyAt index key :: (writtenKeys (nextIndex index key) es).take i) ↔
      k ∈ keyAt index key :: seen ++ (writtenKeys (nextIndex index key) es).take i := by
    simp [or_left_comm]
  simp only [occurrencesFrom, List.mapIdx_cons, writtenKeys_cons, List.take_succ_cons, List.take_zero, rank_zero,
    rank_succ, Nat.add_zero, List.append_nil, tokens, known]
  simp [entryTokens]

/-- No key is declared again iff the keys are distinct and none of them was seen before. -/
theorem again_eq_false_iff (front seen : List Text) (index : Nat) (es : List (EntryTree Tree)) :
    (∀ o ∈ occurrencesFrom front seen index es, o.again = false) ↔
      (writtenKeys index es).Nodup ∧ ∀ k ∈ writtenKeys index es, k ∉ seen := by
  induction es generalizing front seen index with
  | nil => simp [occurrencesFrom, writtenKeys]
  | cons e es ih =>
    obtain ⟨key, t⟩ := e
    rw [occurrencesFrom_cons, writtenKeys_cons, List.forall_mem_cons, ih, List.nodup_cons, List.forall_mem_cons]
    simp only [decide_eq_false_iff_not, List.mem_cons, not_or]
    constructor
    · rintro ⟨new, distinct, others⟩
      exact ⟨⟨fun hm => (others _ hm).1 rfl, distinct⟩, new, fun k hk => (others k hk).2⟩
    · rintro ⟨⟨here, distinct⟩, new, others⟩
      exact ⟨new, distinct, fun k hk => ⟨fun h => here (h ▸ hk), others k hk⟩⟩

/-! ## Keys declared again -/

/-- The keys are those of the entries that declare one again, in the order in which these end. All of them end behind
the first `start` tokens of `whole`, and before its last one. -/
def Reports (start : Nat) (whole keys : List Text) (occurrences : List Occurrence) : Prop :=
  ∃ told : List Occurrence, told.Perm (occurrences.filter (·.again)) ∧
    told.Pairwise (·.upto.length < ·.upto.length) ∧
    (∀ o ∈ told, start ≤ o.upto.length ∧ o.upto <+: whole ∧ o.upto.length < whole.length) ∧
    keys = told.map (·.key)

namespace Reports
variable {start : Nat} {mid next more whole keys keys' : List Text} {os os' : List Occurrence}

theorem nil (start : Nat) (whole : List Text) : Reports start whole [] [] :=
  ⟨[], .refl _, .nil, fun _ h => absurd h List.not_mem_nil, rfl⟩

/-- An entry is told if it declares its key again. -/
theorem entry (o : Occurrence) (h : more ≠ []) :
    Reports o.upto.length (o.upto ++ more) (if o.again then [o.key] else []) [o] := by
  have behind : o.upto.length < (o.upto ++ more).length := by
    rw [List.length_append]
    exact Nat.lt_add_of_pos_right (List.length_pos_iff.2 h)
  cases again : o.again with
  | false => exact ⟨[], by simp [again], .nil, fun _ h => absurd h List.not_mem_nil, rfl⟩
  | true =>
    refine ⟨[o], by simp [again], List.pairwise_singleton _ o, fun o' ho => ?_, rfl⟩
    obtain rfl := List.mem_singleton.1 ho
    exact ⟨Nat.le_refl _, List.prefix_append _ _, behind⟩

theorem perm (h : Reports start whole keys os) (hp : os.Perm os') : Reports start whole keys os' := by
  obtain ⟨told, perm, rest⟩ := h
  exact ⟨told, perm.trans (hp.filter _), rest⟩

theorem after {gap : List Text} (h : Reports (front ++ gap).length whole keys os) :
    Reports front.length whole keys os := by
  obtain ⟨told, perm, sorted, range, rfl⟩ := h
  refine ⟨told, perm, sorted, fun o ho => ⟨?_, (range o ho).2⟩, rfl⟩
  exact Nat.le_trans (List.prefix_append _ _).length_le (range o ho).1

theorem extend (h : Reports start mid keys os) (more : List Text) : Reports start (mid ++ more) keys os := by
  obtain ⟨told, perm, sorted, range, rfl⟩ := h
  refine ⟨told, perm, sorted, fun o ho => ?_, rfl⟩
  obtain ⟨behind, inside, before⟩ := range o ho
  have longer : mid <+: mid ++ more := List.prefix_append _ _
  exact ⟨behind, inside.trans longer, Nat.lt_of_lt_of_le before longer.length_le⟩

/-- What is told of one part comes before what is told of the next. -/
theorem append (h : Reports start mid keys os) (h' : Reports next.length (next ++ more) keys' os')
    (hs : start ≤ mid.length) (hn : mid <+: next) : Reports start (next ++ more) (keys ++ keys') (os ++ os') := by
  obtain ⟨told, perm, sorted, range, rfl⟩ := h
  obtain ⟨told', perm', sorted', range', rfl⟩ := h'
  have hw : mid <+: next ++ more := hn.trans (List.prefix_append _ _)
  refine ⟨told ++ told', ?_, ?_, ?_, by rw [List.map_append]⟩
  · rw [List.filter_append]
    exact perm.append perm'
  · refine List.pairwise_append.2 ⟨sorted, sorted', fun o ho o' ho' => ?_⟩
    exact Nat.lt_of_lt_of_le (range o ho).2.2 (Nat.le_trans hn.length_le (range' o' ho').1)
  · intro o ho
    rcases List.mem_append.1 ho with ho | ho
    · obtain ⟨behind, inside, before⟩ := range o ho
      exact ⟨behind, inside.trans hw, Nat.lt_of_lt_of_le before hw.length_le⟩
    · obtain ⟨behind, inside⟩ := range' o ho
      exact ⟨Nat.le_trans hs (Nat.le_trans hn.length_le behind), inside⟩

end Reports

/-! ## Derivations -/

theorem perm_entry (o : Occurrence) (inner own others : List Occurrence) :
    (inner ++ [o] ++ (own ++ others)).Perm (o :: own ++ (inner ++ others)) := by
  refine List.perm_iff_count.2 fun x => ?_
  simp only [List.cons_append, List.count_append, List.count_cons, List.count_nil]
  omega

mutual

/-- The keys declared again in a type are told in the order in which the entries end. -/
theorem Tree.reports : ∀ (front : List Text) (e : Tree),
    Reports front.length (front ++ e.tokens) e.redeclared (occurrencesOf (e.records front))
  | front, .nullable t => by
    have inner := (Tree.reports (front ++ [['?']]) t).after
    rwa [List.append_assoc] at inner
  | front, .union s ms => by
    have joined := (Suffixed.reports front s).append (memberReports (front ++ s.tokens) ms) (by simp) List.prefix_rfl
    rwa [← List.flatMap_append, List.append_assoc] at joined

theorem memberReports : ∀ (front : List Text) (ms : List (Bool × Suffixed)),
    Reports front.length (front ++ memberTokens ms) (memberRedeclared ms) (occurrencesOf (memberRecords front ms))
  | front, [] => .nil _ _
  | front, (mark, s) :: ms => by
    have first := (Suffixed.reports (front ++ ['|'] :: tokenIf mark '?') s).after
    rw [List.append_assoc] at first
    have joined := first.append (memberReports _ ms) (by simp) List.prefix_rfl
    rwa [← List.flatMap_append, List.append_assoc] at joined

theorem Suffixed.reports : ∀ (front : List Text) (s : Suffixed),
    Reports front.length (front ++ s.tokens) s.redeclared (occurrencesOf (s.records front))
  | front, .mk a n => by
    have inner := (Atom.reports front a).extend (bracketTokens n)
    rwa [List.append_assoc] at inner

theorem Atom.reports : ∀ (front : List Text) (a : Atom),
    Reports front.length (front ++ a.tokens) a.redeclared (occurrencesOf (a.records front))
  | front, .name n => .nil _ _
  | front, .record keyword es comma => by
    have inner := (entryReports (front ++ (keyword.toList ++ [['{']])) [] 0 comma es).after
    have tokens : front ++ (Atom.record keyword es comma).tokens =
        front ++ (keyword.toList ++ [['{']]) ++ (entryTokens comma es ++ [['}']]) := by simp [Atom.tokens]
    rwa [← tokens] at inner
  | front, .applied n as => by
    have inner := ((argumentReports (front ++ [n, ['<']]) as).extend [['>']]).after
    rwa [List.append_assoc, List.append_assoc] at inner
  | front, .parenthesized t => by
    have inner := ((Tree.reports (front ++ [['(']]) t).extend [[')']]).after
    rwa [List.append_assoc, List.append_assoc] at inner

/-- An entry ends before the token that follows it, a comma or the closing brace. -/
theorem entryReports : ∀ (front seen : List Text) (index : Nat) (comma : Bool) (es : List (EntryTree Tree)),
    Reports front.length (front ++ (entryTokens comma es ++ [['}']])) (entryRedeclared seen index es)
      (occurrencesFrom front seen index es ++ occurrencesOf (entryRecords front es))
  | front, _, _, _, [] => .nil _ _
  | front, seen, index, comma, ⟨key, t⟩ :: es => by
    let upto := front ++ keyTokens key ++ t.tokens
    let o : Occurrence := ⟨upto, keyAt index key, keyAt index key ∈ seen⟩
    have inner := (Tree.reports (front ++ keyTokens key) t).after
    -- The entry itself ends behind all those inside of its type, and a token follows it.
    have here (more : List Text) (h : more ≠ []) := inner.append (Reports.entry o h) (by simp) List.prefix_rfl
    have joined : Reports front.length (front ++ (entryTokens comma (⟨key, t⟩ :: es) ++ [['}']]))
        (entryRedeclared seen index (⟨key, t⟩ :: es))
        (occurrencesOf (t.records (front ++ keyTokens key)) ++ [o] ++
          (occurrencesFrom (upto ++ [[',']]) (keyAt index key :: seen) (nextIndex index key) es ++
            occurrencesOf (entryRecords (upto ++ [[',']]) es))) := by
      cases es with
      | nil =>
        have whole := here (tokenIf comma ',' ++ [['}']]) (by simp)
        simpa [entryTokens, entryRedeclared, occurrencesFrom, entryRecords, upto, o] using whole
      | cons e es =>
        have whole := (here [[',']] (by simp)).append (entryReports (upto ++ [[',']]) (keyAt index key :: seen)
          (nextIndex index key) comma (e :: es)) (by simp [upto, o]) List.prefix_rfl
        simpa [entryTokens, entryRedeclared, tokenIf, upto, o] using whole
    rw [occurrencesFrom_cons, entryRecords, occurrencesOf, List.flatMap_append]
    exact joined.perm (perm_entry o _ _ _)

theorem argumentReports : ∀ (front : List Text) (as : List (ArgumentTree Tree)),
    Reports front.length (front ++ argumentTokens as) (argumentRedeclared as)
      (occurrencesOf (argumentRecords front as))
  | front, [] => .nil _ _
  | front, .type t :: as => by
    have first := Tree.reports front t
    cases as with
    | nil => simpa [argumentTokens, argumentRedeclared, argumentRecords, tokenIf] using first
    | cons a as =>
      have joined := first.append (argumentReports (front ++ t.tokens ++ [[',']]) (a :: as)) (by simp)
        (List.prefix_append _ _)
      simpa [argumentTokens, argumentRedeclared, argumentRecords, tokenIf] using joined
  | front, .bound word :: as => by
    cases as with
    | nil => exact .nil _ _
    | cons a as =>
      have others := (argumentReports (front ++ [word, [',']]) (a :: as)).after
      rwa [List.append_assoc] at others

end

/-! ## Texts -/

theorem Atom.value_record (keyword : Option Text) (es : List (EntryTree Tree)) (comma : Bool) :
    ∃ declared, (Atom.record keyword es comma).value = .record declared ∧
      Declares (writtenEntries 0 es) declared := by
  rw [Atom.value, entryValues_eq]
  exact ⟨_, rfl, declares_declareAll _⟩

/-- **Records keep their order and their last entries.** A record text denotes its distinct keys in the order of first
occurrences, each of them with its last entry. The warnings of any text with a derivation tell the keys declared again,
one for each entry that does so, in the order in which these entries end; there is none iff the keys of each record are
distinct. -/
theorem diagnose_records {text : Text} {e : Tree} (h : Derives IsBound e text) :
    (∀ keyword es comma, e = .union (.mk (.record keyword es comma) 0) [] →
        ∃ declared, parse text = .record declared ∧ Declares (writtenEntries 0 es) declared) ∧
      (∃ told : List Occurrence, told.Perm ((occurrencesOf (e.records [])).filter (·.again)) ∧
        told.Pairwise (·.upto.length < ·.upto.length) ∧ (∀ o ∈ told, o.upto <+: e.tokens) ∧
        (diagnose text).warnings = told.map fun o => .duplicateKey o.key) ∧
      ((diagnose text).warnings = [] ↔ ∀ r ∈ e.records [], (writtenKeys 0 r.entries).Nodup) := by
  have warned : (diagnose text).warnings = e.redeclared.map .duplicateKey := by rw [diagnose_of_derives h]
  obtain ⟨told, perm, sorted, range, keys⟩ := Tree.reports [] e
  refine ⟨?_, ⟨told, perm, sorted, fun o ho => (range o ho).2.1, ?_⟩, ?_⟩
  · rintro keyword es comma rfl
    rw [parse_of_derives h]
    exact Atom.value_record keyword es comma
  · rw [warned, keys, List.map_map]
    rfl
  · rw [warned, keys, List.map_eq_nil_iff, List.map_eq_nil_iff, ← List.length_eq_zero_iff, perm.length_eq,
      List.length_eq_zero_iff, List.filter_eq_nil_iff]
    constructor
    · intro quiet r hr
      refine ((again_eq_false_iff r.front [] 0 r.entries).1 fun o ho => ?_).1
      exact Bool.eq_false_iff.2 (quiet o (List.mem_flatMap.2 ⟨r, hr, ho⟩))
    · intro distinct o ho
      obtain ⟨r, hr, ho⟩ := List.mem_flatMap.1 ho
      have quiet := (again_eq_false_iff r.front [] 0 r.entries).2 ⟨distinct r hr, fun _ _ => List.not_mem_nil⟩
      exact Bool.eq_false_iff.1 (quiet o ho)

/-- A record in a record, and an entry without a key whose rank is the key of another. -/
theorem diagnose_records_nested :
    parse "{a:bool,0?:{b:int,b:int},a?:int,string}".toList =
        .record [⟨"a".toList, .primitive .integer, true⟩, ⟨"0".toList, .primitive .string, false⟩] ∧
      (∃ es, Declares (writtenEntries 0 es)
        [⟨"a".toList, .primitive .integer, true⟩, ⟨"0".toList, .primitive .string, false⟩]) ∧
      ∃ told : List Occurrence, told.Pairwise (·.upto.length < ·.upto.length) ∧
        told.map (fun o => Warning.duplicateKey o.key) =
          [.duplicateKey "b".toList, .duplicateKey "a".toList, .duplicateKey "0".toList] := by
  let type (name : Text) : Tree := .union (.mk (.name name) 0) []
  let b : EntryTree Tree := ⟨some (.bare "b".toList, false), type "int".toList⟩
  let inner : Tree := .union (.mk (.record none [b, b] false) 0) []
  let es : List (EntryTree Tree) := [⟨some (.bare "a".toList, false), type "bool".toList⟩,
    ⟨some (.bare "0".toList, true), inner⟩, ⟨some (.bare "a".toList, true), type "int".toList⟩,
    ⟨none, type "string".toList⟩]
  let e : Tree := .union (.mk (.record none es false) 0) []
  have named (name : Text) (h : name.head?.any isNameStart = true) (hc : name.all inName = true) :
      (type name).WellFormed IsBound := ⟨⟨h, List.all_eq_true.1 hc⟩, trivial⟩
  have keyed (name : Text) (optional : Bool) (h : name ≠ []) (hc : name.all inKey = true) :
      ∀ k ∈ some (Key.bare name, optional), k.1.WellFormed := by
    rintro k ⟨⟩
    exact ⟨h, List.all_eq_true.1 hc⟩
  have hint : (type "int".toList).WellFormed IsBound := named _ (by decide) (by decide)
  have hb : ∀ k ∈ b.key, k.1.WellFormed := keyed _ _ (by decide) (by decide)
  have ha (optional : Bool) := keyed "a".toList optional (by decide) (by decide)
  have hinner : inner.WellFormed IsBound :=
    ⟨⟨fun _ h => absurd h (by simp), by simp, hb, hint, hb, hint, trivial⟩, trivial⟩
  have he : Derives IsBound e "{a:bool,0?:{b:int,b:int},a?:int,string}".toList := by
    refine ⟨⟨⟨fun _ h => absurd h (by simp), by simp, ?_⟩, trivial⟩, by decide, [], spells_flatten e.tokens, by simp⟩
    exact ⟨ha _, named _ (by decide) (by decide), keyed _ _ (by decide) (by decide), hinner, ha _, hint,
      by simp, named _ (by decide) (by decide), trivial⟩
  have found : diagnose "{a:bool,0?:{b:int,b:int},a?:int,string}".toList =
      ⟨.record [⟨"a".toList, .primitive .integer, true⟩, ⟨"0".toList, .primitive .string, false⟩],
        [.duplicateKey "b".toList, .duplicateKey "a".toList, .duplicateKey "0".toList]⟩ := by
    rw [diagnose_of_derives he]
    rfl
  obtain ⟨read, ⟨told, -, sorted, -, warned⟩, -⟩ := diagnose_records he
  obtain ⟨declared, denotes, declares⟩ := read none es false rfl
  rw [parse, found] at denotes
  rw [found] at warned
  obtain rfl := TypeNode.record.inj denotes
  exact ⟨by rw [parse, found], ⟨es, declares⟩, told, sorted, warned.symm⟩

end DeclGen.TypeExpr
