import DeclGen.Proofs.Outcome
import DeclGen.Proofs.TypeExpr.Declaration
import DeclGen.Proofs.TypeExpr.Spelling
import DeclGen.Text.Alphanumeric

/-!
# Derived texts are read

A reader takes the tokens of a derivation from a text, whatever follows, and gives what the derivation
denotes. The induction is on the nestings that are left; the members, entries and arguments of one
depth are read by induction on their lists.

* `Level.Complete L n` : the readers of a depth read all derivations with at most `n` nestings;
* `entryKey?_of_keyed`, `entryKey?_of_opens` : the key of an entry is found where there is one, and
  no type is taken for a key;
* `level_complete` : `level n` reads them.
-/

namespace DeclGen.TypeExpr
open Text (isSpacing skipSpacing)

/-! ## Keys of entries -/

theorem key?_token_append {key : Key} (h : key.WellFormed) {following : Text}
    (hf : ∀ c ∈ following.head?, inKey c = false) :
    key? (key.token ++ following) = some (key.name, following) := by
  cases key with
  | bare name =>
    obtain ⟨hn, hc⟩ := h
    have ht := Text.takeWhile_append_of_head? hc hf
    have hd := Text.dropWhile_append_of_head? hc hf
    cases name with
    | nil => exact absurd rfl hn
    | cons c name =>
      have hk := hc c (by simp)
      have hq : (c = '\'' || c = '"') = false := by
        rw [Bool.or_eq_false_iff, decide_eq_false_iff_not, decide_eq_false_iff_not]
        constructor <;> (rintro rfl; exact absurd hk (by decide))
      simp only [Key.token, Key.name, List.cons_append] at ht hd ⊢
      rw [key?, if_neg (by simp [hq]), if_pos hk, ht, hd]
  | quoted quote name =>
    obtain ⟨hq, hn⟩ := h
    have hw : ∀ c ∈ name, (c != quote) = true := by
      intro c hc
      rw [bne_iff_ne]
      rintro rfl
      exact hn hc
    have hf : ∀ c ∈ (quote :: following).head?, (c != quote) = false := by simp
    have ht := Text.takeWhile_append_of_head? hw hf
    have hd := Text.dropWhile_append_of_head? hw hf
    simp only [Key.token, Key.name, List.cons_append, List.append_assoc, List.nil_append]
    rw [key?, if_pos (by simpa using hq), hd]
    simp only [ht]

theorem optional?_cons_of_ne {c : Char} (hc : c ≠ '?') (t : Text) :
    optional? (c :: t) = (false, c :: t) := by
  rw [optional?]
  intro u hu
  exact hc (List.cons.inj hu).1

/-- The key of an entry is found, with its mark and its colon. -/
theorem entryKey?_of_keyed {key : Key} {optional : Bool} (h : key.WellFormed) {t following : Text}
    (hs : Spells (keyTokens (some (key, optional))) t following) :
    entryKey? (skipSpacing t) = some (key.name, optional, following) := by
  obtain ⟨c, token, hk, hc, -⟩ := key.exists_cons h
  rw [keyTokens, hk, List.cons_append, spells_cons_iff hc] at hs
  obtain ⟨u, ht, hu⟩ := hs
  have hb : Before ['?', ':'] u := by
    cases optional with
    | false => exact Before.of_mark (by decide) (spells_tokenIf_false.1 hu) (by simp)
    | true => exact Before.of_mark (by decide) (spells_tokenIf_true.1 hu) (by simp)
  have found : key? (skipSpacing t) = some (key.name, u) := by
    rw [ht, ← List.cons_append, ← hk]
    exact key?_token_append h (head?_of_before inKey_of_isSpacing (by decide) hb)
  rw [entryKey?, found]
  cases optional with
  | false =>
    obtain ⟨v, hv, rfl⟩ := (spells_mark_iff (by decide)).1 (spells_tokenIf_false.1 hu)
    have colon : skipSpacing (':' :: v) = ':' :: v := skipSpacing_cons (by decide) v
    simp only [hv, optional?_cons_of_ne (c := ':') (by decide), colon]
  | true =>
    obtain ⟨v, hv, hcolon⟩ := (spells_mark_iff (by decide)).1 (spells_tokenIf_true.1 hu)
    obtain ⟨w, hw, rfl⟩ := (spells_mark_iff (by decide)).1 hcolon
    simp only [hv, optional?, hw]

theorem entryKey?_eq_none_of_key? {t name rest : Text} (h : key? t = some (name, rest))
    (hr : ∀ c ∈ (skipSpacing rest).head?, c ≠ '?' ∧ c ≠ ':') : entryKey? t = none := by
  rw [entryKey?, h]
  cases hs : skipSpacing rest with
  | nil =>
    have blank : skipSpacing [] = [] := rfl
    simp only [hs, optional?, blank]
  | cons c more =>
    rw [hs] at hr
    obtain ⟨hq, hc⟩ := hr c rfl
    simp only [hs, optional?_cons_of_ne hq, skipSpacing_cons (isSpacing_eq_false_of_head hs)]
    split
    · next hm => exact absurd (List.cons.inj hm).1 hc
    · rfl

/-- A name may be taken for a key, but no colon follows it. -/
theorem entryKey?_of_name {name following : Text} (hn : IsName name)
    (hf : Before (',' :: '}' :: followers) following) : entryKey? (name ++ following) = none := by
  obtain ⟨c, more, rfl, hc⟩ := hn.exists_cons
  have hkey : ∀ d ∈ following.head?, inKey d = false :=
    head?_of_before inKey_of_isSpacing (by decide) hf
  have hq : ¬ (c = '\'' || c = '"') = true := by
    rw [Bool.or_eq_true, decide_eq_true_eq, decide_eq_true_eq]
    rintro (rfl | rfl) <;> exact absurd hc (by decide)
  rw [List.cons_append]
  by_cases hk : inKey c = true
  -- The longest run of key characters may end inside the name, before a dot or a backslash.
  · have found : key? (c :: (more ++ following)) =
        some ((c :: (more ++ following)).takeWhile inKey, (c :: (more ++ following)).dropWhile inKey) := by
      rw [key?, if_neg hq, if_pos hk]
    refine entryKey?_eq_none_of_key? found ?_
    rw [← List.cons_append, List.dropWhile_append]
    intro d hd
    split at hd
    · rw [Text.dropWhile_eq_self_of_head? hkey] at hd
      constructor <;> (rintro rfl; exact absurd (hf _ hd) (by decide))
    · next hne =>
      obtain ⟨e, rest, he⟩ := List.exists_cons_of_ne_nil fun h0 => hne (List.isEmpty_iff.2 h0)
      have hin : inName e = true :=
        hn.2 e ((List.dropWhile_suffix inKey).subset (by rw [he]; simp))
      rw [he, List.cons_append, skipSpacing_cons (isSpacing_of_inName hin)] at hd
      obtain rfl : e = d := by simpa using hd
      constructor <;> (rintro rfl; exact absurd hin (by decide))
  · have none : key? (c :: (more ++ following)) = none := by
      rw [key?, if_neg hq, if_neg hk]
    rw [entryKey?, none]

/-- No type is taken for a key. -/
theorem entryKey?_of_opens {tokens : List Text} (h : Opens tokens) {t following : Text}
    (hs : Spells tokens t following) (hf : Before [',', '}'] following) :
    entryKey? (skipSpacing t) = none := by
  cases tokens with
  | nil => exact absurd h id
  | cons first more =>
    rcases h with ⟨c, hc, rfl⟩ | ⟨hn, hm⟩
    · have all : ∀ c ∈ openers, isSpacing c = false ∧ ∀ u, key? (c :: u) = none := by
        simp [openers, key?, isSpacing, inKey]
      obtain ⟨hb, hk⟩ := all c hc
      obtain ⟨u, ht, -⟩ := (spells_mark_iff hb).1 hs
      rw [ht, entryKey?, hk]
    · obtain ⟨c, token, rfl, hc⟩ := hn.exists_cons
      obtain ⟨u, ht, hu⟩ := (spells_cons_iff (isSpacing_of_isNameStart hc)).1 hs
      rw [ht, ← List.cons_append]
      refine entryKey?_of_name hn ?_
      cases more with
      | nil =>
        obtain rfl : u = following := hu
        exact hf.mono (by simp)
      | cons token tokens =>
        obtain ⟨d, hd, rfl⟩ := hm token rfl
        exact Before.of_mark (eq_false_of_any (by decide) hd) hu (by simp [hd])

/-! ## Nested types -/

/-- The readers of a depth read all derivations with at most `n` nestings. -/
structure Level.Complete (L : Level) (n : Nat) : Prop where
  type : ∀ {e : Tree} {t rest : Text}, e.WellFormed IsBound → e.nesting ≤ n →
    Spells e.tokens t rest → Before closers rest →
    L.type t = .ok ⟨e.value, e.redeclared, skipSpacing rest⟩
  suffixed : ∀ {s : Suffixed} {t rest : Text}, s.WellFormed IsBound → s.nesting ≤ n →
    Spells s.tokens t rest → Before ('|' :: closers) rest →
    L.suffixed t = .ok ⟨s.value, s.redeclared, rest⟩

/-- The readers of the next depth, if there are any, read what is left of `n` nestings there. -/
def CompleteBelow (inner : Option Level) (n : Nat) : Prop :=
  ∀ m, n = m + 1 → ∃ L, inner = some L ∧ L.Complete m

variable {inner : Option Level} {n : Nat}

theorem CompleteBelow.deeper (h : CompleteBelow inner n) {k : Nat} (hk : k + 1 ≤ n) :
    ∃ L m, L.Complete m ∧ k ≤ m ∧ ∀ read t, deeper inner read t = read L t := by
  obtain ⟨m, rfl⟩ : ∃ m, n = m + 1 := ⟨n - 1, by omega⟩
  obtain ⟨L, rfl, hL⟩ := h m rfl
  exact ⟨L, m, hL, by omega, fun _ _ => rfl⟩

section Inner
variable {L : Level} {m : Nat}

/-! ## Records -/

theorem entry_complete (hL : L.Complete m) {key : Option (Key × Bool)} {e : Tree} {t following : Text}
    (hkey : ∀ k ∈ key, k.1.WellFormed) (he : e.WellFormed IsBound) (hn : e.nesting ≤ m)
    (hs : Spells (keyTokens key ++ e.tokens) t following) (hf : Before [',', '}'] following)
    (index : Nat) :
    entry L index (skipSpacing t) = .ok ⟨(⟨keyAt index key, e.value, isOptional key⟩,
      nextIndex index key), e.redeclared, skipSpacing following⟩ := by
  have hc : Before closers following := hf.mono (by decide)
  cases key with
  | none =>
    have hs : Spells e.tokens t following := hs
    have ho := Tree.opens he
    rw [entry, entryKey?_of_opens ho hs hf]
    simp only [hL.type he hn (ho.spells_skip.2 hs) hc, ok_bind]
    rfl
  | some k =>
    obtain ⟨key, optional⟩ := k
    obtain ⟨u, hk, hs⟩ := Spells.append.1 hs
    rw [entry, entryKey?_of_keyed (hkey _ rfl) hk]
    simp only [hL.type he hn hs hc, ok_bind]
    rfl

/-- Entries do not start with a closing brace. -/
theorem ne_brace_of_entry {key : Option (Key × Bool)} {e : Tree} {t following : Text}
    (hkey : ∀ k ∈ key, k.1.WellFormed) (he : e.WellFormed IsBound)
    (hs : Spells (keyTokens key ++ e.tokens) t following) (rest : Text) :
    skipSpacing t ≠ '}' :: rest := by
  intro ht
  cases key with
  | none =>
    obtain ⟨c, token, more, hm, ho, hc⟩ := (Tree.opens he).exists_cons
    have hs : Spells e.tokens t following := hs
    rw [hm, spells_cons_iff hc] at hs
    obtain ⟨u, hu, -⟩ := hs
    obtain rfl : c = '}' := (List.cons.inj (hu.symm.trans ht)).1
    exact absurd ho (by decide)
  | some k =>
    obtain ⟨key, optional⟩ := k
    obtain ⟨c, token, hk, hc, hne⟩ := Key.exists_cons (hkey _ rfl)
    rw [keyTokens, hk, List.cons_append, List.cons_append, spells_cons_iff hc] at hs
    obtain ⟨u, hu, -⟩ := hs
    exact hne (List.cons.inj (hu.symm.trans ht)).1

theorem spells_entry {comma : Bool} {key : Option (Key × Bool)} {e : Tree}
    {es : List (EntryTree Tree)} {t rest : Text}
    (h : Spells (entryTokens comma (⟨key, e⟩ :: es) ++ [['}']]) t rest) :
    ∃ u, Spells (keyTokens key ++ e.tokens) t u ∧
      Spells (tokenIf (comma || !es.isEmpty) ',' ++ (entryTokens comma es ++ [['}']])) u rest := by
  simp only [entryTokens, List.append_assoc] at h
  rw [← List.append_assoc] at h
  exact Spells.append.1 h

theorem entries_flag {comma : Bool} {es : List (EntryTree Tree)} (h : (comma || !es.isEmpty) = false) :
    comma = false ∧ es = [] := by
  rw [Bool.or_eq_false_iff, Bool.not_eq_false'] at h
  exact ⟨h.1, List.isEmpty_iff.1 h.2⟩

theorem entries_complete (hL : L.Complete m) {comma : Bool} (es : List (EntryTree Tree)) :
    ∀ {fuel : Nat} (index : Nat) {declared : List (RecordEntry TypeNode)} {seen : List Text}
      {t rest : Text}, EntriesWellFormed IsBound es → entryNesting es ≤ m →
      (∀ k, k ∈ seen ↔ k ∈ keysOf declared) →
      Spells (entryTokens comma es ++ [['}']]) t rest → t.length < fuel →
      entries L fuel index declared t =
        .ok ⟨declareAll declared (entryValues index es), entryRedeclared seen index es, rest⟩ := by
  induction es with
  | nil =>
    intro fuel index declared seen t rest _ _ _ hs hfuel
    obtain ⟨fuel, rfl⟩ : ∃ k, fuel = k + 1 := ⟨fuel - 1, by omega⟩
    obtain ⟨u, hu, rfl⟩ := (spells_mark_iff (by decide)).1 hs
    rw [entries, hu]
    rfl
  | cons e es ih =>
    intro fuel index declared seen t rest hwf hn hseen hs hfuel
    obtain ⟨fuel, rfl⟩ : ∃ k, fuel = k + 1 := ⟨fuel - 1, by omega⟩
    obtain ⟨key, e⟩ := e
    obtain ⟨hkey, he, hes⟩ := hwf
    obtain ⟨hne, hnes⟩ : e.nesting ≤ m ∧ entryNesting es ≤ m :=
      Nat.max_le.1 (by simpa only [entryNesting] using hn)
    obtain ⟨u, hu, hrest⟩ := spells_entry hs
    have hlen := hu.length_le
    have hflag : (if (declare ⟨keyAt index key, e.value, isOptional key⟩ declared).2 then
        [keyAt index key] else []) = if keyAt index key ∈ seen then [keyAt index key] else [] := by
      simp only [again_declare, decide_eq_true_eq, hseen]
    rw [entries_succ (ne_brace_of_entry hkey he hu)]
    cases hc : comma || !es.isEmpty with
    | true =>
      rw [hc] at hrest
      obtain ⟨v, hv, hvs⟩ := (spells_mark_iff (by decide)).1 (spells_tokenIf_true.1 hrest)
      have hseen' : ∀ k, k ∈ keyAt index key :: seen ↔
          k ∈ keysOf (declare ⟨keyAt index key, e.value, isOptional key⟩ declared).1 := by
        intro k
        rw [mem_keys_declare, List.mem_cons, hseen]
      have hshort : v.length < fuel := by
        have := length_skipSpacing_le u
        rw [hv, List.length_cons] at this
        omega
      have more := ih (nextIndex index key) hes hnes hseen' hvs hshort
      rw [entry_complete hL hkey he hne hu (Before.of_head hv (by simp)) index]
      simp only [ok_bind, (skipSpacing_skipSpacing u).trans hv, more, hflag]
      rfl
    | false =>
      obtain ⟨rfl, rfl⟩ := entries_flag hc
      obtain ⟨v, hv, rfl⟩ := (spells_mark_iff (by decide)).1 (spells_tokenIf_false.1 hrest)
      rw [entry_complete hL hkey he hne hu (Before.of_head hv (by simp)) index]
      simp only [ok_bind, (skipSpacing_skipSpacing u).trans hv, hflag, entryRedeclared, List.append_nil]
      rfl

theorem record_complete (hL : L.Complete m) {es : List (EntryTree Tree)} {comma : Bool}
    {t rest : Text} (hwf : EntriesWellFormed IsBound es) (hn : entryNesting es ≤ m)
    (hs : Spells (entryTokens comma es ++ [['}']]) t rest) :
    record L ('{' :: t) =
      .ok ⟨.record (declareAll [] (entryValues 0 es)), entryRedeclared [] 0 es, rest⟩ := by
  have hseen : ∀ k, k ∈ ([] : List Text) ↔ k ∈ keysOf [] := by simp [keysOf]
  rw [record, List.tail_cons,
    entries_complete hL es 0 hwf hn hseen hs (by rw [List.length_cons]; omega)]
  rfl

/-! ## Type arguments -/

theorem IsBound.exists_cons {word : Text} (h : IsBound word) :
    ∃ c digits, word = c :: digits ∧ (c = '-' || c.isDigit) = true ∧
      ∀ d ∈ digits, d.isDigit = true := by
  rcases h with ⟨digits, hne, hd, rfl | rfl⟩ | rfl
  · cases word with
    | nil => exact absurd rfl hne
    | cons c digits =>
      exact ⟨c, digits, rfl, by simp [hd c (by simp)], fun d hm => hd d (by simp [hm])⟩
  · exact ⟨'-', digits, rfl, rfl, hd⟩
  · exact ⟨'-', [], rfl, rfl, by simp⟩

/-- A type does not start like a bound. -/
theorem not_bound_of_opens {c : Char} (h : c ∈ openers ∨ isNameStart c = true) :
    ¬ (c = '-' || c.isDigit) = true := by
  rcases h with h | h
  · have none : openers.any (fun c => c = '-' || c.isDigit) = false := by decide
    rw [eq_false_of_any none h]
    exact Bool.false_ne_true
  · simp only [isNameStart, Bool.or_eq_true, decide_eq_true_eq, Text.isAlpha_iff] at h
    rw [Bool.or_eq_true, decide_eq_true_eq, Text.isDigit_iff]
    rintro (rfl | hd)
    · exact absurd h (by decide)
    · rcases h with (h | rfl) | rfl
      · omega
      · exact absurd hd (by decide)
      · exact absurd hd (by decide)

theorem argument_complete (hL : L.Complete m) {a : ArgumentTree Tree} {t following : Text}
    (ha : a.WellFormed IsBound) (hn : a.nesting ≤ m) (hs : Spells a.tokens t following)
    (hf : Before [',', '>'] following) :
    ∃ rest, argument L t = .ok ⟨a.value, a.redeclared, rest⟩ ∧
      skipSpacing rest = skipSpacing following := by
  cases a with
  | type e =>
    have ho := Tree.opens ha
    obtain ⟨c, token, more, hm, hc, hb⟩ := ho.exists_cons
    have read := hL.type ha hn (ho.spells_skip.2 hs) (hf.mono (by decide))
    have hs : Spells e.tokens t following := hs
    rw [hm, spells_cons_iff hb] at hs
    obtain ⟨u, ht, -⟩ := hs
    refine ⟨skipSpacing following, ?_, skipSpacing_skipSpacing following⟩
    rw [ht] at read
    rw [argument, ht]
    simp only [if_neg (not_bound_of_opens hc)]
    exact read
  | bound word =>
    obtain ⟨c, digits, rfl, hc, hd⟩ := IsBound.exists_cons ha
    obtain ⟨u, ht, rfl⟩ := (spells_cons_iff (isSpacing_of_bound hc)).1 hs
    refine ⟨u, ?_, rfl⟩
    have stop := head?_of_before isDigit_of_isSpacing (by decide) hf
    rw [argument, ht]
    simp only [if_pos hc, Text.dropWhile_append_of_head? hd stop]
    rfl

theorem arguments_complete (hL : L.Complete m) (as : List (ArgumentTree Tree)) :
    ∀ {fuel : Nat} {t rest : Text}, as ≠ [] → ArgumentsWellFormed IsBound as →
      argumentNesting as ≤ m → Spells (argumentTokens as ++ [['>']]) t rest → t.length < fuel →
      arguments L fuel t = .ok ⟨argumentValues as, argumentRedeclared as, rest⟩ := by
  induction as with
  | nil => exact fun hne => absurd rfl hne
  | cons a as ih =>
    intro fuel t rest _ hwf hn hs hfuel
    obtain ⟨fuel, rfl⟩ : ∃ k, fuel = k + 1 := ⟨fuel - 1, by omega⟩
    obtain ⟨ha, has⟩ := (argumentsWellFormed_cons a as).1 hwf
    rw [argumentNesting_cons] at hn
    obtain ⟨hna, hnas⟩ := Nat.max_le.1 hn
    rw [argumentTokens_cons, List.append_assoc, List.append_assoc] at hs
    obtain ⟨u, hu, hrest⟩ := Spells.append.1 hs
    have hlen := hu.length_le
    rw [argumentValues_cons, argumentRedeclared_cons]
    cases as with
    | nil =>
      obtain ⟨v, hv, rfl⟩ := (spells_mark_iff (by decide)).1 (spells_tokenIf_false.1 hrest)
      obtain ⟨r, read, hr⟩ := argument_complete hL ha hna hu (Before.of_head hv (by simp))
      rw [arguments, read]
      simp only [ok_bind, hr.trans hv, argumentRedeclared, List.append_nil]
      rfl
    | cons b bs =>
      obtain ⟨v, hv, hvs⟩ := (spells_mark_iff (by decide)).1 (spells_tokenIf_true.1 hrest)
      obtain ⟨r, read, hr⟩ := argument_complete hL ha hna hu (Before.of_head hv (by simp))
      have hshort : v.length < fuel := by
        have := length_skipSpacing_le u
        rw [hv, List.length_cons] at this
        omega
      rw [arguments, read]
      simp only [ok_bind, hr.trans hv, ih (by simp) has hnas hvs hshort]
      rfl

/-- A collection has a type for one or two arguments. -/
theorem exists_collectionOf? (types : List TypeNode) (hne : types ≠ []) (hle : types.length ≤ 2) :
    ∃ type, collectionOf? types = some type := by
  match types, hne, hle with
  | [item], _, _ => exact ⟨_, rfl⟩
  | [key, value], _, _ => exact ⟨_, rfl⟩

theorem applied_complete (hL : L.Complete m) {name : Text} {as : List (ArgumentTree Tree)}
    {t rest : Text} (hwf : (Atom.applied name as).WellFormed IsBound) (hn : argumentNesting as ≤ m)
    (hs : Spells (argumentTokens as ++ [['>']]) t rest) :
    applied name L ('<' :: t) =
      .ok ⟨(Atom.applied name as).value, argumentRedeclared as, rest⟩ := by
  obtain ⟨-, hne, hle, has⟩ := hwf
  rw [applied, List.tail_cons,
    arguments_complete hL as hne has hn hs (by rw [List.length_cons]; omega), ok_bind]
  by_cases hc : isCollection name = true
  · have hlen := length_argumentValues as
    obtain ⟨type, ht⟩ := exists_collectionOf? (argumentValues as)
      (by rw [← List.length_pos_iff, hlen]; exact List.length_pos_iff.2 hne)
      (by rw [hlen]; exact hle hc)
    simp only [if_pos hc, ht, Atom.value, Option.getD_some]
    rfl
  · simp only [if_neg hc, Atom.value]
    rfl

end Inner

/-! ## Atoms -/

theorem atom_of_name {name t following : Text} (hn : IsName name)
    (ht : skipSpacing t = name ++ following) (hf : ∀ c ∈ following.head?, inName c = false) :
    atom inner t = afterName inner name following := by
  have take := Text.takeWhile_append_of_head? hn.2 hf
  have drop := Text.dropWhile_append_of_head? hn.2 hf
  obtain ⟨c, more, rfl, hc⟩ := hn.exists_cons
  rw [List.cons_append] at ht take drop
  rw [atom, ht]
  split
  · next h => exact absurd h (by simp)
  · next h => exact absurd ((List.cons.inj h).1 ▸ hc) (by decide)
  · next h => exact absurd ((List.cons.inj h).1 ▸ hc) (by decide)
  · next h =>
    obtain ⟨rfl, rfl⟩ := List.cons.inj h
    rw [if_pos hc, take, drop]

theorem afterName_plain {name following : Text} (h : Before ('[' :: '|' :: closers) following) :
    afterName inner name following = .ok ⟨plainName name, [], following⟩ := by
  rw [afterName]
  split
  · next hu => exact absurd hu (h.ne_cons (by decide) _)
  · next hu => exact absurd hu (h.ne_cons (by decide) _)
  · rfl

/-- What stands behind a name inside a type is no part of it. -/
theorem inName_of_before {following : Text} {cs : List Char} (h : Before cs following)
    (hcs : cs.any inName = false) : ∀ c ∈ following.head?, inName c = false :=
  head?_of_before inName_of_isSpacing hcs h

theorem parenthesized_complete (hin : CompleteBelow inner n) {e : Tree} {t rest : Text}
    (he : e.WellFormed IsBound) (hn : e.nesting + 1 ≤ n) (hs : Spells (e.tokens ++ [[')']]) t rest) :
    parenthesized inner t = .ok ⟨e.value, e.redeclared, rest⟩ := by
  obtain ⟨L, m, hL, hm, read⟩ := hin.deeper hn
  obtain ⟨u, hu, hrest⟩ := Spells.append.1 hs
  obtain ⟨v, hv, rfl⟩ := (spells_mark_iff (by decide)).1 hrest
  rw [parenthesized, read, hL.type he hm hu (Before.of_head hv (by decide))]
  simp only [ok_bind, (skipSpacing_skipSpacing u).trans hv]
  rfl

theorem atom_complete (hin : CompleteBelow inner n) {a : Atom} {t rest : Text}
    (ha : a.WellFormed IsBound) (hn : a.nesting ≤ n) (hs : Spells a.tokens t rest)
    (hf : Before ('[' :: '|' :: closers) rest) :
    atom inner t = .ok ⟨a.value, a.redeclared, rest⟩ := by
  cases a with
  | name name =>
    obtain ⟨u, ht, rfl⟩ := (spells_name_iff ha).1 hs
    rw [atom_of_name ha ht (inName_of_before hf (by decide)), afterName_plain hf]
    rfl
  | record keyword es comma =>
    obtain ⟨hk, -, hes⟩ := ha
    obtain ⟨L, m, hL, hm, read⟩ := hin.deeper hn
    cases keyword with
    | none =>
      obtain ⟨u, ht, hu⟩ := (spells_mark_iff (by decide)).1 hs
      rw [atom, ht]
      exact (read record _).trans (record_complete hL hes hm hu)
    | some k =>
      have hshape := hk k rfl
      have hname := isName_of_isCollection (isCollection_of_takesShape hshape)
      obtain ⟨u, ht, hu⟩ := (spells_name_iff hname).1 hs
      obtain ⟨v, hv, hvs⟩ := (spells_mark_iff (by decide)).1 hu
      have hb : Before ['{'] u := Before.of_head hv (by simp)
      rw [atom_of_name hname ht (inName_of_before hb (by decide)), afterName, hv]
      simp only [if_pos hshape]
      exact (read record _).trans (record_complete hL hes hm hvs)
  | applied name as =>
    obtain ⟨L, m, hL, hm, read⟩ := hin.deeper hn
    obtain ⟨u, ht, hu⟩ := (spells_name_iff ha.1).1 hs
    obtain ⟨v, hv, hvs⟩ := (spells_mark_iff (by decide)).1 hu
    have hb : Before ['<'] u := Before.of_head hv (by simp)
    rw [atom_of_name ha.1 ht (inName_of_before hb (by decide)), afterName, hv]
    exact (read (applied name) _).trans (applied_complete hL ha hm hvs)
  | parenthesized e =>
    obtain ⟨u, ht, hu⟩ := (spells_mark_iff (by decide)).1 hs
    rw [atom, ht]
    exact parenthesized_complete hin ha hn hu

/-! ## Suffixes, unions, prefixes -/

theorem suffixes_complete (k : Nat) : ∀ {fuel : Nat} {value : TypeNode} {redeclared : List Text}
    {t rest : Text}, Spells (bracketTokens k) t rest → Before ('|' :: closers) rest →
      t.length ≤ fuel →
      suffixes fuel ⟨value, redeclared, t⟩ = .ok ⟨arrayOf value k, redeclared, rest⟩ := by
  induction k with
  | zero =>
    rintro fuel value redeclared t rest rfl hf _
    cases fuel with
    | zero => rfl
    | succ fuel =>
      rw [suffixes]
      split
      · next hu => exact absurd hu (hf.ne_cons (by decide) _)
      · rfl
  | succ k ih =>
    intro fuel value redeclared t rest hs hf hfuel
    obtain ⟨u, hu, hus⟩ := (spells_mark_iff (by decide)).1 hs
    obtain ⟨v, hv, hvs⟩ := (spells_mark_iff (by decide)).1 hus
    have ht := length_skipSpacing_le t
    have hut := length_skipSpacing_le u
    rw [hu, List.length_cons] at ht
    rw [hv, List.length_cons] at hut
    obtain ⟨fuel, rfl⟩ : ∃ k, fuel = k + 1 := ⟨fuel - 1, by omega⟩
    rw [suffixes]
    simp only [hu, hv]
    exact ih hvs hf (by omega)

/-- What follows an atom. -/
theorem before_brackets {k : Nat} {t rest : Text} (hs : Spells (bracketTokens k) t rest)
    (hb : Before ('|' :: closers) rest) : Before ('[' :: '|' :: closers) t := by
  cases k with
  | zero =>
    obtain rfl : t = rest := hs
    exact hb.mono (List.subset_cons_self _ _)
  | succ k => exact Before.of_mark (by decide) hs (by simp)

/-- What follows the first member of a union, or one of the others. -/
theorem before_members {ms : List (Bool × Suffixed)} {t rest : Text}
    (hs : Spells (memberTokens ms) t rest) (hb : Before closers rest) : Before ('|' :: closers) t := by
  cases ms with
  | nil =>
    obtain rfl : t = rest := hs
    exact hb.mono (List.subset_cons_self _ _)
  | cons m ms => exact Before.of_mark (by decide) hs (by simp)

theorem suffixed_complete (hin : CompleteBelow inner n) {s : Suffixed} {t rest : Text}
    (hwf : s.WellFormed IsBound) (hn : s.nesting ≤ n) (hs : Spells s.tokens t rest)
    (hf : Before ('|' :: closers) rest) :
    suffixed inner t = .ok ⟨s.value, s.redeclared, rest⟩ := by
  obtain ⟨a, k⟩ := s
  obtain ⟨u, hu, hus⟩ := Spells.append.1 hs
  rw [suffixed, atom_complete hin hwf hn hu (before_brackets hus hf)]
  exact suffixes_complete k hus hf (Nat.le_refl _)

theorem member_complete (hin : CompleteBelow inner n) {mark : Bool} {s : Suffixed} {t rest : Text}
    (hwf : s.WellFormed IsBound) (hn : s.nesting + (if mark then 1 else 0) ≤ n)
    (hs : Spells (tokenIf mark '?' ++ s.tokens) t rest) (hf : Before ('|' :: closers) rest) :
    member inner t =
      .ok ⟨if mark then s.value.nullable else s.value, s.redeclared, rest⟩ := by
  cases mark with
  | true =>
    obtain ⟨L, m, hL, hm, read⟩ := hin.deeper hn
    obtain ⟨u, hu, hus⟩ := (spells_mark_iff (by decide)).1 (spells_tokenIf_true.1 hs)
    rw [member, hu]
    simp only [read, hL.suffixed hwf hm hus hf, ok_bind]
    rfl
  | false =>
    have hs := spells_tokenIf_false.1 hs
    have read := suffixed_complete hin hwf hn ((Suffixed.opens hwf).spells_skip.2 hs) hf
    rw [member]
    split
    · next u hu => exact absurd hu (Suffixed.ne_question hwf hs u)
    · exact read

theorem members_complete (hin : CompleteBelow inner n) (ms : List (Bool × Suffixed)) :
    ∀ {fuel : Nat} {t rest : Text}, MembersWellFormed IsBound ms → memberNesting ms ≤ n →
      Spells (memberTokens ms) t rest → Before closers rest → (skipSpacing t).length ≤ fuel →
      members inner fuel (skipSpacing t) =
        .ok ⟨memberValues ms, memberRedeclared ms, skipSpacing rest⟩ := by
  induction ms with
  | nil =>
    rintro fuel t rest - - rfl hf -
    rw [members.eq_def]
    split
    · next hu => exact absurd hu (hf.ne_cons (by decide) _)
    · rfl
  | cons m ms ih =>
    intro fuel t rest hwf hn hs hf hfuel
    obtain ⟨mark, s⟩ := m
    obtain ⟨hns, hnms⟩ := Nat.max_le.1 (by simpa only [memberNesting] using hn)
    have hs : Spells (['|'] :: ((tokenIf mark '?' ++ s.tokens) ++ memberTokens ms)) t rest := by
      simpa only [memberTokens, List.cons_append, List.append_assoc] using hs
    obtain ⟨u, hu, hus⟩ := (spells_mark_iff (by decide)).1 hs
    obtain ⟨v, hv, hvs⟩ := Spells.append.1 hus
    have hlen := hv.length_le
    have hskip := length_skipSpacing_le v
    rw [hu, List.length_cons] at hfuel
    obtain ⟨fuel, rfl⟩ : ∃ k, fuel = k + 1 := ⟨fuel - 1, by omega⟩
    rw [hu, members, member_complete hin hwf.1 hns hv (before_members hvs hf), ok_bind,
      ih hwf.2 hnms hvs hf (by omega)]
    rfl

theorem union_complete (hin : CompleteBelow inner n) {s : Suffixed} {ms : List (Bool × Suffixed)}
    {t rest : Text} (hwf : (Tree.union s ms).WellFormed IsBound)
    (hn : (Tree.union s ms).nesting ≤ n) (hs : Spells (Tree.union s ms).tokens t rest)
    (hf : Before closers rest) :
    union inner (skipSpacing t) =
      .ok ⟨(Tree.union s ms).value, (Tree.union s ms).redeclared, skipSpacing rest⟩ := by
  obtain ⟨hws, hwms⟩ := hwf
  obtain ⟨hns, hnms⟩ := Nat.max_le.1 (by simpa only [Tree.nesting] using hn)
  obtain ⟨u, hu, hus⟩ := Spells.append.1 hs
  have hb := before_members hus hf
  rw [union, suffixed_complete hin hws hns ((Suffixed.opens hws).spells_skip.2 hu) hb]
  simp only [ok_bind, members_complete hin ms hwms hnms hus hf (Nat.le_refl _)]
  cases ms <;> rfl

theorem type_complete (hin : CompleteBelow inner n) {e : Tree} {t rest : Text}
    (hwf : e.WellFormed IsBound) (hn : e.nesting ≤ n) (hs : Spells e.tokens t rest)
    (hf : Before closers rest) :
    type inner t = .ok ⟨e.value, e.redeclared, skipSpacing rest⟩ := by
  cases e with
  | nullable e =>
    obtain ⟨L, m, hL, hm, read⟩ := hin.deeper hn
    obtain ⟨u, hu, hus⟩ := (spells_mark_iff (by decide)).1 hs
    rw [type, hu]
    simp only [read, hL.type (e := e) hwf hm hus hf, ok_bind]
    rfl
  | union s ms =>
    rw [type]
    split
    · next u hu =>
      obtain ⟨v, hv, -⟩ := Spells.append.1 hs
      exact absurd hu (Suffixed.ne_question hwf.1 hv u)
    · exact union_complete hin hwf hn hs hf

/-- **Each depth reads what the grammar derives with the nestings that are left.** -/
theorem level_complete (n : Nat) : (level n).Complete n := by
  induction n with
  | zero =>
    have hin : CompleteBelow none 0 := fun m hm => absurd hm (by omega)
    exact ⟨type_complete hin, suffixed_complete hin⟩
  | succ n ih =>
    have hin : CompleteBelow (some (level n)) (n + 1) := by
      intro m hm
      obtain rfl : n = m := by omega
      exact ⟨level n, rfl, ih⟩
    exact ⟨type_complete hin, suffixed_complete hin⟩

end DeclGen.TypeExpr
