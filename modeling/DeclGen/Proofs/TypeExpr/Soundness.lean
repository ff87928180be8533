import DeclGen.Proofs.Outcome
import DeclGen.Proofs.TypeExpr.Declaration
import DeclGen.Proofs.TypeExpr.Spelling

/-!
# What is read has a derivation

A reader that succeeds has taken the tokens of a derivation from its text, and its value is what the
derivation denotes. The induction is on the nestings that are left, and inside one depth on the fuel
of the loops.

* `Level.Sound L n` : what the readers of a depth read has a derivation with at most `n` nestings;
* `exists_keyTokens_of_entryKey?` : a key that is found is one of the grammar;
* `level_sound` : so it is for `level n`.
-/

namespace DeclGen.TypeExpr
open Text (isSpacing skipSpacing)

/-! ## Keys of entries -/

theorem exists_token_of_key? {t name rest : Text} (h : key? t = some (name, rest)) :
    ∃ key : Key, key.WellFormed ∧ key.name = name ∧ t = key.token ++ rest := by
  cases t with
  | nil => exact absurd h (by simp [key?])
  | cons c t =>
    rw [key?] at h
    split at h
    · next hq =>
      have hq : c = '\'' ∨ c = '"' := by simpa using hq
      have parts := List.takeWhile_append_dropWhile (p := (· != c)) (l := t)
      split at h
      · exact absurd h (by simp)
      · next d following hd =>
        obtain ⟨rfl, rfl⟩ : t.takeWhile (· != c) = name ∧ following = rest := by simpa using h
        have hd' := List.head?_dropWhile_not (· != c) t
        rw [hd] at hd' parts
        obtain rfl : d = c := by simpa using hd'
        refine ⟨.quoted d (t.takeWhile (· != d)), ⟨hq, ?_⟩, rfl, ?_⟩
        · intro hm
          have := List.all_eq_true.1 (List.all_takeWhile (p := (· != d)) (l := t)) d hm
          exact absurd this (by simp)
        · simp only [Key.token, List.cons_append, List.append_assoc, List.nil_append]
          exact congrArg (d :: ·) parts.symm
    · split at h
      · next hk =>
        obtain ⟨rfl, rfl⟩ : (c :: t).takeWhile inKey = name ∧ (c :: t).dropWhile inKey = rest := by
          simpa using h
        refine ⟨.bare ((c :: t).takeWhile inKey), ⟨?_, ?_⟩, rfl, ?_⟩
        · rw [List.takeWhile_cons_of_pos hk]
          exact List.cons_ne_nil _ _
        · exact fun d hd => List.all_eq_true.1 List.all_takeWhile d hd
        · exact List.takeWhile_append_dropWhile.symm
      · exact absurd h (by simp)

/-- Either a question mark was taken off, or nothing was. -/
theorem optional?_cases (t : Text) :
    (∃ u, t = '?' :: u ∧ optional? t = (true, u)) ∨ optional? t = (false, t) := by
  cases t with
  | nil => exact Or.inr rfl
  | cons c t =>
    by_cases hc : c = '?'
    · exact Or.inl ⟨t, by rw [hc], by rw [hc, optional?]⟩
    · refine Or.inr ?_
      rw [optional?]
      intro u hu
      exact hc (List.cons.inj hu).1

/-- A key that is found is one of the grammar. -/
theorem exists_keyTokens_of_entryKey? {t name rest : Text} {optional : Bool}
    (h : entryKey? (skipSpacing t) = some (name, optional, rest)) :
    ∃ key : Key, key.WellFormed ∧ key.name = name ∧
      Spells (keyTokens (some (key, optional))) t rest := by
  rw [entryKey?] at h
  split at h
  · exact absurd h (by simp)
  · next found u hk =>
    obtain ⟨key, hwf, rfl, ht⟩ := exists_token_of_key? hk
    refine ⟨key, hwf, ?_⟩
    obtain ⟨c, token, hc, hb, -⟩ := key.exists_cons hwf
    rw [hc] at ht
    simp only at h
    split at h
    · next v hv =>
      simp only [Option.some.injEq, Prod.mk.injEq] at h
      obtain ⟨rfl, rfl, rfl⟩ := h
      refine ⟨rfl, ?_⟩
      rw [keyTokens, hc, List.cons_append, spells_cons_iff hb]
      refine ⟨u, ht, ?_⟩
      rcases optional?_cases (skipSpacing u) with ⟨w, hw, ho⟩ | ho
      · rw [ho] at hv ⊢
        refine spells_tokenIf_true.2 ((spells_mark_iff (by decide)).2 ⟨w, hw, ?_⟩)
        exact (spells_mark_iff (by decide)).2 ⟨v, hv, rfl⟩
      · rw [ho] at hv ⊢
        refine spells_tokenIf_false.2 ((spells_mark_iff (by decide)).2 ⟨v, ?_, rfl⟩)
        exact (skipSpacing_skipSpacing u).symm.trans hv
    · exact absurd h (by simp)

/-! ## Nested types -/

/-- What the readers of a depth read has a derivation with at most `n` nestings. -/
structure Level.Sound (L : Level) (n : Nat) : Prop where
  type : ∀ {t : Text} {p : Parsed TypeNode}, L.type t = .ok p →
    ∃ e following, Tree.WellFormed IsBound e ∧ e.nesting ≤ n ∧ Spells e.tokens t following ∧
      p = ⟨e.value, e.redeclared, skipSpacing following⟩
  suffixed : ∀ {t : Text} {p : Parsed TypeNode}, L.suffixed t = .ok p →
    ∃ s following, Suffixed.WellFormed IsBound s ∧ s.nesting ≤ n ∧ Spells s.tokens t following ∧
      p = ⟨s.value, s.redeclared, following⟩

/-- What the readers of the next depth read has a derivation that leaves one of `n` nestings. -/
def SoundBelow (inner : Option Level) (n : Nat) : Prop :=
  ∀ L, inner = some L → ∃ m, n = m + 1 ∧ L.Sound m

variable {inner : Option Level} {n : Nat}

theorem SoundBelow.of_deeper (h : SoundBelow inner n) {read : Level → Reader} {t : Text}
    {p : Parsed TypeNode} (hp : deeper inner read t = .ok p) :
    ∃ L m, L.Sound m ∧ m + 1 ≤ n ∧ read L t = .ok p := by
  cases inner with
  | none => exact absurd hp (by simp [deeper])
  | some L =>
    obtain ⟨m, rfl, hL⟩ := h L rfl
    exact ⟨L, m, hL, Nat.le_refl _, hp⟩

section Inner
variable {L : Level} {m : Nat}

/-! ## Records -/

theorem entry_sound (hL : L.Sound m) {index : Nat} {t : Text}
    {p : Parsed (RecordEntry TypeNode × Nat)} (h : entry L index (skipSpacing t) = .ok p) :
    ∃ key e following, (∀ k ∈ key, k.1.WellFormed) ∧ Tree.WellFormed IsBound e ∧ e.nesting ≤ m ∧
      Spells (keyTokens key ++ e.tokens) t following ∧
      p = ⟨(⟨keyAt index key, e.value, isOptional key⟩, nextIndex index key), e.redeclared,
        skipSpacing following⟩ := by
  rw [entry] at h
  split at h
  · next name optional rest hk =>
    obtain ⟨key, hwf, rfl, hs⟩ := exists_keyTokens_of_entryKey? hk
    obtain ⟨q, hq, h⟩ := bind_eq_ok_iff.1 h
    obtain ⟨e, following, he, hn, hes, rfl⟩ := hL.type hq
    refine ⟨some (key, optional), e, following, ?_, he, hn, Spells.append.2 ⟨rest, hs, hes⟩, ?_⟩
    · rintro k ⟨⟩
      exact hwf
    · exact (Except.ok.inj h).symm
  · next hk =>
    obtain ⟨q, hq, h⟩ := bind_eq_ok_iff.1 h
    obtain ⟨e, following, he, hn, hes, rfl⟩ := hL.type hq
    refine ⟨none, e, following, by simp, he, hn, (Tree.opens he).spells_skip.1 hes, ?_⟩
    exact (Except.ok.inj h).symm

theorem entries_sound (hL : L.Sound m) (fuel : Nat) :
    ∀ {index : Nat} {declared : List (RecordEntry TypeNode)} {seen : List Text} {t : Text}
      {p : Parsed (List (RecordEntry TypeNode))}, (∀ k, k ∈ seen ↔ k ∈ keysOf declared) →
      entries L fuel index declared t = .ok p →
      ∃ es comma, EntriesWellFormed IsBound es ∧ entryNesting es ≤ m ∧ (comma = true → es ≠ []) ∧
        Spells (entryTokens comma es ++ [['}']]) t p.rest ∧
        p = ⟨declareAll declared (entryValues index es), entryRedeclared seen index es, p.rest⟩ := by
  induction fuel with
  | zero => exact fun _ h => absurd h (by simp [entries])
  | succ fuel ih =>
    intro index declared seen t p hseen h
    by_cases hbrace : ∃ rest, skipSpacing t = '}' :: rest
    · obtain ⟨rest, ht⟩ := hbrace
      rw [entries, ht] at h
      obtain rfl := Except.ok.inj h
      exact ⟨[], false, trivial, Nat.zero_le _, by simp, (spells_mark_iff (by decide)).2 ⟨rest, ht, rfl⟩, rfl⟩
    · rw [entries_succ (fun rest ht => hbrace ⟨rest, ht⟩)] at h
      obtain ⟨next, hnext, h⟩ := bind_eq_ok_iff.1 h
      obtain ⟨key, e, u, hkey, he, hn, hs, rfl⟩ := entry_sound hL hnext
      have hflag : (if (declare ⟨keyAt index key, e.value, isOptional key⟩ declared).2 then
          [keyAt index key] else []) = if keyAt index key ∈ seen then [keyAt index key] else [] := by
        simp only [again_declare, decide_eq_true_eq, hseen]
      simp only [skipSpacing_skipSpacing, hflag] at h
      split at h
      · next v hv =>
        have hseen' : ∀ k, k ∈ keyAt index key :: seen ↔
            k ∈ keysOf (declare ⟨keyAt index key, e.value, isOptional key⟩ declared).1 := by
          intro k
          rw [mem_keys_declare, List.mem_cons, hseen]
        obtain ⟨more, hmore, h⟩ := bind_eq_ok_iff.1 h
        obtain rfl := Except.ok.inj h
        obtain ⟨es, comma, hes, hnes, hc, hss, hp⟩ := ih hseen' hmore
        -- A comma behind the last entry shows in the round after it, which then finds no entry.
        refine ⟨⟨key, e⟩ :: es, comma || es.isEmpty, ⟨hkey, he, hes⟩, Nat.max_le.2 ⟨hn, hnes⟩,
          by simp, ?_, ?_⟩
        · have hsame : entryTokens (comma || es.isEmpty) es = entryTokens comma es := by
            cases es with
            | nil => rfl
            | cons f fs => rw [List.isEmpty_cons, Bool.or_false]
          have hflag : (comma || es.isEmpty || !es.isEmpty) = true := by
            cases es.isEmpty <;> simp
          simp only [entryTokens, hsame, hflag, List.append_assoc]
          rw [← List.append_assoc]
          refine Spells.append.2 ⟨u, hs, ?_⟩
          exact spells_tokenIf_true.2 ((spells_mark_iff (by decide)).2 ⟨v, hv, hss⟩)
        · rw [hp]
          rfl
      · next v hv =>
        obtain rfl := Except.ok.inj h
        refine ⟨[⟨key, e⟩], false, ⟨hkey, he, trivial⟩, Nat.max_le.2 ⟨hn, Nat.zero_le _⟩, by simp, ?_, ?_⟩
        · simp only [entryTokens, List.append_assoc]
          rw [← List.append_assoc]
          refine Spells.append.2 ⟨u, hs, ?_⟩
          exact spells_tokenIf_false.2 ((spells_mark_iff (by decide)).2 ⟨v, hv, rfl⟩)
        · simp only [entryRedeclared, List.append_nil]
          rfl
      · exact absurd h (by simp)

theorem record_sound (hL : L.Sound m) {t : Text} {p : Parsed TypeNode}
    (h : record L ('{' :: t) = .ok p) :
    ∃ es comma, EntriesWellFormed IsBound es ∧ entryNesting es ≤ m ∧ (comma = true → es ≠ []) ∧
      Spells (entryTokens comma es ++ [['}']]) t p.rest ∧
      p = ⟨.record (declareAll [] (entryValues 0 es)), entryRedeclared [] 0 es, p.rest⟩ := by
  have hseen : ∀ k, k ∈ ([] : List Text) ↔ k ∈ keysOf [] := by simp [keysOf]
  obtain ⟨q, hq, h⟩ := bind_eq_ok_iff.1 h
  obtain rfl := Except.ok.inj h
  obtain ⟨es, comma, hes, hn, hc, hs, hp⟩ := entries_sound hL _ hseen hq
  refine ⟨es, comma, hes, hn, hc, hs, ?_⟩
  rw [hp]
  rfl

/-! ## Type arguments -/

theorem isBound_cons {c : Char} {digits : Text} (hc : (c = '-' || c.isDigit) = true)
    (hd : ∀ d ∈ digits, d.isDigit = true) : IsBound (c :: digits) := by
  rw [Bool.or_eq_true, decide_eq_true_eq] at hc
  rcases hc with rfl | hc
  · cases digits with
    | nil => exact Or.inr rfl
    | cons d digits => exact Or.inl ⟨d :: digits, by simp, hd, Or.inr rfl⟩
  · refine Or.inl ⟨c :: digits, by simp, ?_, Or.inl rfl⟩
    simpa [hc] using hd

theorem argument_sound (hL : L.Sound m) {t : Text} {p : Parsed TypeNode}
    (h : argument L t = .ok p) :
    ∃ a following, ArgumentTree.WellFormed IsBound a ∧ a.nesting ≤ m ∧ Spells a.tokens t following ∧
      p.value = a.value ∧ p.redeclared = a.redeclared ∧
      skipSpacing p.rest = skipSpacing following := by
  have type : ∀ {u}, skipSpacing t = u → L.type u = .ok p →
      ∃ a following, ArgumentTree.WellFormed IsBound a ∧ a.nesting ≤ m ∧
        Spells a.tokens t following ∧ p.value = a.value ∧ p.redeclared = a.redeclared ∧
        skipSpacing p.rest = skipSpacing following := by
    rintro _ rfl hu
    obtain ⟨e, following, he, hn, hs, rfl⟩ := hL.type hu
    exact ⟨.type e, following, he, hn, (Tree.opens he).spells_skip.1 hs, rfl, rfl,
      skipSpacing_skipSpacing following⟩
  rw [argument] at h
  split at h
  · next c rest ht =>
    split at h
    · next hc =>
      obtain rfl := Except.ok.inj h
      have hd : ∀ d ∈ rest.takeWhile Char.isDigit, d.isDigit = true :=
        fun d hd => List.all_eq_true.1 List.all_takeWhile d hd
      refine ⟨.bound (c :: rest.takeWhile Char.isDigit), rest.dropWhile Char.isDigit,
        isBound_cons hc hd, Nat.zero_le _, ?_, rfl, rfl, rfl⟩
      refine (spells_cons_iff (isSpacing_of_bound hc)).2 ⟨_, ?_, rfl⟩
      rw [ht, List.takeWhile_append_dropWhile]
    · exact type ht h
  · next ht => exact type ht h

theorem arguments_sound (hL : L.Sound m) (fuel : Nat) :
    ∀ {t : Text} {p : Parsed (List TypeNode)}, arguments L fuel t = .ok p →
      ∃ as, as ≠ [] ∧ ArgumentsWellFormed IsBound as ∧ argumentNesting as ≤ m ∧
        Spells (argumentTokens as ++ [['>']]) t p.rest ∧
        p = ⟨argumentValues as, argumentRedeclared as, p.rest⟩ := by
  induction fuel with
  | zero => exact fun h => absurd h (by simp [arguments])
  | succ fuel ih =>
    intro t p h
    obtain ⟨first, hfirst, h⟩ := bind_eq_ok_iff.1 h
    obtain ⟨a, u, ha, hn, hs, hv, hr, hrest⟩ := argument_sound hL hfirst
    rw [hrest, hv, hr] at h
    split at h
    · next v hv =>
      obtain ⟨more, hmore, h⟩ := bind_eq_ok_iff.1 h
      obtain rfl := Except.ok.inj h
      obtain ⟨as, hne, has, hnas, hss, hp⟩ := ih hmore
      obtain ⟨b, bs, rfl⟩ := List.exists_cons_of_ne_nil hne
      refine ⟨a :: b :: bs, by simp, (argumentsWellFormed_cons _ _).2 ⟨ha, has⟩, ?_, ?_, ?_⟩
      · rw [argumentNesting_cons]
        exact Nat.max_le.2 ⟨hn, hnas⟩
      · rw [argumentTokens_cons, List.append_assoc, List.append_assoc]
        refine Spells.append.2 ⟨u, hs, ?_⟩
        exact spells_tokenIf_true.2 ((spells_mark_iff (by decide)).2 ⟨v, hv, hss⟩)
      · rw [argumentValues_cons, argumentRedeclared_cons, hp]
    · next v hv =>
      obtain rfl := Except.ok.inj h
      refine ⟨[a], by simp, (argumentsWellFormed_cons _ _).2 ⟨ha, trivial⟩, ?_, ?_, ?_⟩
      · rw [argumentNesting_cons]
        exact Nat.max_le.2 ⟨hn, Nat.zero_le _⟩
      · rw [argumentTokens_cons, List.append_assoc, List.append_assoc]
        refine Spells.append.2 ⟨u, hs, ?_⟩
        exact spells_tokenIf_false.2 ((spells_mark_iff (by decide)).2 ⟨v, hv, rfl⟩)
      · rw [argumentValues_cons, argumentRedeclared_cons]
        simp only [argumentValues, argumentRedeclared, List.append_nil]
    · exact absurd h (by simp)

theorem length_le_of_collectionOf? {types : List TypeNode} {type : TypeNode}
    (h : collectionOf? types = some type) : types.length ≤ 2 := by
  match types, h with
  | [_], _ => exact Nat.le_of_ble_eq_true rfl
  | [_, _], _ => exact Nat.le_of_ble_eq_true rfl

theorem applied_sound (hL : L.Sound m) {name t : Text} {p : Parsed TypeNode} (hname : IsName name)
    (h : applied name L ('<' :: t) = .ok p) :
    ∃ as, (Atom.applied name as).WellFormed IsBound ∧ argumentNesting as ≤ m ∧
      Spells (argumentTokens as ++ [['>']]) t p.rest ∧
      p = ⟨(Atom.applied name as).value, argumentRedeclared as, p.rest⟩ := by
  obtain ⟨args, hargs, h⟩ := bind_eq_ok_iff.1 h
  obtain ⟨as, hne, has, hn, hs, hp⟩ := arguments_sound hL _ hargs
  by_cases hc : isCollection name = true
  · rw [if_pos hc] at h
    split at h
    · next type ht =>
      obtain rfl := Except.ok.inj h
      have hle := length_le_of_collectionOf? ht
      rw [hp] at ht hle
      refine ⟨as, ⟨hname, hne, fun _ => by rwa [length_argumentValues] at hle, has⟩, hn, hs, ?_⟩
      rw [Atom.value, if_pos hc, ht, hp]
      rfl
    · exact absurd h (by simp)
  · rw [if_neg hc] at h
    obtain rfl := Except.ok.inj h
    refine ⟨as, ⟨hname, hne, fun h => absurd h hc, has⟩, hn, hs, ?_⟩
    rw [Atom.value, if_neg hc, hp]
    rfl

end Inner

/-! ## Atoms -/

theorem afterName_sound (hin : SoundBelow inner n) {name t : Text} {p : Parsed TypeNode}
    (hname : IsName name) (h : afterName inner name t = .ok p) :
    ∃ a tokens, Atom.tokens a = name :: tokens ∧ a.WellFormed IsBound ∧ a.nesting ≤ n ∧
      Spells tokens t p.rest ∧ p = ⟨a.value, a.redeclared, p.rest⟩ := by
  have plain : afterName inner name t = .ok ⟨plainName name, [], t⟩ →
      ∃ a tokens, Atom.tokens a = name :: tokens ∧ a.WellFormed IsBound ∧ a.nesting ≤ n ∧
        Spells tokens t p.rest ∧ p = ⟨a.value, a.redeclared, p.rest⟩ := by
    intro h'
    obtain rfl := Except.ok.inj (h'.symm.trans h)
    exact ⟨.name name, [], rfl, hname, Nat.zero_le _, rfl, rfl⟩
  rw [afterName] at h plain
  split at h
  · next v hv =>
    split at h
    · next hshape =>
      obtain ⟨L, m, hL, hm, hr⟩ := hin.of_deeper h
      obtain ⟨es, comma, hes, hn, hc, hs, hp⟩ := record_sound hL hr
      refine ⟨.record (some name) es comma, _, rfl, ⟨?_, hc, hes⟩, ?_, ?_, hp⟩
      · rintro k ⟨⟩
        exact hshape
      · exact Nat.le_trans (Nat.succ_le_succ hn) hm
      · exact (spells_mark_iff (by decide)).2 ⟨v, hv, hs⟩
    · next hshape =>
      rw [hv] at plain
      exact plain (if_neg hshape)
  · next v hv =>
    obtain ⟨L, m, hL, hm, hr⟩ := hin.of_deeper h
    obtain ⟨as, has, hn, hs, hp⟩ := applied_sound hL hname hr
    refine ⟨.applied name as, _, rfl, has, ?_, ?_, hp⟩
    · exact Nat.le_trans (Nat.succ_le_succ hn) hm
    · exact (spells_mark_iff (by decide)).2 ⟨v, hv, hs⟩
  · obtain rfl := Except.ok.inj h
    exact ⟨.name name, [], rfl, hname, Nat.zero_le _, rfl, rfl⟩

theorem atom_sound (hin : SoundBelow inner n) {t : Text} {p : Parsed TypeNode}
    (h : atom inner t = .ok p) :
    ∃ a, Atom.WellFormed IsBound a ∧ a.nesting ≤ n ∧ Spells a.tokens t p.rest ∧
      p = ⟨a.value, a.redeclared, p.rest⟩ := by
  rw [atom] at h
  split at h
  · exact absurd h (by simp)
  · next v hv =>
    obtain ⟨L, m, hL, hm, hr⟩ := hin.of_deeper h
    obtain ⟨es, comma, hes, hn, hc, hs, hp⟩ := record_sound hL hr
    refine ⟨.record none es comma, ⟨by simp, hc, hes⟩, ?_, ?_, hp⟩
    · exact Nat.le_trans (Nat.succ_le_succ hn) hm
    · exact (spells_mark_iff (by decide)).2 ⟨v, hv, hs⟩
  · next v hv =>
    obtain ⟨q, hq, h⟩ := bind_eq_ok_iff.1 h
    obtain ⟨L, m, hL, hm, hr⟩ := hin.of_deeper hq
    obtain ⟨e, u, he, hn, hs, rfl⟩ := hL.type hr
    simp only [skipSpacing_skipSpacing] at h
    split at h
    · next w hw =>
      obtain rfl := Except.ok.inj h
      refine ⟨.parenthesized e, he, Nat.le_trans (Nat.succ_le_succ hn) hm, ?_, rfl⟩
      refine (spells_mark_iff (by decide)).2 ⟨v, hv, Spells.append.2 ⟨u, hs, ?_⟩⟩
      exact (spells_mark_iff (by decide)).2 ⟨w, hw, rfl⟩
    · exact absurd h (by simp)
  · next c v _ _ hv =>
    split at h
    · next hc =>
      have hname : IsName ((c :: v).takeWhile inName) := by
        refine ⟨?_, fun d hd => List.all_eq_true.1 List.all_takeWhile d hd⟩
        rw [List.takeWhile_cons_of_pos (inName_of_isNameStart hc)]
        simpa using hc
      obtain ⟨a, tokens, ha, hwf, hn, hs, hp⟩ := afterName_sound hin hname h
      refine ⟨a, hwf, hn, ?_, hp⟩
      rw [ha, spells_name_iff hname]
      exact ⟨_, by rw [hv, List.takeWhile_append_dropWhile], hs⟩
    · exact absurd h (by simp)

/-! ## Suffixes, unions, prefixes -/

theorem suffixes_sound (fuel : Nat) : ∀ {found p : Parsed TypeNode}, suffixes fuel found = .ok p →
    ∃ k, Spells (bracketTokens k) found.rest p.rest ∧
      p = ⟨arrayOf found.value k, found.redeclared, p.rest⟩ := by
  induction fuel with
  | zero =>
    intro found p h
    obtain rfl := Except.ok.inj h
    exact ⟨0, rfl, rfl⟩
  | succ fuel ih =>
    intro found p h
    rw [suffixes] at h
    split at h
    · next u hu =>
      split at h
      · next v hv =>
        obtain ⟨k, hs, hp⟩ := ih h
        refine ⟨k + 1, ?_, hp⟩
        refine (spells_mark_iff (by decide)).2 ⟨u, hu, ?_⟩
        exact (spells_mark_iff (by decide)).2 ⟨v, hv, hs⟩
      · exact absurd h (by simp)
    · obtain rfl := Except.ok.inj h
      exact ⟨0, rfl, rfl⟩

theorem suffixed_sound (hin : SoundBelow inner n) {t : Text} {p : Parsed TypeNode}
    (h : suffixed inner t = .ok p) :
    ∃ s following, Suffixed.WellFormed IsBound s ∧ s.nesting ≤ n ∧ Spells s.tokens t following ∧
      p = ⟨s.value, s.redeclared, following⟩ := by
  obtain ⟨found, hfound, h⟩ := bind_eq_ok_iff.1 h
  obtain ⟨a, ha, hn, hs, hp⟩ := atom_sound hin hfound
  obtain ⟨k, hk, hq⟩ := suffixes_sound _ h
  refine ⟨.mk a k, p.rest, ha, hn, Spells.append.2 ⟨found.rest, hs, hk⟩, ?_⟩
  rw [hq, hp]
  rfl

theorem member_sound (hin : SoundBelow inner n) {t : Text} {p : Parsed TypeNode}
    (h : member inner t = .ok p) :
    ∃ (mark : Bool) (s : Suffixed) (following : Text), s.WellFormed IsBound ∧
      s.nesting + (if mark then 1 else 0) ≤ n ∧
      Spells (tokenIf mark '?' ++ s.tokens) t following ∧
      p = ⟨if mark then s.value.nullable else s.value, s.redeclared, following⟩ := by
  rw [member] at h
  split at h
  · next u hu =>
    obtain ⟨q, hq, h⟩ := bind_eq_ok_iff.1 h
    obtain ⟨L, m, hL, hm, hr⟩ := hin.of_deeper hq
    obtain ⟨s, v, hwf, hn, hs, rfl⟩ := hL.suffixed hr
    obtain rfl := Except.ok.inj h
    refine ⟨true, s, v, hwf, Nat.le_trans (Nat.succ_le_succ hn) hm, ?_, rfl⟩
    exact spells_tokenIf_true.2 ((spells_mark_iff (by decide)).2 ⟨u, hu, hs⟩)
  · obtain ⟨s, v, hwf, hn, hs, rfl⟩ := suffixed_sound hin h
    exact ⟨false, s, v, hwf, hn, (Suffixed.opens hwf).spells_skip.1 hs, rfl⟩

theorem members_sound (hin : SoundBelow inner n) (fuel : Nat) :
    ∀ {t : Text} {p : Parsed (List TypeNode)}, members inner fuel (skipSpacing t) = .ok p →
      ∃ ms following, MembersWellFormed IsBound ms ∧ memberNesting ms ≤ n ∧
        Spells (memberTokens ms) t following ∧
        p = ⟨memberValues ms, memberRedeclared ms, skipSpacing following⟩ := by
  induction fuel with
  | zero =>
    intro t p h
    rw [members.eq_def] at h
    obtain rfl := Except.ok.inj h
    exact ⟨[], t, trivial, Nat.zero_le _, rfl, rfl⟩
  | succ fuel ih =>
    intro t p h
    rw [members.eq_def] at h
    split at h
    · next fuel' u hfuel hu =>
      obtain rfl : fuel = fuel' := Nat.succ.inj hfuel
      obtain ⟨first, hfirst, h⟩ := bind_eq_ok_iff.1 h
      obtain ⟨more, hmore, h⟩ := bind_eq_ok_iff.1 h
      obtain ⟨mark, s, v, hwf, hn, hs, rfl⟩ := member_sound hin hfirst
      obtain ⟨ms, w, hwfs, hns, hss, rfl⟩ := ih hmore
      obtain rfl := Except.ok.inj h
      refine ⟨(mark, s) :: ms, w, ⟨hwf, hwfs⟩, Nat.max_le.2 ⟨hn, hns⟩, ?_, rfl⟩
      rw [memberTokens, List.append_assoc, List.cons_append, ← List.append_assoc]
      exact (spells_mark_iff (by decide)).2 ⟨u, hu, Spells.append.2 ⟨v, hs, hss⟩⟩
    · obtain rfl := Except.ok.inj h
      exact ⟨[], t, trivial, Nat.zero_le _, rfl, rfl⟩

theorem type_sound (hin : SoundBelow inner n) {t : Text} {p : Parsed TypeNode}
    (h : type inner t = .ok p) :
    ∃ e following, Tree.WellFormed IsBound e ∧ e.nesting ≤ n ∧ Spells e.tokens t following ∧
      p = ⟨e.value, e.redeclared, skipSpacing following⟩ := by
  rw [type] at h
  split at h
  · next u hu =>
    obtain ⟨q, hq, h⟩ := bind_eq_ok_iff.1 h
    obtain ⟨L, m, hL, hm, hr⟩ := hin.of_deeper hq
    obtain ⟨e, v, hwf, hn, hs, rfl⟩ := hL.type hr
    obtain rfl := Except.ok.inj h
    refine ⟨.nullable e, v, hwf, Nat.le_trans (Nat.succ_le_succ hn) hm, ?_, rfl⟩
    exact (spells_mark_iff (by decide)).2 ⟨u, hu, hs⟩
  · obtain ⟨first, hfirst, h⟩ := bind_eq_ok_iff.1 h
    obtain ⟨more, hmore, h⟩ := bind_eq_ok_iff.1 h
    obtain ⟨s, v, hwf, hn, hs, rfl⟩ := suffixed_sound hin hfirst
    obtain ⟨ms, w, hwfs, hns, hss, rfl⟩ := members_sound hin _ hmore
    obtain rfl := Except.ok.inj h
    refine ⟨.union s ms, w, ⟨hwf, hwfs⟩, Nat.max_le.2 ⟨hn, hns⟩, ?_, ?_⟩
    · exact Spells.append.2 ⟨v, (Suffixed.opens hwf).spells_skip.1 hs, hss⟩
    · cases ms <;> rfl

/-- **What a depth reads has a derivation with the nestings that are left.** -/
theorem level_sound (n : Nat) : (level n).Sound n := by
  induction n with
  | zero =>
    have hin : SoundBelow none 0 := fun L hL => absurd hL (by simp)
    exact ⟨type_sound hin, suffixed_sound hin⟩
  | succ n ih =>
    have hin : SoundBelow (some (level n)) (n + 1) := by
      rintro L ⟨⟩
      exact ⟨n, rfl, ih⟩
    exact ⟨type_sound hin, suffixed_sound hin⟩

end DeclGen.TypeExpr
