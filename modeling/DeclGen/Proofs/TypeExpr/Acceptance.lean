import DeclGen.Proofs.TypeExpr.Soundness
import DeclGen.Proofs.TypeExpr.Unambiguous

/-!
# Which type expressions are accepted

* `parseRoot_of_derives`, `derives_of_parseRoot` : a text is read iff it has a derivation;
* `diagnose_of_derives`, `diagnose_of_underivable` : the type and the warnings of a text;
* `parse_of_derives`, `parse_eq` : a text denotes what its derivation denotes, or `any`;
* `Accepted`, `diagnose_spec` : the texts that are accepted are those of the grammar, but for a minus
  sign that stands alone as the bound of a range.
-/

namespace DeclGen.TypeExpr
open Text (isSpacing skipSpacing)

theorem parseRoot_of_derives {e : Tree} {t : Text} (h : Derives IsBound e t) :
    parseRoot t = .ok ⟨e.value, e.redeclared, []⟩ := by
  obtain ⟨rest, hs, hblank⟩ := h.spells
  have hrest : skipSpacing rest = [] := skipSpacing_eq_nil_iff.2 hblank
  have ho := Tree.opens h.wellFormed
  have hb : Before closers rest := Before.of_blank hrest
  have hne : skipSpacing t ≠ [] := by
    obtain ⟨c, token, more, he, -, hc⟩ := ho.exists_cons
    rw [he, spells_cons_iff hc] at hs
    obtain ⟨following, ht, -⟩ := hs
    rw [ht]
    exact List.cons_ne_nil _ _
  have read := (level_complete maxNesting).type h.wellFormed h.nesting_le (ho.spells_skip.2 hs) hb
  rw [parseRoot]
  split
  · next h0 => exact absurd h0 hne
  · simp only [read, ok_bind, hrest]
    rfl

theorem derives_of_parseRoot {t : Text} {p : Parsed TypeNode} (h : parseRoot t = .ok p) :
    ∃ e, Derives IsBound e t ∧ p.value = e.value := by
  rw [parseRoot] at h
  split at h
  · exact absurd h (by simp)
  · obtain ⟨found, hread, h⟩ := bind_eq_ok_iff.1 h
    obtain ⟨e, rest, hwf, hn, hs, rfl⟩ := (level_sound maxNesting).type hread
    simp only [skipSpacing_skipSpacing] at h
    split at h
    · next hrest =>
      obtain rfl := Except.ok.inj h
      have hs := (Tree.opens hwf).spells_skip.1 hs
      exact ⟨e, ⟨hwf, hn, rest, hs, skipSpacing_eq_nil_iff.1 hrest⟩, rfl⟩
    · exact absurd h (by simp)

theorem diagnose_of_derives {e : Tree} {t : Text} (h : Derives IsBound e t) :
    diagnose t = ⟨e.value, e.redeclared.map .duplicateKey⟩ := by
  rw [diagnose, parseRoot_of_derives h]

theorem diagnose_of_underivable {t : Text} (h : ¬ ∃ e, Derives IsBound e t) :
    ∃ position reason, diagnose t = ⟨.any, [.malformed t position reason]⟩ := by
  cases hp : parseRoot t with
  | ok p =>
    obtain ⟨e, he, -⟩ := derives_of_parseRoot hp
    exact absurd ⟨e, he⟩ h
  | error failure =>
    rw [diagnose, hp]
    exact ⟨_, _, rfl⟩

theorem parse_of_derives {e : Tree} {t : Text} (h : Derives IsBound e t) : parse t = e.value := by
  rw [parse, diagnose_of_derives h]

theorem parse_eq (t : Text) : (∃ e, Derives IsBound e t ∧ parse t = e.value) ∨ parse t = .any := by
  by_cases h : ∃ e, Derives IsBound e t
  · obtain ⟨e, he⟩ := h
    exact Or.inl ⟨e, he, parse_of_derives he⟩
  · obtain ⟨position, reason, hd⟩ := diagnose_of_underivable h
    exact Or.inr (by rw [parse, hd])

/-! ## Integers as bounds -/

mutual

theorem Tree.WellFormed.mono {p q : Text → Prop} (hpq : ∀ word, p word → q word) :
    ∀ e : Tree, e.WellFormed p → e.WellFormed q
  | .nullable e, h => Tree.WellFormed.mono hpq e h
  | .union s ms, h => ⟨Suffixed.WellFormed.mono hpq s h.1, MembersWellFormed.mono hpq ms h.2⟩

theorem MembersWellFormed.mono {p q : Text → Prop} (hpq : ∀ word, p word → q word) :
    ∀ ms : List (Bool × Suffixed), MembersWellFormed p ms → MembersWellFormed q ms
  | [], _ => trivial
  | (_, s) :: ms, h => ⟨Suffixed.WellFormed.mono hpq s h.1, MembersWellFormed.mono hpq ms h.2⟩

theorem Suffixed.WellFormed.mono {p q : Text → Prop} (hpq : ∀ word, p word → q word) :
    ∀ s : Suffixed, s.WellFormed p → s.WellFormed q
  | .mk a _, h => Atom.WellFormed.mono hpq a h

theorem Atom.WellFormed.mono {p q : Text → Prop} (hpq : ∀ word, p word → q word) :
    ∀ a : Atom, a.WellFormed p → a.WellFormed q
  | .name _, h => h
  | .record _ es _, h => ⟨h.1, h.2.1, EntriesWellFormed.mono hpq es h.2.2⟩
  | .applied _ as, h => ⟨h.1, h.2.1, h.2.2.1, ArgumentsWellFormed.mono hpq as h.2.2.2⟩
  | .parenthesized e, h => Tree.WellFormed.mono hpq e h

theorem EntriesWellFormed.mono {p q : Text → Prop} (hpq : ∀ word, p word → q word) :
    ∀ es : List (EntryTree Tree), EntriesWellFormed p es → EntriesWellFormed q es
  | [], _ => trivial
  | ⟨_, e⟩ :: es, h => ⟨h.1, Tree.WellFormed.mono hpq e h.2.1, EntriesWellFormed.mono hpq es h.2.2⟩

theorem ArgumentsWellFormed.mono {p q : Text → Prop} (hpq : ∀ word, p word → q word) :
    ∀ as : List (ArgumentTree Tree), ArgumentsWellFormed p as → ArgumentsWellFormed q as
  | [], _ => trivial
  | .type e :: as, h => ⟨Tree.WellFormed.mono hpq e h.1, ArgumentsWellFormed.mono hpq as h.2⟩
  | .bound word :: as, h => ⟨hpq word h.1, ArgumentsWellFormed.mono hpq as h.2⟩

end

/-- Integers are bounds. -/
theorem Derives.isBound {e : Tree} {t : Text} (h : Derives IsInteger e t) : Derives IsBound e t :=
  ⟨Tree.WellFormed.mono (fun _ => Or.inl) e h.wellFormed, h.nesting_le, h.spells⟩

/-- No warning tells that the text is malformed. -/
def Accepted (t : Text) : Prop :=
  ∀ input position reason, .malformed input position reason ∉ (diagnose t).warnings

theorem accepted_iff {t : Text} : Accepted t ↔ ∃ e, Derives IsBound e t := by
  constructor
  · intro h
    by_cases hd : ∃ e, Derives IsBound e t
    · exact hd
    · obtain ⟨position, reason, ht⟩ := diagnose_of_underivable hd
      exact absurd (by rw [ht]; exact List.mem_cons_self) (h t position reason)
  · rintro ⟨e, he⟩ input position reason hm
    rw [diagnose_of_derives he] at hm
    obtain ⟨key, -, hk⟩ := List.mem_map.1 hm
    exact absurd hk (by simp)

/-- **Which texts are accepted.** A text with a derivation denotes what the derivation does, and
keys declared again are its only warnings; any other text denotes `any` and has one warning. With
integers for bounds, as the grammar has them, the accepted texts are those with a derivation, unless
a minus sign stands alone for a bound. -/
theorem diagnose_spec (t : Text) :
    (∀ e, Derives IsBound e t → diagnose t = ⟨e.value, e.redeclared.map .duplicateKey⟩) ∧
    ((¬ ∃ e, Derives IsBound e t) →
      ∃ position reason, diagnose t = ⟨.any, [.malformed t position reason]⟩) ∧
    ((Accepted t ↔ ∃ e, Derives IsInteger e t) ↔
      ¬ ∃ e, Derives IsBound e t ∧ ¬ e.WellFormed IsInteger) := by
  refine ⟨fun e he => diagnose_of_derives he, diagnose_of_underivable, ?_⟩
  rw [accepted_iff]
  constructor
  · rintro h ⟨e, he, hn⟩
    obtain ⟨d, hd⟩ := h.1 ⟨e, he⟩
    rw [he.unique hd.isBound] at hn
    exact hn hd.wellFormed
  · intro h
    constructor
    · rintro ⟨e, he⟩
      by_cases hw : e.WellFormed IsInteger
      · exact ⟨e, hw, he.nesting_le, he.spells⟩
      · exact absurd ⟨e, he, hw⟩ h
    · rintro ⟨e, he⟩
      exact ⟨e, he.isBound⟩

/-- A minus sign alone is accepted for a bound. -/
theorem lone_minus_accepted :
    ∃ t e, Derives IsBound e t ∧ ¬ e.WellFormed IsInteger ∧ diagnose t = ⟨.primitive .integer, []⟩ ∧
      ¬ (Accepted t ↔ ∃ e, Derives IsInteger e t) := by
  let e : Tree := .union (.mk (.applied "int".toList [.bound ['-']]) 0) []
  have he : Derives IsBound e "int<->".toList := by
    have hname : IsName "int".toList := ⟨by decide, List.all_eq_true.1 (by decide)⟩
    refine ⟨⟨⟨hname, by simp, by decide, Or.inr rfl, trivial⟩, trivial⟩, by decide, [], ?_, by simp⟩
    exact ⟨[], "<->".toList, by simp, rfl, [], "->".toList, by simp, rfl, [], ">".toList, by simp, rfl,
      [], [], by simp, rfl, rfl⟩
  have hn : ¬ e.WellFormed IsInteger := by
    rintro ⟨⟨-, -, -, ⟨digits, hne, hd, hw | hw⟩, -⟩, -⟩
    · rw [← hw] at hd
      exact absurd (hd '-' List.mem_cons_self) (by decide)
    · exact hne (List.cons.inj hw).2.symm
  obtain ⟨read, -, exactly⟩ := diagnose_spec "int<->".toList
  exact ⟨_, e, he, hn, read e he, fun h => exactly.1 h ⟨e, he, hn⟩⟩

end DeclGen.TypeExpr
