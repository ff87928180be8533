import DeclGen.Proofs.Text

/-!
# Decimal numbers

* `Denotes` : digits, maybe behind a sign, denote an integer; `toInt?_eq_some_iff` : such texts are read as what they
  denote, and nothing else is read;
* `IsCanonical` : no plus sign and no zeros in front; `isCanonical_ofInt` : integers are written so;
  `eq_ofInt_iff` : there is one canonical text of an integer.
-/

namespace DeclGen.Text

variable {t digits : Text} {m n : Nat} {i : Int}

/-! ## Digits -/

/-- One or more decimal digits. -/
def IsDigits (t : Text) : Prop := t ≠ [] ∧ ∀ c ∈ t, c.isDigit = true

instance (t : Text) : Decidable (IsDigits t) :=
  have : Decidable (∀ c ∈ t, c.isDigit = true) := List.decidableBAll _ _
  inferInstanceAs (Decidable (t ≠ [] ∧ ∀ c ∈ t, c.isDigit = true))

theorem isDigit_of_toNatFrom (h : toNatFrom m t = some n) : ∀ c ∈ t, c.isDigit = true := by
  induction t generalizing m with
  | nil => exact fun c hc => absurd hc List.not_mem_nil
  | cons c t ih =>
    rw [toNatFrom] at h
    split at h
    · next digit => exact List.forall_mem_cons.2 ⟨digit, ih h⟩
    · exact absurd h (by simp)

theorem toNat?_eq_some_iff : toNat? t = some n ↔ IsDigits t ∧ Nat.ofDigitChars 10 t 0 = n := by
  rw [toNat?]
  split
  · next empty => exact iff_of_false (by simp) fun h => h.1.1 empty
  · next nonempty =>
    constructor
    · intro h
      have digits := isDigit_of_toNatFrom h
      rw [toNatFrom_of_isDigit digits] at h
      exact ⟨⟨nonempty, digits⟩, Option.some.inj h⟩
    · rintro ⟨digits, rfl⟩
      exact toNatFrom_of_isDigit digits.2 0

/-! ## Signs -/

/-- The text is decimal digits, maybe behind a sign, and denotes the integer. -/
inductive Denotes : Text → Int → Prop
  | unsigned {digits : Text} (h : IsDigits digits) : Denotes digits (Nat.ofDigitChars 10 digits 0)
  | plus {digits : Text} (h : IsDigits digits) : Denotes ('+' :: digits) (Nat.ofDigitChars 10 digits 0)
  | minus {digits : Text} (h : IsDigits digits) : Denotes ('-' :: digits) (-(Nat.ofDigitChars 10 digits 0 : Int))

theorem toInt?_eq_some_iff : toInt? t = some i ↔ Denotes t i := by
  constructor
  · intro h
    unfold toInt? at h
    split at h
    · obtain ⟨n, hn, rfl⟩ := Option.map_eq_some_iff.1 h
      obtain ⟨digits, rfl⟩ := toNat?_eq_some_iff.1 hn
      exact .plus digits
    · obtain ⟨n, hn, rfl⟩ := Option.map_eq_some_iff.1 h
      obtain ⟨digits, rfl⟩ := toNat?_eq_some_iff.1 hn
      exact .minus digits
    · obtain ⟨n, hn, rfl⟩ := Option.map_eq_some_iff.1 h
      obtain ⟨digits, rfl⟩ := toNat?_eq_some_iff.1 hn
      exact .unsigned digits
  · intro h
    cases h with
    | unsigned h =>
      have signless {c : Char} (hc : c.isDigit = false) (rest : Text) : t ≠ c :: rest := by
        rintro rfl
        exact absurd (h.2 c List.mem_cons_self) (by simp [hc])
      unfold toInt?
      split
      · exact absurd rfl (signless (by decide) _)
      · exact absurd rfl (signless (by decide) _)
      · rw [toNat?_eq_some_iff.2 ⟨h, rfl⟩]
        rfl
    | plus h =>
      show (toNat? _).map Int.ofNat = _
      rw [toNat?_eq_some_iff.2 ⟨h, rfl⟩]
      rfl
    | minus h =>
      show (toNat? _).map (fun n => -Int.ofNat n) = _
      rw [toNat?_eq_some_iff.2 ⟨h, rfl⟩]
      rfl

/-! ## Canonical texts -/

/-- No digit is dispensable, and no sign. -/
inductive IsCanonical : Text → Prop
  | zero : IsCanonical ['0']
  | positive {c : Char} {digits : Text} (h : IsDigits (c :: digits)) (hc : c ≠ '0') : IsCanonical (c :: digits)
  | negative {c : Char} {digits : Text} (h : IsDigits (c :: digits)) (hc : c ≠ '0') : IsCanonical ('-' :: c :: digits)

/-- A positive number does not start with a zero. -/
theorem ofNat_eq_cons (h : 0 < n) : ∃ c digits, ofNat n = c :: digits ∧ c ≠ '0' := by
  induction n using Nat.strongRecOn with
  | ind n ih =>
    rw [ofNat, Nat.toDigits_eq_if (by decide)]
    split
    · next small =>
      refine ⟨n.digitChar, [], rfl, fun zero => ?_⟩
      have value := Nat.toNat_digitChar_of_lt_ten small
      rw [zero] at value
      have : '0'.toNat = 48 := rfl
      omega
    · next large =>
      obtain ⟨c, digits, parts, hc⟩ := ih (n / 10) (by omega) (by omega)
      rw [ofNat] at parts
      exact ⟨c, digits ++ [(n % 10).digitChar], by rw [parts, List.cons_append], hc⟩

theorem isDigits_ofNat (n : Nat) : IsDigits (ofNat n) := ⟨ofNat_ne_nil n, fun _ => isDigit_of_mem_ofNat⟩

theorem isCanonical_ofInt (i : Int) : IsCanonical (ofInt i) := by
  cases i with
  | ofNat n =>
    show IsCanonical (ofNat n)
    rcases Nat.eq_zero_or_pos n with rfl | positive
    · exact .zero
    · obtain ⟨c, digits, parts, hc⟩ := ofNat_eq_cons positive
      have all := isDigits_ofNat n
      rw [parts] at all ⊢
      exact .positive all hc
  | negSucc n =>
    show IsCanonical ('-' :: ofNat (n + 1))
    obtain ⟨c, digits, parts, hc⟩ := ofNat_eq_cons n.succ_pos
    have all := isDigits_ofNat (n + 1)
    rw [parts] at all ⊢
    exact .negative all hc

theorem digitChar_of_isDigit {c : Char} (h : c.isDigit = true) :
    c.toNat - '0'.toNat < 10 ∧ (c.toNat - '0'.toNat).digitChar = c := by
  have bounds := isDigit_iff.1 h
  have zero : '0'.toNat = 48 := rfl
  have small : c.toNat - '0'.toNat < 10 := by omega
  refine ⟨small, Char.toNat_inj.1 ?_⟩
  rw [Nat.toNat_digitChar_of_lt_ten small]
  omega

/-- Digits behind those of a positive number are kept. -/
theorem ofNat_ofDigitChars (positive : 0 < m) (h : ∀ c ∈ digits, c.isDigit = true) :
    ofNat (Nat.ofDigitChars 10 digits m) = ofNat m ++ digits := by
  induction digits generalizing m with
  | nil => exact (List.append_nil _).symm
  | cons c digits ih =>
    rw [List.forall_mem_cons] at h
    obtain ⟨small, same⟩ := digitChar_of_isDigit h.1
    have next : ofNat (10 * m + (c.toNat - '0'.toNat)) = ofNat m ++ [c] := by
      have digit := Nat.toDigits_append_toDigits (b := 10) (by decide) positive small
      rw [Nat.toDigits_of_lt_base small, same] at digit
      exact digit.symm
    rw [Nat.ofDigitChars_cons, ih (by omega) h.2, next, List.append_assoc, List.singleton_append]

/-- Digits without a zero in front are those of a positive number. -/
theorem exists_ofNat {c : Char} (h : IsDigits (c :: digits)) (hc : c ≠ '0') :
    0 < Nat.ofDigitChars 10 (c :: digits) 0 ∧ ofNat (Nat.ofDigitChars 10 (c :: digits) 0) = c :: digits := by
  obtain ⟨-, all⟩ := h
  rw [List.forall_mem_cons] at all
  obtain ⟨small, same⟩ := digitChar_of_isDigit all.1
  have positive : 0 < c.toNat - '0'.toNat := by
    refine Nat.pos_of_ne_zero fun zero => hc ?_
    rw [← same, zero]
    rfl
  have first : ofNat (c.toNat - '0'.toNat) = [c] := by
    rw [ofNat, Nat.toDigits_of_lt_base small, same]
  have written : ofNat (Nat.ofDigitChars 10 (c :: digits) 0) = c :: digits := by
    rw [Nat.ofDigitChars_cons, Nat.mul_zero, Nat.zero_add, ofNat_ofDigitChars positive all.2, first,
      List.singleton_append]
  refine ⟨Nat.pos_of_ne_zero fun zero => hc ?_, written⟩
  rw [zero] at written
  exact (List.cons.inj written).1.symm

theorem Denotes.unique {j : Int} (h : Denotes t i) (h' : Denotes t j) : i = j :=
  Option.some.inj ((toInt?_eq_some_iff.2 h).symm.trans (toInt?_eq_some_iff.2 h'))

theorem denotes_ofInt (i : Int) : Denotes (ofInt i) i := toInt?_eq_some_iff.1 (toInt?_ofInt i)

/-- **Integers have one canonical text.** -/
theorem eq_ofInt_iff : t = ofInt i ↔ IsCanonical t ∧ Denotes t i := by
  constructor
  · rintro rfl
    exact ⟨isCanonical_ofInt i, denotes_ofInt i⟩
  · rintro ⟨canonical, denotes⟩
    cases canonical with
    | zero =>
      obtain rfl := denotes.unique (denotes_ofInt 0)
      rfl
    | positive h hc =>
      obtain rfl := denotes.unique (.unsigned h)
      exact (exists_ofNat h hc).2.symm
    | @negative c digits h hc =>
      obtain rfl := denotes.unique (.minus h)
      obtain ⟨positive, written⟩ := exists_ofNat h hc
      obtain ⟨n, hn⟩ := Nat.exists_eq_succ_of_ne_zero (Nat.ne_of_gt positive)
      rw [hn] at written ⊢
      exact congrArg ('-' :: ·) written.symm

end DeclGen.Text
