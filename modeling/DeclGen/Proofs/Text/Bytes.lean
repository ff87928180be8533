import DeclGen.Proofs.Text

/-!
# Texts as bytes

Offsets count the bytes of a text in UTF-8. A scanner that walks over bytes sees those of a character one by one, and
takes each for the character of its code; it can tell ASCII characters from all others, and that is enough.

* `bytes`, `drop_bytes` : the bytes of a text, and those behind an offset;
* `Uniform`, `lead`, `takeWhile_bytes` : a class that holds all characters beyond ASCII or none of them is read off the
  bytes of a text;
* `IsBoundary` : the offsets between two characters; `isBoundary_iff` : those at which no byte goes on with a
  character;
* `between?` : the part between two offsets, which is there if both are boundaries (`isSome_between?_iff`);
* `offset` : where a rest of the text starts.
-/

namespace DeclGen.Text

/-- The bytes of a text in UTF-8. -/
def bytes (t : Text) : List UInt8 := t.flatMap String.utf8EncodeChar

@[simp] theorem bytes_nil : bytes [] = [] := rfl

@[simp] theorem bytes_cons (c : Char) (t : Text) : bytes (c :: t) = String.utf8EncodeChar c ++ bytes t := rfl

theorem bytes_append (s t : Text) : bytes (s ++ t) = bytes s ++ bytes t := List.flatMap_append

theorem length_bytes (t : Text) : (bytes t).length = size t := by
  induction t with
  | nil => rfl
  | cons c t ih => rw [bytes_cons, List.length_append, String.length_utf8EncodeChar, ih, size_cons]

theorem drop_bytes (before rest : Text) : (bytes (before ++ rest)).drop (size before) = bytes rest := by
  rw [bytes_append, ← length_bytes, List.drop_left]

theorem length_le_size (t : Text) : t.length ≤ size t := by
  induction t with
  | nil => exact Nat.le_refl 0
  | cons c t ih =>
    have := Char.utf8Size_pos c
    rw [List.length_cons, size_cons]
    omega

/-! ## Bytes of one character -/

theorem encode_ascii {c : Char} (h : c.toNat < 128) : String.utf8EncodeChar c = [UInt8.ofNat c.toNat] := by
  have h' : c.val.toNat ≤ 127 := Nat.le_of_lt_succ h
  rw [String.utf8EncodeChar.eq_1, if_pos h']
  rfl

/-- A character beyond ASCII has no byte in common with ASCII. -/
theorem le_of_mem_encode {c : Char} (h : 128 ≤ c.toNat) {b : UInt8} (hb : b ∈ String.utf8EncodeChar c) :
    128 ≤ b.toNat := by
  have h' : ¬ c.val.toNat ≤ 127 := Nat.not_le_of_lt h
  rw [String.utf8EncodeChar.eq_1, if_neg h'] at hb
  split at hb
  · simp only [List.mem_cons, List.not_mem_nil, or_false] at hb
    rcases hb with rfl | rfl <;> rw [UInt8.toNat_ofNat'] <;> omega
  · split at hb
    · simp only [List.mem_cons, List.not_mem_nil, or_false] at hb
      rcases hb with rfl | rfl | rfl <;> rw [UInt8.toNat_ofNat'] <;> omega
    · simp only [List.mem_cons, List.not_mem_nil, or_false] at hb
      rcases hb with rfl | rfl | rfl | rfl <;> rw [UInt8.toNat_ofNat'] <;> omega

theorem ofUInt8_ofNat {c : Char} (h : c.toNat < 128) : Char.ofUInt8 (UInt8.ofNat c.toNat) = c := by
  apply Char.ext
  apply UInt32.toNat_inj.mp
  show (UInt8.ofNat c.toNat).toNat = c.toNat
  rw [UInt8.toNat_ofNat']
  omega

/-- The first byte of a character, taken for the character of its code. -/
def lead (c : Char) : Char := Char.ofUInt8 ((String.utf8EncodeChar c).head String.utf8EncodeChar_ne_nil)

theorem lead_ascii {c : Char} (h : c.toNat < 128) : lead c = c := by
  simp only [lead, encode_ascii h, List.head_cons, ofUInt8_ofNat h]

theorem le_lead {c : Char} (h : 128 ≤ c.toNat) : 128 ≤ (lead c).toNat := le_of_mem_encode h (List.head_mem _)

theorem head?_bytes (t : Text) : (bytes t).head?.map Char.ofUInt8 = t.head?.map lead := by
  cases t with
  | nil => rfl
  | cons c t =>
    rw [bytes_cons, List.head?_append, List.head?_eq_some_head String.utf8EncodeChar_ne_nil]
    rfl

/-! ## Classes of characters -/

/-- All characters beyond ASCII are of the class, or none is. -/
def Uniform (p : Char → Bool) : Prop := ∃ b, ∀ c : Char, 128 ≤ c.toNat → p c = b

theorem Uniform.lead_eq {p : Char → Bool} (h : Uniform p) (c : Char) : p (lead c) = p c := by
  obtain ⟨b, beyond⟩ := h
  by_cases hc : c.toNat < 128
  · rw [lead_ascii hc]
  · have hc := Nat.le_of_not_lt hc
    rw [beyond c hc, beyond _ (le_lead hc)]

theorem uniform_of_lt {p : Char → Bool} (h : ∀ c, p c = true → c.toNat < 128) : Uniform p := by
  refine ⟨false, fun c hc => Bool.eq_false_iff.2 fun hp => ?_⟩
  have := h c hp
  omega

theorem Uniform.not {p : Char → Bool} (h : Uniform p) : Uniform (!p ·) := by
  obtain ⟨b, beyond⟩ := h
  exact ⟨!b, fun c hc => congrArg (!·) (beyond c hc)⟩

theorem uniform_eq {d : Char} (h : d.toNat < 128) : Uniform (· = d) := by
  refine uniform_of_lt fun c hc => ?_
  obtain rfl : c = d := by simpa using hc
  exact h

theorem lead_eq_iff {d : Char} (h : d.toNat < 128) {c : Char} : lead c = d ↔ c = d := by
  simpa using (uniform_eq h).lead_eq c

theorem head?_lead_iff {d : Char} (h : d.toNat < 128) {t : Text} : t.head?.map lead = some d ↔ t.head? = some d := by
  cases t with
  | nil => simp
  | cons c t => simp [lead_eq_iff h]

theorem lt_of_isSpacing {c : Char} (h : isSpacing c = true) : c.toNat < 128 := by
  simp only [isSpacing, Bool.or_eq_true, decide_eq_true_eq] at h
  rcases h with (((rfl | rfl) | rfl) | rfl) | rfl <;> decide

theorem uniform_isSpacing : Uniform isSpacing := uniform_of_lt fun _ => lt_of_isSpacing

theorem uniform_isAlphanum : Uniform Char.isAlphanum := by
  refine uniform_of_lt fun c hc => ?_
  have := toNat_of_isAlphanum hc
  omega

theorem uniform_isAlpha : Uniform Char.isAlpha := by
  refine uniform_of_lt fun c hc => ?_
  have := toNat_of_isAlphanum (c := c) (by rw [Char.isAlphanum, hc, Bool.true_or])
  omega

theorem uniform_isDigit : Uniform Char.isDigit := by
  refine uniform_of_lt fun c hc => ?_
  have := isDigit_iff.1 hc
  omega

theorem Uniform.or {p q : Char → Bool} (hp : Uniform p) (hq : Uniform q) : Uniform fun c => p c || q c := by
  obtain ⟨b, beyond⟩ := hp
  obtain ⟨b', beyond'⟩ := hq
  refine ⟨b || b', fun c hc => ?_⟩
  show (p c || q c) = _
  rw [beyond c hc, beyond' c hc]

/-- A word of a uniform class has as many bytes as are taken one by one. -/
theorem takeWhile_bytes {p : Char → Bool} (h : Uniform p) (t : Text) :
    (bytes t).takeWhile (fun b => p (Char.ofUInt8 b)) = bytes (t.takeWhile p) := by
  induction t with
  | nil => rfl
  | cons c t ih =>
    cases hc : p c with
    | false =>
      have first : p (Char.ofUInt8 ((String.utf8EncodeChar c).head String.utf8EncodeChar_ne_nil)) = false :=
        (h.lead_eq c).trans hc
      rw [List.takeWhile_cons_of_neg (by simp [hc]), bytes_cons,
        ← List.cons_head_tail (l := String.utf8EncodeChar c) String.utf8EncodeChar_ne_nil, List.cons_append,
        List.takeWhile_cons_of_neg (by simp [first]), bytes_nil]
    | true =>
      have all : ∀ b ∈ String.utf8EncodeChar c, p (Char.ofUInt8 b) = true := by
        intro b hb
        by_cases ascii : c.toNat < 128
        · rw [encode_ascii ascii, List.mem_singleton] at hb
          rw [hb, ofUInt8_ofNat ascii, hc]
        · obtain ⟨same, beyond⟩ := h
          have far := Nat.le_of_not_lt ascii
          rw [beyond (Char.ofUInt8 b) (le_of_mem_encode far hb), ← beyond c far, hc]
      rw [List.takeWhile_cons_of_pos hc, bytes_cons, List.takeWhile_append_of_pos all, ih, bytes_cons]

/-! ## Boundaries -/

/-- The offsets between two characters, and at the ends of the text. -/
def IsBoundary (n : Nat) (t : Text) : Prop := ∃ before rest, t = before ++ rest ∧ size before = n

variable {n start stop : Nat} {t : Text}

theorem IsBoundary.le_size (h : IsBoundary n t) : n ≤ size t := by
  obtain ⟨before, rest, rfl, rfl⟩ := h
  rw [size_append]
  omega

theorem isSome_dropBytes?_iff : (dropBytes? n t).isSome = true ↔ IsBoundary n t := by
  rw [Option.isSome_iff_exists]
  constructor
  · rintro ⟨rest, h⟩
    obtain ⟨before, ht, hn⟩ := dropBytes?_eq_some_iff.1 h
    exact ⟨before, rest, ht, hn⟩
  · rintro ⟨before, rest, ht, hn⟩
    exact ⟨rest, dropBytes?_eq_some_iff.2 ⟨before, ht, hn⟩⟩

/-- Within the bytes of the first character only the first one is at a boundary. -/
theorem isBoundary_cons_of_lt {c : Char} (h : n < c.utf8Size) : IsBoundary n (c :: t) ↔ n = 0 := by
  constructor
  · rintro ⟨before, rest, ht, rfl⟩
    cases before with
    | nil => rfl
    | cons d before =>
      obtain ⟨rfl, -⟩ := List.cons.inj ht
      rw [size_cons] at h
      omega
  · rintro rfl
    exact ⟨[], c :: t, rfl, rfl⟩

theorem isBoundary_cons_add {c : Char} {m : Nat} : IsBoundary (c.utf8Size + m) (c :: t) ↔ IsBoundary m t := by
  constructor
  · rintro ⟨before, rest, ht, hn⟩
    cases before with
    | nil =>
      have := Char.utf8Size_pos c
      rw [size_nil] at hn
      omega
    | cons d before =>
      obtain ⟨rfl, rfl⟩ := List.cons.inj ht
      rw [size_cons] at hn
      exact ⟨before, rest, rfl, by omega⟩
  · rintro ⟨before, rest, rfl, rfl⟩
    exact ⟨c :: before, rest, rfl, rfl⟩

/-- The boundaries in terms of bytes: the end, and where the first byte of a character stands. -/
theorem isBoundary_iff : IsBoundary n t ↔ n = size t ∨ ∃ b ∈ (bytes t)[n]?, b.IsUTF8FirstByte := by
  induction t generalizing n with
  | nil =>
    constructor
    · exact fun h => .inl (Nat.le_zero.1 h.le_size)
    · rintro (rfl | ⟨b, hb, -⟩)
      · exact ⟨[], [], rfl, rfl⟩
      · exact absurd hb (by simp)
  | cons c t ih =>
    have width := String.length_utf8EncodeChar c
    by_cases inside : n < c.utf8Size
    · have byte : (bytes (c :: t))[n]? = some (String.utf8EncodeChar c)[n] := by
        rw [bytes_cons, List.getElem?_append_left (by omega), List.getElem?_eq_getElem]
      have notEnd : n ≠ size (c :: t) := by
        rw [size_cons]
        omega
      rw [isBoundary_cons_of_lt inside, byte]
      simp only [notEnd, false_or, Option.mem_def, Option.some.injEq, exists_eq_left',
        UInt8.isUTF8FirstByte_getElem_utf8EncodeChar]
    · obtain ⟨m, rfl⟩ := Nat.exists_eq_add_of_le (Nat.le_of_not_lt inside)
      have byte : (bytes (c :: t))[c.utf8Size + m]? = (bytes t)[m]? := by
        rw [bytes_cons, List.getElem?_append_right (by omega), width, Nat.add_sub_cancel_left]
      rw [isBoundary_cons_add, ih, byte, size_cons, Nat.add_left_cancel_iff]

/-! ## Parts -/

/-- The part of a text from byte `start` to byte `stop`, if both are boundaries in this order. -/
def between? (start stop : Nat) (t : Text) : Option Text := if start ≤ stop then slice? start stop t else none

theorem between?_append (before part rest : Text) :
    between? (size before) (size before + size part) (before ++ (part ++ rest)) = some part := by
  have front : dropBytes? (size before) (before ++ (part ++ rest)) = some (part ++ rest) :=
    dropBytes?_eq_some_iff.2 ⟨before, rfl, rfl⟩
  have back : dropBytes? (size part) (part ++ rest) = some rest := dropBytes?_eq_some_iff.2 ⟨part, rfl, rfl⟩
  rw [between?, if_pos (Nat.le_add_right _ _), slice?]
  simp only [front, Nat.add_sub_cancel_left, back, Option.bind_eq_bind, Option.bind_some, List.length_append,
    Nat.add_sub_cancel]
  exact congrArg some List.take_left

theorem isSome_between?_iff :
    (between? start stop t).isSome = true ↔ start ≤ stop ∧ IsBoundary start t ∧ IsBoundary stop t := by
  constructor
  · intro h
    rw [between?] at h
    split at h
    · next ordered =>
      rw [slice?] at h
      cases hf : dropBytes? start t with
      | none => simp [hf] at h
      | some rest =>
        cases hb : dropBytes? (stop - start) rest with
        | none => simp [hf, hb] at h
        | some after =>
          obtain ⟨before, rfl, hbefore⟩ := dropBytes?_eq_some_iff.1 hf
          obtain ⟨part, rfl, hpart⟩ := dropBytes?_eq_some_iff.1 hb
          refine ⟨ordered, ⟨before, _, rfl, hbefore⟩, before ++ part, after, by simp, ?_⟩
          rw [size_append]
          omega
    · simp at h
  · rintro ⟨ordered, ⟨before, rest, rfl, rfl⟩, before', rest', same, rfl⟩
    -- The longer of the two fronts is the shorter one and the part.
    rcases List.append_eq_append_iff.1 same with ⟨part, rfl, rfl⟩ | ⟨part, rfl, rfl⟩
    · rw [size_append, between?_append]
      rfl
    · rw [size_append] at ordered ⊢
      have empty : part = [] := by
        have := length_le_size part
        exact List.length_eq_zero_iff.1 (by omega)
      subst empty
      simpa using congrArg Option.isSome (between?_append before' [] rest)

/-! ## Rests -/

/-- What is left without the first character of a rest. -/
theorem suffix_of_cons {c : Char} {t u : Text} (h : c :: t <:+ u) : t <:+ u := (List.suffix_cons c t).trans h

/-- The offset at which a rest of the text starts. -/
def offset (src rest : Text) : Nat := size src - size rest

theorem offset_append (before rest : Text) : offset (before ++ rest) rest = size before := by
  rw [offset, size_append, Nat.add_sub_cancel]

theorem isBoundary_offset {src rest : Text} (h : rest <:+ src) : IsBoundary (offset src rest) src := by
  obtain ⟨before, rfl⟩ := h
  exact ⟨before, rest, rfl, (offset_append before rest).symm⟩

theorem drop_offset {src rest : Text} (h : rest <:+ src) : (bytes src).drop (offset src rest) = bytes rest := by
  obtain ⟨before, rfl⟩ := h
  rw [offset_append, drop_bytes]

/-- The byte that comes next, as the character of its code. -/
theorem getElem?_offset {src rest : Text} (h : rest <:+ src) :
    (bytes src)[offset src rest]?.map Char.ofUInt8 = rest.head?.map lead := by
  rw [← head?_bytes, ← drop_offset h, List.head?_drop]

theorem offset_of_append {src front rest : Text} (h : front ++ rest <:+ src) :
    offset src rest = offset src (front ++ rest) + size front := by
  obtain ⟨before, rfl⟩ := h
  rw [offset_append, ← List.append_assoc, offset_append, size_append]

theorem offset_tail {src rest : Text} {c : Char} (h : c :: rest <:+ src) :
    offset src rest = offset src (c :: rest) + c.utf8Size := by
  have step : offset src rest = offset src ([c] ++ rest) + size [c] := offset_of_append h
  exact step

theorem dropBytes?_offset {src rest : Text} (h : rest <:+ src) : dropBytes? (offset src rest) src = some rest := by
  obtain ⟨before, rfl⟩ := h
  rw [offset_append]
  exact dropBytes?_eq_some_iff.2 ⟨before, rfl, rfl⟩

theorem between?_offset {src part rest : Text} (h : part ++ rest <:+ src) :
    between? (offset src (part ++ rest)) (offset src rest) src = some part := by
  rw [offset_of_append h]
  obtain ⟨before, rfl⟩ := h
  rw [offset_append, between?_append]

theorem utf8Size_ascii {c : Char} (h : c.toNat < 128) : c.utf8Size = 1 := by
  rw [← String.length_utf8EncodeChar, encode_ascii h]
  rfl

end DeclGen.Text
