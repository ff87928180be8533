/-!
# Text: lists of characters

* `Text` : a list of Unicode characters; every name, type expression and generated file is one;
* `Text.size` : the length in UTF-8 bytes, the unit of every reported offset;
* `Text.split`, `Text.lines` : cutting at separators and at line feeds;
* `Text.afterLast`, `Text.beforeLast` : the parts around the last separator;
* `Text.after?` : what follows a given start; `Text.cut?` : what stands around a given part;
* `Text.dropBytes?`, `Text.slice?` : the parts between places that are counted in bytes;
* `Text.contains` : the search for a given part;
* `Text.ofNat`, `Text.ofInt`, `Text.toNat?`, `Text.toInt?` : decimal numbers.
-/

namespace DeclGen

/-- A list of Unicode characters. -/
abbrev Text := List Char

instance : LawfulBEq Text := inferInstance

namespace Text

/-- The length in UTF-8 bytes. -/
def size : Text → Nat
  | [] => 0
  | c :: t => c.utf8Size + size t

@[simp] theorem size_nil : size [] = 0 := rfl

@[simp] theorem size_cons (c : Char) (t : Text) : size (c :: t) = c.utf8Size + size t := rfl

@[simp] theorem size_append (s t : Text) : size (s ++ t) = size s + size t := by
  induction s with
  | nil => simp
  | cons c s ih => simp [ih, Nat.add_assoc]

/-! ## Cutting -/

/-- The pieces between the characters that satisfy `p`; never an empty list. -/
def split (p : Char → Bool) : Text → List Text
  | [] => [[]]
  | c :: t =>
    if p c then [] :: split p t
    else
      match split p t with
      | [] => [[c]]
      | piece :: pieces => (c :: piece) :: pieces

theorem split_ne_nil (p : Char → Bool) (t : Text) : split p t ≠ [] := by
  induction t with
  | nil => simp [split]
  | cons c t ih =>
    rw [split]
    split
    · simp
    · split <;> simp

/-- The pieces with the separator between them are the text. -/
theorem intercalate_split (c : Char) (t : Text) :
    List.intercalate [c] (split (· = c) t) = t := by
  induction t with
  | nil => simp [split]
  | cons d t ih =>
    obtain ⟨piece, pieces, h⟩ := List.exists_cons_of_ne_nil (split_ne_nil (· = c) t)
    rw [split, h]
    rw [h] at ih
    by_cases hd : d = c
    · simp [hd, List.intercalate_cons_cons, ih]
    · cases pieces with
      | nil => simpa [hd] using ih
      | cons => simpa [hd, List.intercalate_cons_cons] using ih

theorem eq_false_of_mem_split {p : Char → Bool} {t piece : Text} (h : piece ∈ split p t) :
    ∀ c ∈ piece, p c = false := by
  induction t generalizing piece with
  | nil => simp_all [split]
  | cons d t ih =>
    obtain ⟨first, pieces, hs⟩ := List.exists_cons_of_ne_nil (split_ne_nil p t)
    rw [split, hs] at h
    rw [hs] at ih
    by_cases hd : p d = true
    · simp only [hd, if_true, List.mem_cons] at h
      rcases h with rfl | h
      · simp
      · exact ih (List.mem_cons.2 h)
    · simp only [hd] at h
      rcases List.mem_cons.1 h with rfl | h
      · intro c hc
        rcases List.mem_cons.1 hc with rfl | hc
        · simpa using hd
        · exact ih List.mem_cons_self c hc
      · exact ih (List.mem_cons_of_mem _ h)

/-- Drops one carriage return from the end. -/
def dropReturn (t : Text) : Text := if t.getLast? = some '\r' then t.dropLast else t

/-- Lines out of the pieces between line feeds: what a feed ended loses its carriage return, and
an empty rest is no line. -/
def linesOf : List Text → List Text
  | [] => []
  | [last] => if last = [] then [] else [last]
  | piece :: next :: pieces => dropReturn piece :: linesOf (next :: pieces)

/-- The lines of a text, without their ends (a line feed, or a carriage return and a line feed). -/
def lines (t : Text) : List Text := linesOf (split (· = '\n') t)

/-- What follows the last character that satisfies `p`: the whole text if none does. -/
def afterLast (p : Char → Bool) (t : Text) : Text := (t.reverse.takeWhile (!p ·)).reverse

/-- What precedes the last character that satisfies `p`: nothing if none does. -/
def beforeLast (p : Char → Bool) (t : Text) : Text := (t.reverse.dropWhile (!p ·)).tail.reverse

/-- Around the last character that satisfies `p` stand the two parts. -/
theorem eq_beforeLast_append {p : Char → Bool} {t : Text} (h : t.any p = true) :
    ∃ c, p c = true ∧ t = beforeLast p t ++ c :: afterLast p t := by
  have parts := List.takeWhile_append_dropWhile (p := (!p ·)) (l := t.reverse)
  cases hd : t.reverse.dropWhile (!p ·) with
  | nil =>
    obtain ⟨c, hc, hp⟩ := List.any_eq_true.1 h
    rw [hd, List.append_nil] at parts
    have kept := List.all_takeWhile (p := (!p ·)) (l := t.reverse)
    rw [parts] at kept
    have := List.all_eq_true.1 kept c (List.mem_reverse.2 hc)
    simp [hp] at this
  | cons c before =>
    have hp := List.head_dropWhile_not (p := (!p ·)) (l := t.reverse) (by simp [hd])
    refine ⟨c, by simpa [hd] using hp, ?_⟩
    rw [hd] at parts
    have back := congrArg List.reverse parts
    rw [List.reverse_reverse] at back
    simpa [beforeLast, afterLast, hd] using back.symm

/-- What follows `start` at the start of the text. -/
def after? : (start t : Text) → Option Text
  | [], t => some t
  | _ :: _, [] => none
  | a :: start, c :: t => if a = c then after? start t else none

theorem after?_eq_some_iff {start t rest : Text} : after? start t = some rest ↔ t = start ++ rest := by
  induction start generalizing t with
  | nil => simp [after?]
  | cons a start ih =>
    cases t with
    | nil => simp [after?]
    | cons c t =>
      by_cases h : a = c
      · simp [after?, h, ih]
      · simp [after?, h, Ne.symm h]

/-- What stands before and after the first occurrence of `part`. -/
def cut? (part : Text) : Text → Option (Text × Text)
  | [] => if part = [] then some ([], []) else none
  | c :: t =>
    match after? part (c :: t) with
    | some rest => some ([], rest)
    | none => (cut? part t).map fun (before, rest) => (c :: before, rest)

theorem eq_append_of_cut? {part t before rest : Text} (h : cut? part t = some (before, rest)) :
    t = before ++ part ++ rest := by
  induction t generalizing before with
  | nil =>
    simp only [cut?] at h
    split at h <;> simp_all
  | cons c t ih =>
    rw [cut?] at h
    split at h
    · next found => simp_all [after?_eq_some_iff]
    · cases hc : cut? part t with
      | none => simp [hc] at h
      | some found =>
        obtain ⟨b, r⟩ := found
        simp only [hc, Option.map_some, Option.some.injEq, Prod.mk.injEq] at h
        obtain ⟨rfl, rfl⟩ := h
        rw [ih hc]; simp

/-- Drops `n` bytes from the start, if a character ends there. -/
def dropBytes? : (n : Nat) → Text → Option Text
  | 0, t => some t
  | _ + 1, [] => none
  | n + 1, c :: t => if c.utf8Size ≤ n + 1 then dropBytes? (n + 1 - c.utf8Size) t else none

/-- The dropped part is the one of `n` bytes. -/
theorem dropBytes?_eq_some_iff {n : Nat} {t rest : Text} :
    dropBytes? n t = some rest ↔ ∃ before, t = before ++ rest ∧ size before = n := by
  constructor
  · intro h
    induction t generalizing n with
    | nil =>
      cases n with
      | zero => exact ⟨[], by simpa [dropBytes?] using h, rfl⟩
      | succ n => simp [dropBytes?] at h
    | cons c t ih =>
      cases n with
      | zero => exact ⟨[], by simpa [dropBytes?] using h, rfl⟩
      | succ n =>
        rw [dropBytes?] at h
        split at h
        · next fits =>
          obtain ⟨before, rfl, hs⟩ := ih h
          exact ⟨c :: before, rfl, by rw [size_cons, hs]; omega⟩
        · simp at h
  · rintro ⟨before, rfl, rfl⟩
    induction before with
    | nil => cases rest <;> rfl
    | cons c before ih =>
      have positive := Char.utf8Size_pos c
      obtain ⟨n, hn⟩ := Nat.exists_eq_succ_of_ne_zero (n := size (c :: before)) (by simp; omega)
      rw [List.cons_append, hn, dropBytes?, ← Nat.succ_eq_add_one, ← hn, size_cons]
      simp [ih]

/-- What stands from byte `start` to byte `stop`, if characters end there. -/
def slice? (start stop : Nat) (t : Text) : Option Text := do
  let rest ← dropBytes? start t
  let after ← dropBytes? (stop - start) rest
  return rest.take (rest.length - after.length)

/-- Does `t` hold `part` as a run of consecutive characters? -/
def contains (part : Text) : Text → Bool
  | [] => part.isEmpty
  | c :: t => part.isPrefixOf (c :: t) || contains part t

/-! ## Decimal numbers -/

/-- A natural number in decimal. -/
def ofNat (n : Nat) : Text := Nat.toDigits 10 n

/-- An integer in decimal, a minus sign before the negative ones. -/
def ofInt : Int → Text
  | .ofNat n => ofNat n
  | .negSucc n => '-' :: ofNat (n + 1)

/-- The number that decimal digits denote, read after `n`. -/
def toNatFrom (n : Nat) : Text → Option Nat
  | [] => some n
  | c :: t => if c.isDigit then toNatFrom (10 * n + (c.toNat - '0'.toNat)) t else none

/-- Reads one or more decimal digits. -/
def toNat? (t : Text) : Option Nat := if t = [] then none else toNatFrom 0 t

/-- Reads decimal digits after an optional sign. -/
def toInt? : Text → Option Int
  | '+' :: t => (toNat? t).map Int.ofNat
  | '-' :: t => (toNat? t).map fun n => -Int.ofNat n
  | t => (toNat? t).map Int.ofNat

end Text

end DeclGen
