import DeclGen.Docblock
import DeclGen.Proofs.Text

/-!
# Type expressions over several lines

Inside brackets a type expression of a documentation block may go on in the next line. The scan takes such a break for
one space, drops the blanks behind it, and goes on to the end of the expression.

* `nest`, `outside`, `opened?` : brackets of a text, the characters outside of them, and whether they match;
* `IsBreak`, `Broken` : a line break of a documentation block, and breaks put into a text beside punctuation;
* `Respaced` : blanks dropped, and spaces added beside punctuation;
* `Readable` : texts that the scan reads to their end;
* `scan_reading`, `scan_eq_reading`, `scan_folding_of_continues`, `scan_joining_of_isBlank` : the turns of the scan;
* `Passes`, `Reads`, `Folds` : the scan goes through a text, as it reads or behind a break; `scan_broken` : with breaks
  put into it, a readable text is read to its end and taken with other spaces.
-/

namespace DeclGen.Docblock
open Text (isSpacing isBlank)

/-! ## Brackets -/

/-- The brackets that the scan counts. -/
def opening : List Char := ['{', '<', '(']

def closing : List Char := ['}', '>', ')']

/-- The number of brackets that are open behind a character. -/
def nest (depth : Nat) (c : Char) : Nat :=
  if c ∈ opening then depth + 1 else if c ∈ closing then depth - 1 else depth

/-- The characters of a text that stand outside of all brackets, if it starts inside `depth` of them. -/
def outside (depth : Nat) : Text → Text
  | [] => []
  | c :: t => if depth = 0 then c :: outside (nest depth c) t else outside (nest depth c) t

/-- The number of brackets that are open behind a text; none if a bracket closes nothing, or a dollar sign stands
outside. -/
def opened? (depth : Nat) : Text → Option Nat
  | [] => some depth
  | c :: t => if depth = 0 ∧ (c ∈ closing ∨ c = '$') then none else opened? (nest depth c) t

theorem opened?_append (depth : Nat) (s t : Text) :
    opened? depth (s ++ t) = (opened? depth s).bind (opened? · t) := by
  induction s generalizing depth with
  | nil => rfl
  | cons c s ih =>
    rw [List.cons_append, opened?, opened?]
    split
    · rfl
    · exact ih _

theorem notMem_of_isBlank {c : Char} (h : isBlank c = true) : c ∉ opening ∧ c ∉ closing ∧ c ≠ '$' := by
  have other : ∀ c ∈ '$' :: (opening ++ closing), isBlank c = false := Text.forall_mem_of_all (by decide)
  have outer : c ∉ '$' :: (opening ++ closing) := fun hc => absurd h (by simp [other c hc])
  simpa only [List.mem_cons, List.mem_append, not_or, and_comm, and_assoc] using outer

/-- Blanks do not count. -/
theorem nest_of_isBlank {c : Char} (h : isBlank c = true) (depth : Nat) : nest depth c = depth := by
  obtain ⟨opens, closes, -⟩ := notMem_of_isBlank h
  rw [nest, if_neg opens, if_neg closes]

theorem opened?_of_isBlank {c : Char} (h : isBlank c = true) (depth : Nat) (t : Text) :
    opened? depth (c :: t) = opened? depth t := by
  obtain ⟨-, closes, dollar⟩ := notMem_of_isBlank h
  rw [opened?, if_neg (by simp [closes, dollar]), nest_of_isBlank h]

theorem opened?_filter (depth : Nat) (t : Text) :
    opened? depth (t.filter fun c => !isSpacing c) = opened? depth t := by
  induction t generalizing depth with
  | nil => rfl
  | cons c t ih =>
    by_cases hc : isSpacing c = true
    · rw [List.filter_cons_of_neg (by simp [hc]), opened?_of_isBlank (Text.isBlank_of_isSpacing hc), ih]
    · rw [List.filter_cons_of_pos (by simp [hc]), opened?, opened?, ih]

/-- If all brackets close, a blank at the end stands outside of them. -/
theorem mem_outside_of_getLast? {c : Char} {depth : Nat} {t : Text} (h : opened? depth t = some 0)
    (hc : t.getLast? = some c) (blank : isBlank c = true) : c ∈ outside depth t := by
  induction t generalizing depth with
  | nil => exact absurd hc (by simp)
  | cons d t ih =>
    cases t with
    | nil =>
      obtain rfl : d = c := Option.some.inj hc
      rw [opened?_of_isBlank blank] at h
      obtain rfl : depth = 0 := Option.some.inj h
      exact List.mem_cons_self
    | cons e t =>
      rw [opened?] at h
      split at h
      · exact absurd h (by simp)
      · have inner := ih h (by rwa [List.getLast?_cons_cons] at hc)
        rw [outside]
        split
        · exact List.mem_cons_of_mem d inner
        · exact inner

/-! ## Breaks and spaces -/

/-- The marks of type expressions. -/
def punctuation : List Char := ['{', '}', '<', '>', '(', ')', '[', ']', ',', ':', '|', '?']

/-- The end of a line and the start of the next one in a documentation block. -/
def IsBreak (b : Text) : Prop :=
  ∃ ending spaces, (ending = ['\n'] ∨ ending = ['\r', '\n']) ∧ (∀ c ∈ spaces, c = ' ') ∧
    b = ending ++ (spaces ++ ['*', ' '])

/-- Does punctuation stand before or behind the place between the character `before` and the text? -/
def Beside (before : Option Char) (t : Text) : Prop :=
  (∃ c ∈ before, c ∈ punctuation) ∨ ∃ c ∈ t.head?, c ∈ punctuation

/-- The second text is the first one with breaks put beside punctuation inside of brackets; `depth` are open at the
start, and `before` is the character that stands before it. -/
inductive Broken : (depth : Nat) → (before : Option Char) → Text → Text → Prop
  | nil {depth before} : Broken depth before [] []
  | keep {depth before c t t'} : Broken (nest depth c) (some c) t t' → Broken depth before (c :: t) (c :: t')
  | insert {depth before b t t'} : 0 < depth → Beside before t → IsBreak b → Broken depth before t t' →
    Broken depth before t (b ++ t')

/-- The second text is the first one without some of its blanks, and with spaces added beside punctuation. -/
inductive Respaced : (before : Option Char) → Text → Text → Prop
  | nil {before} : Respaced before [] []
  | keep {before c t u} : Respaced (some c) t u → Respaced before (c :: t) (c :: u)
  | drop {before c t u} : isSpacing c = true → Respaced (some c) t u → Respaced before (c :: t) u
  | add {before t u} : Beside before t → Respaced before t u → Respaced before t (' ' :: u)

variable {depth : Nat} {before : Option Char} {c : Char} {b t t' : Text}

theorem IsBreak.ne_nil (h : IsBreak b) : b ≠ [] := by
  obtain ⟨ending, spaces, -, -, rfl⟩ := h
  simp

theorem Broken.length_le (h : Broken depth before t t') : t.length ≤ t'.length := by
  induction h with
  | nil => exact Nat.le_refl _
  | keep _ ih => exact Nat.succ_le_succ ih
  | insert _ _ _ _ ih =>
    rw [List.length_append]
    omega

/-- Outside of brackets, a text starts as it did. -/
theorem Broken.head?_eq (h : Broken 0 before t t') : t'.head? = t.head? := by
  cases h with
  | nil => rfl
  | keep _ => rfl
  | insert inside _ _ _ => exact absurd inside (by decide)

/-- Nothing put into a text leaves it as it was. -/
theorem Broken.refl (depth : Nat) (before : Option Char) (t : Text) : Broken depth before t t := by
  induction t generalizing depth before with
  | nil => exact .nil
  | cons c t ih => exact .keep (ih _ _)

/-! ## Reading to the end -/

/-- Puts a text before what was read. -/
def Scan.prepend (u : Text) (s : Scan) : Scan := { s with taken := u ++ s.taken }

/-- From inside `depth` brackets, all of them close, and nothing ends the scan before or is taken for another line. -/
structure Readable (depth : Nat) (t : Text) : Prop where
  closed : opened? depth t = some 0
  unblank : ∀ c ∈ outside depth t, isSpacing c = false
  plain : ∀ c ∈ t, c ≠ '*' ∧ c ≠ '\n' ∧ c ≠ '\r'

theorem Readable.passes (h : Readable depth (c :: t)) : ¬ (depth = 0 ∧ (c ∈ closing ∨ c = '$')) := by
  intro stops
  have closed := h.closed
  rw [opened?, if_pos stops] at closed
  exact absurd closed (by simp)

theorem Readable.tail (h : Readable depth (c :: t)) : Readable (nest depth c) t := by
  refine ⟨?_, fun d hd => h.unblank d ?_, fun d hd => h.plain d (List.mem_cons_of_mem _ hd)⟩
  · have closed := h.closed
    rwa [opened?, if_neg h.passes] at closed
  · rw [outside]
    split
    · exact List.mem_cons_of_mem _ hd
    · exact hd

/-- Inside of brackets something is left to close them. -/
theorem Readable.ne_nil (h : Readable depth t) (inside : 0 < depth) : t ≠ [] := by
  rintro rfl
  have closed := Option.some.inj h.closed
  omega

/-- Is the last character a bar, or `bar` if there is none? -/
def endsBar (bar : Bool) (t : Text) : Bool := (t.getLast?.map fun c => decide (c = '|')).getD bar

theorem endsBar_cons (bar : Bool) (c : Char) (t : Text) : endsBar bar (c :: t) = endsBar (c = '|') t := by
  cases t with
  | nil => rfl
  | cons d t => rw [endsBar, List.getLast?_cons_cons]; rfl

theorem endsBar_eq (hne : t ≠ []) (bar bar' : Bool) : endsBar bar t = endsBar bar' t := by
  obtain ⟨c, t, rfl⟩ := List.exists_cons_of_ne_nil hne
  rw [endsBar_cons, endsBar_cons]

theorem scan_reading (depth : Nat) (bar : Bool) (c : Char) (rest : Text) : scan .reading depth bar (c :: rest) =
    if c ∈ opening then (scan .reading (depth + 1) false rest).push c
    else if c ∈ closing then
      if depth = 0 then ⟨[], depth, c :: rest⟩ else (scan .reading (depth - 1) false rest).push c
    else if depth = 0 then
      if c = '$' || (c = '*' && rest.head? = some '/') then ⟨[], depth, c :: rest⟩
      else if isSpacing c then
        if joinsBar bar (c :: rest) then scan .joining depth bar rest else ⟨[], depth, c :: rest⟩
      else (scan .reading depth (c = '|') rest).push c
    else if c = '\n' || c = '\r' then (scan .folding depth false rest).push ' '
    else (scan .reading depth (c = '|') rest).push c := by
  have folds : ¬ ((Mode.reading = .folding && continuesBreak c rest) = true) := by simp
  have joins : ¬ ((Mode.reading = .joining && isBlank c) = true) := by simp
  exact (if_neg folds).trans (if_neg joins)

/-- In any mode, what neither continues a break nor is a blank beside a bar is read as elsewhere. -/
theorem scan_eq_reading {mode : Mode} (folds : ¬ (mode = .folding && continuesBreak c t) = true)
    (joins : ¬ (mode = .joining && isBlank c) = true) (bar : Bool) :
    scan mode depth bar (c :: t) = scan .reading depth bar (c :: t) := by
  rw [scan_reading]
  exact (if_neg folds).trans (if_neg joins)

/-- What continues a break is dropped. -/
theorem scan_folding_of_continues (h : continuesBreak c t = true) (bar : Bool) :
    scan .folding depth bar (c :: t) = scan .folding depth bar t := if_pos (by simp [h])

theorem scan_folding_of_ends (h : continuesBreak c t = false) (bar : Bool) :
    scan .folding depth bar (c :: t) = scan .reading depth bar (c :: t) :=
  scan_eq_reading (by simp [h]) (by simp) bar

/-- A blank beside a bar is dropped. -/
theorem scan_joining_of_isBlank (h : isBlank c = true) (bar : Bool) :
    scan .joining depth bar (c :: t) = scan .joining depth bar t := by
  have folds : ¬ (Mode.joining = .folding && continuesBreak c t) = true := by simp
  exact (if_neg folds).trans (if_pos (by simp [h]))

/-- A character of a readable text is taken. -/
theorem scan_cons (h : Readable depth (c :: t)) (bar : Bool) (rest : Text) :
    scan .reading depth bar (c :: rest) = (scan .reading (nest depth c) (c = '|') rest).prepend [c] := by
  obtain ⟨star, feed, carriage⟩ := h.plain c List.mem_cons_self
  have marks : ∀ c ∈ opening ++ closing, c ≠ '|' := Text.forall_mem_of_all (by decide)
  rw [scan_reading, nest]
  by_cases opens : c ∈ opening
  · rw [if_pos opens, if_pos opens, decide_eq_false (marks c (List.mem_append_left _ opens))]
    rfl
  rw [if_neg opens, if_neg opens]
  by_cases closes : c ∈ closing
  · have inside : depth ≠ 0 := fun none => h.passes ⟨none, Or.inl closes⟩
    rw [if_pos closes, if_pos closes, if_neg inside, decide_eq_false (marks c (List.mem_append_right _ closes))]
    rfl
  rw [if_neg closes, if_neg closes]
  by_cases none : depth = 0
  · have dollar : c ≠ '$' := fun hd => h.passes ⟨none, Or.inr hd⟩
    have solid : isSpacing c = false := h.unblank c (by rw [outside, if_pos none]; exact List.mem_cons_self)
    rw [if_pos none, if_neg (by simp [dollar, star]), if_neg (by simp [solid])]
    rfl
  · rw [if_neg none, if_neg (by simp [feed, carriage])]
    rfl

theorem scan_folding_cons (star : c ≠ '*') (solid : isSpacing c = false) (bar : Bool) (rest : Text) :
    scan .folding depth bar (c :: rest) = scan .reading depth bar (c :: rest) :=
  scan_folding_of_ends (by simp [continuesBreak, star, solid]) bar

theorem scan_folding_blank (hc : isSpacing c = true) (bar : Bool) (rest : Text) :
    scan .folding depth bar (c :: rest) = scan .folding depth bar rest :=
  scan_folding_of_continues (by simp [continuesBreak, hc]) bar

theorem scan_folding_blanks {blanks : Text} (h : ∀ c ∈ blanks, isSpacing c = true) (bar : Bool) (rest : Text) :
    scan .folding depth bar (blanks ++ rest) = scan .folding depth bar rest := by
  induction blanks with
  | nil => rfl
  | cons c blanks ih =>
    rw [List.forall_mem_cons] at h
    rw [List.cons_append, scan_folding_blank h.1, ih h.2]

/-- The start of a line continues the break. -/
theorem scan_folding_start {spaces : Text} (h : ∀ c ∈ spaces, c = ' ') (bar : Bool) (rest : Text) :
    scan .folding depth bar (spaces ++ ['*', ' '] ++ rest) = scan .folding depth bar rest := by
  have blank : ∀ c ∈ spaces, isSpacing c = true := fun c hc => by rw [h c hc]; rfl
  have star : scan .folding depth bar ('*' :: ' ' :: rest) = scan .folding depth bar (' ' :: rest) :=
    scan_folding_of_continues (by simp [continuesBreak]) bar
  rw [List.append_assoc, scan_folding_blanks blank]
  exact star.trans (scan_folding_blank rfl bar rest)

theorem scan_folding_break (hb : IsBreak b) (bar : Bool) (rest : Text) :
    scan .folding depth bar (b ++ rest) = scan .folding depth bar rest := by
  obtain ⟨ending, spaces, he, hs, rfl⟩ := hb
  have blank : ∀ c ∈ ending, isSpacing c = true := by
    rcases he with rfl | rfl <;> exact Text.forall_mem_of_all (by decide)
  rw [List.append_assoc, scan_folding_blanks blank, scan_folding_start hs]

/-- Inside of brackets, a break is taken for a space. -/
theorem scan_break (hb : IsBreak b) (inside : 0 < depth) (bar : Bool) (rest : Text) :
    scan .reading depth bar (b ++ rest) = (scan .folding depth false rest).prepend [' '] := by
  obtain ⟨ending, spaces, he, hs, rfl⟩ := hb
  have first {c : Char} (hc : c = '\n' ∨ c = '\r') (t : Text) :
      scan .reading depth bar (c :: t) = (scan .folding depth false t).prepend [' '] := by
    have none : depth ≠ 0 := Nat.ne_of_gt inside
    have other : ∀ d ∈ opening ++ closing, ¬ (d = '\n' ∨ d = '\r') := Text.forall_mem_of_all (by decide)
    rw [scan_reading, if_neg fun opens => other c (List.mem_append_left _ opens) hc,
      if_neg fun closes => other c (List.mem_append_right _ closes) hc, if_neg none, if_pos (by simpa using hc)]
    rfl
  rw [List.append_assoc]
  rcases he with rfl | rfl
  · rw [List.singleton_append, first (Or.inl rfl), scan_folding_start hs]
  · rw [List.cons_append, first (Or.inr rfl), List.singleton_append, scan_folding_blank rfl, scan_folding_start hs]

/-! ## Texts with breaks -/

/-- What the scan takes for a text with breaks in it: the text with other spaces, and itself if there are none. -/
structure Taken (before : Option Char) (t t' u : Text) : Prop where
  respaced : Respaced before t u
  same : t' = t → u = t
  last : u.getLast? = t.getLast?

/-- In the given mode, the second text is read to its end, and the first one is taken with other spaces. -/
def Passes (mode : Mode) (depth : Nat) (t t' u : Text) : Prop :=
  ∀ bar rest, scan mode depth bar (t' ++ rest) = (scan .reading 0 (endsBar bar t) rest).prepend u

/-- The text with breaks is read to its end. -/
def Reads (depth : Nat) (before : Option Char) (t t' : Text) : Prop :=
  ∃ u, Taken before t t' u ∧ Passes .reading depth t t' u

/-- Behind a break, the text with breaks is read to its end. -/
def Folds (depth : Nat) (before : Option Char) (t t' : Text) : Prop :=
  ∃ u, Respaced before t u ∧ u.getLast? = t.getLast? ∧ Passes .folding depth t t' u

theorem Taken.keep {u : Text} (h : Taken (some c) t t' u) : Taken before (c :: t) (c :: t') (c :: u) := by
  refine ⟨.keep h.respaced, fun same => ?_, ?_⟩
  · rw [h.same (List.cons.inj same).2]
  · rw [List.getLast?_cons, List.getLast?_cons, h.last]

theorem Passes.keep {u : Text} (r : Readable depth (c :: t)) (h : Passes .reading (nest depth c) t t' u) :
    Passes .reading depth (c :: t) (c :: t') (c :: u) := by
  intro bar rest
  rw [List.cons_append, scan_cons r, h, endsBar_cons]
  rfl

theorem Reads.keep (r : Readable depth (c :: t)) (h : Reads (nest depth c) (some c) t t') :
    Reads depth before (c :: t) (c :: t') := by
  obtain ⟨u, taken, passes⟩ := h
  exact ⟨c :: u, taken.keep, passes.keep r⟩

/-- A blank behind the break is dropped; something is left behind it. -/
theorem Folds.drop (blank : isSpacing c = true) (hne : t ≠ []) (h : Folds depth (some c) t t') :
    Folds depth before (c :: t) (c :: t') := by
  obtain ⟨u, respaced, last, passes⟩ := h
  refine ⟨u, .drop blank respaced, by rw [last, List.getLast?_cons_of_ne_nil hne], fun bar rest => ?_⟩
  rw [List.cons_append, scan_folding_blank blank, passes, endsBar_cons, endsBar_eq hne]

/-- What is no blank ends the break. -/
theorem Reads.folds (star : c ≠ '*') (solid : isSpacing c = false) (h : Reads depth before (c :: t) (c :: t')) :
    Folds depth before (c :: t) (c :: t') := by
  obtain ⟨u, taken, passes⟩ := h
  refine ⟨u, taken.respaced, taken.last, fun bar rest => ?_⟩
  rw [List.cons_append, scan_folding_cons star solid]
  exact passes bar rest

/-- A break right behind another one belongs to it. -/
theorem Folds.insert (hb : IsBreak b) (h : Folds depth before t t') : Folds depth before t (b ++ t') := by
  obtain ⟨u, respaced, last, passes⟩ := h
  refine ⟨u, respaced, last, fun bar rest => ?_⟩
  rw [List.append_assoc, scan_folding_break hb, passes]

/-- A break is taken for a space; the text has become longer. -/
theorem Folds.reads (inside : 0 < depth) (beside : Beside before t) (hb : IsBreak b) (hne : t ≠ [])
    (longer : t.length ≤ t'.length) (h : Folds depth before t t') : Reads depth before t (b ++ t') := by
  obtain ⟨u, respaced, last, passes⟩ := h
  have some : u ≠ [] := by
    rintro rfl
    exact hne (List.getLast?_eq_none_iff.1 last.symm)
  refine ⟨' ' :: u, ⟨.add beside respaced, fun same => ?_, ?_⟩, fun bar rest => ?_⟩
  · have size := congrArg List.length same
    have positive := List.length_pos_iff.2 hb.ne_nil
    rw [List.length_append] at size
    omega
  · rw [List.getLast?_cons_of_ne_nil some, last]
  · rw [List.append_assoc, scan_break hb inside, passes, endsBar_eq hne false bar]
    rfl

/-- **Breaks.** A readable text with breaks put into it is read to its end, and taken with other spaces; so it is if
a break goes before. -/
theorem scan_broken (h : Broken depth before t t') :
    Readable depth t → Reads depth before t t' ∧ (0 < depth → Folds depth before t t') := by
  -- Both at once: a break leads from reading to folding, and the first character that is no blank leads back.
  induction h with
  | nil =>
    intro r
    obtain rfl := Option.some.inj r.closed
    exact ⟨⟨[], ⟨.nil, fun _ => rfl, rfl⟩, fun bar rest => rfl⟩, fun inside => absurd inside (by decide)⟩
  | @keep depth before c t t' hb ih =>
    intro r
    obtain ⟨reads, folds⟩ := ih r.tail
    refine ⟨reads.keep r, fun inside => ?_⟩
    by_cases blank : isSpacing c = true
    · have same := nest_of_isBlank (Text.isBlank_of_isSpacing blank) depth
      rw [same] at folds
      exact (folds inside).drop blank (r.tail.ne_nil (by rwa [same]))
    · exact (reads.keep r).folds (r.plain c List.mem_cons_self).1 (Bool.eq_false_iff.2 blank)
  | insert inside beside hb broken ih =>
    intro r
    have folds := (ih r).2 inside
    exact ⟨folds.reads inside beside hb (r.ne_nil inside) broken.length_le, fun _ => folds.insert hb⟩

/-- Outside of brackets, the text that is taken starts as the one that was read. -/
theorem scan_outer (h : Broken 0 before t t') (r : Readable 0 t) :
    ∃ u, Taken before t t' u ∧ u.head? = t.head? ∧ Passes .reading 0 t t' u := by
  cases h with
  | nil => exact ⟨[], ⟨.nil, fun _ => rfl, rfl⟩, rfl, fun bar rest => rfl⟩
  | insert inside _ _ _ => exact absurd inside (by decide)
  | keep broken =>
    obtain ⟨⟨u, taken, passes⟩, -⟩ := scan_broken broken r.tail
    exact ⟨_, taken.keep, rfl, passes.keep r⟩

end DeclGen.Docblock
