import DeclGen.Proofs.Docblock.Offsets
import DeclGen.Proofs.TypeExpr.Agreement
import DeclGen.Proofs.TypeScript.Alternatives
import DeclGen.Proofs.Xml.Content

/-!
# Texts cut at offsets

All scanners cut texts at offsets that count bytes. Each of them is here in terms of such cuts, which fail at an offset
inside of a character or beyond the end, and comes to what it comes to in terms of characters: no cut fails.

* `Text.find?`, `Text.rfind?` : where a part, or the last character of a class, starts;
* `TypeScript.hasNullAt` : the alternatives of a type text;
* `Name.shortAt`, `Name.scopeAt` : the parts of a name;
* `Xml.decodeTextAt` : the content of an element;
* `cuts_at_boundaries` : these, documentation blocks and type expressions.
-/

namespace DeclGen

/-! ## Searches -/

namespace Text

/-- The offset of the first occurrence of a part. -/
def find? (part : Text) : Text → Option Nat
  | [] => if part = [] then some 0 else none
  | c :: t => if part.isPrefixOf (c :: t) then some 0 else (find? part t).map (c.utf8Size + ·)

/-- The offset of the last character of a class. -/
def rfind? (p : Char → Bool) : Text → Option Nat
  | [] => none
  | c :: t =>
    match rfind? p t with
    | some n => some (c.utf8Size + n)
    | none => if p c then some 0 else none

theorem find?_eq (part t : Text) : find? part t = (cut? part t).map fun found => size found.1 := by
  induction t with
  | nil =>
    rw [find?, cut?]
    split <;> rfl
  | cons c t ih =>
    rw [find?, cut?]
    cases found : after? part (c :: t) with
    | some rest =>
      have start : part.isPrefixOf (c :: t) = true := by
        rw [List.isPrefixOf_iff_prefix, after?_eq_some_iff.1 found]
        exact List.prefix_append part rest
      rw [if_pos start]
      rfl
    | none =>
      have start : ¬ part.isPrefixOf (c :: t) = true := fun start => by
        obtain ⟨rest, hrest⟩ := List.isPrefixOf_iff_prefix.1 start
        rw [after?_eq_some_iff.2 hrest.symm] at found
        cases found
      rw [if_neg start, ih, Option.map_map, Option.map_map]
      rfl

theorem eq_false_of_rfind? {p : Char → Bool} {t : Text} (h : rfind? p t = none) : ∀ c ∈ t, p c = false := by
  induction t with
  | nil => simp
  | cons c t ih =>
    rw [rfind?] at h
    split at h
    · cases h
    · next absent =>
      split at h
      · cases h
      · next hc => exact List.forall_mem_cons.2 ⟨by simpa using hc, ih absent⟩

theorem exists_of_rfind? {p : Char → Bool} {t : Text} {n : Nat} (h : rfind? p t = some n) :
    ∃ before c rest, t = before ++ c :: rest ∧ size before = n ∧ p c = true ∧ ∀ d ∈ rest, p d = false := by
  induction t generalizing n with
  | nil => cases h
  | cons c t ih =>
    rw [rfind?] at h
    split at h
    · next m found =>
      obtain ⟨before, d, rest, rfl, rfl, hd, bare⟩ := ih found
      exact ⟨c :: before, d, rest, rfl, Option.some.inj h, hd, bare⟩
    · next absent =>
      split at h
      · next hc => exact ⟨[], c, t, rfl, Option.some.inj h, hc, eq_false_of_rfind? absent⟩
      · cases h

end Text

open Text (size offset dropBytes? between? IsBoundary)

/-! ## Alternatives of a type text -/

namespace TypeScript

/-- Goes over the characters of a type text, with the offset of the next one and that of the alternative. -/
def hasNullFrom (token : Text) : Text → (pos start depth : Nat) → Option Bool
  | [], _, start, _ => do
    let part ← dropBytes? start token
    return Text.trim part = "null".toList
  | c :: t, pos, start, depth =>
    if c = '|' && depth = 0 then do
      let part ← between? start pos token
      if Text.trim part = "null".toList then return true
      else hasNullFrom token t (pos + c.utf8Size) (pos + 1) 0
    else hasNullFrom token t (pos + c.utf8Size) start (depthAfter depth c)

/-- Is one of the outer alternatives `null`? -/
def hasNullAt (token : Text) : Option Bool := hasNullFrom token token 0 0 0

theorem prepend_nil {parts : List Text} (h : parts ≠ []) : prepend [] parts = parts := by
  obtain ⟨part, parts, rfl⟩ := List.exists_cons_of_ne_nil h
  rfl

theorem hasNullFrom_eq {token : Text} (t : Text) : ∀ (part : Text) (depth : Nat), part ++ t <:+ token →
    hasNullFrom token t (offset token t) (offset token (part ++ t)) depth =
      some ((prepend part (alternatives depth t)).any fun part => Text.trim part = "null".toList) := by
  induction t with
  | nil =>
    intro part depth h
    rw [hasNullFrom, Text.dropBytes?_offset h]
    simp [prepend, alternatives]
  | cons c t ih =>
    intro part depth h
    have rest : c :: t <:+ token := (List.suffix_append part _).trans h
    rw [hasNullFrom, alternatives_cons, ← Text.offset_tail rest]
    split
    · next bar =>
      obtain rfl : c = '|' := of_decide_eq_true (Bool.and_eq_true_iff.1 bar).1
      have behind : offset token ('|' :: t) + 1 = offset token t := (Text.offset_tail rest).symm
      have more := ih [] 0 (Text.suffix_of_cons rest)
      rw [prepend_nil (alternatives_ne_nil 0 t), List.nil_append] at more
      rw [Text.between?_offset h, behind, Option.bind_eq_bind, Option.bind_some, more, prepend, List.append_nil,
        List.any_cons]
      by_cases null : Text.trim part = "null".toList
      · rw [if_pos null, decide_eq_true null, Bool.true_or]
        rfl
      · rw [if_neg null, decide_eq_false null, Bool.false_or]
    · have more := ih (part ++ [c]) (depthAfter depth c) (by simpa using h)
      rw [List.append_assoc, List.singleton_append] at more
      rw [more, prepend_prepend]

theorem hasNullAt_eq (token : Text) : hasNullAt token = some (hasNull token) := by
  have found := hasNullFrom_eq token [] 0 (List.suffix_refl token)
  rw [List.nil_append, offset, Nat.sub_self, prepend_nil (alternatives_ne_nil 0 token)] at found
  exact found

end TypeScript

/-! ## Names -/

namespace Name

/-- What follows the last separator of a name. -/
def shortAt (name : Text) : Option Text :=
  let name := Text.trim name
  match Text.rfind? isSeparator name with
  | some n => dropBytes? (n + 1) name
  | none => some name

/-- What precedes the last separator of a name. -/
def scopeAt (name : Text) : Option Text :=
  let name := dropLeading (Text.trim name)
  match Text.rfind? isSeparator name with
  | some n => between? 0 n name
  | none => some []

theorem utf8Size_of_isSeparator {c : Char} (h : isSeparator c = true) : c.utf8Size = 1 := by
  simp only [isSeparator, Bool.or_eq_true, decide_eq_true_eq] at h
  rcases h with rfl | rfl <;> rfl

theorem shortAt_eq (name : Text) : shortAt name = some (short name) := by
  rw [shortAt, short]
  generalize Text.trim name = name
  cases found : Text.rfind? isSeparator name with
  | none => rw [Text.afterLast_eq_self (Text.eq_false_of_rfind? found)]
  | some n =>
    obtain ⟨before, c, rest, rfl, rfl, hc, bare⟩ := Text.exists_of_rfind? found
    rw [Text.afterLast_append_cons hc, Text.afterLast_eq_self bare]
    refine Text.dropBytes?_eq_some_iff.2 ⟨before ++ [c], by simp, ?_⟩
    rw [Text.size_append, Text.size_cons, Text.size_nil, utf8Size_of_isSeparator hc]

theorem scopeAt_eq (name : Text) : scopeAt name = some (scope name) := by
  rw [scopeAt, scope]
  generalize dropLeading (Text.trim name) = name
  cases found : Text.rfind? isSeparator name with
  | none => rw [Text.beforeLast_eq_nil (Text.eq_false_of_rfind? found)]
  | some n =>
    obtain ⟨before, c, rest, rfl, rfl, hc, bare⟩ := Text.exists_of_rfind? found
    rw [Text.beforeLast_append_cons hc bare]
    simpa using Text.between?_append [] before (c :: rest)

end Name

/-! ## Content of an element -/

namespace Xml

/-- Decodes content with at most `fuel` CDATA sections. -/
def decodeFromAt : (fuel : Nat) → Text → Option (Except ContentFault Text)
  | 0, t => some (unescapePiece t)
  | fuel + 1, t =>
    match Text.find? cdataStart t with
    | none => some (unescapePiece t)
    | some start => do
      match unescapePiece (← between? 0 start t) with
      | .error fault => return .error fault
      | .ok before =>
        let body ← dropBytes? (start + size cdataStart) t
        match Text.find? cdataEnd body with
        | none => return .error .unterminatedCData
        | some stop =>
          let verbatim ← between? 0 stop body
          let rest ← decodeFromAt fuel (← dropBytes? (stop + size cdataEnd) body)
          return rest.map (before ++ verbatim ++ ·)

/-- The text of an element's content. -/
def decodeTextAt (t : Text) : Option (Except ContentFault Text) := decodeFromAt t.length t

/-- Around an occurrence, both cuts succeed. -/
theorem cuts_of_cut? {part t before rest : Text} (h : Text.cut? part t = some (before, rest)) :
    between? 0 (size before) t = some before ∧ dropBytes? (size before + size part) t = some rest := by
  obtain rfl := Text.eq_append_of_cut? h
  refine ⟨?_, Text.dropBytes?_eq_some_iff.2 ⟨before ++ part, rfl, Text.size_append _ _⟩⟩
  simpa using Text.between?_append [] before (part ++ rest)

theorem decodeFromAt_eq (fuel : Nat) (t : Text) : decodeFromAt fuel t = some (decodeFrom fuel t) := by
  induction fuel generalizing t with
  | zero => rfl
  | succ fuel ih =>
    rw [decodeFromAt, decodeFrom, Text.find?_eq]
    cases start : Text.cut? cdataStart t with
    | none => rfl
    | some found =>
      obtain ⟨before, body⟩ := found
      obtain ⟨front, back⟩ := cuts_of_cut? start
      simp only [Option.map_some, front, back, Option.bind_eq_bind, Option.bind_some]
      cases unescapePiece before with
      | error fault => rfl
      | ok text =>
        simp only [Text.find?_eq]
        cases stop : Text.cut? cdataEnd body with
        | none => rfl
        | some found =>
          obtain ⟨inside, rest⟩ := found
          obtain ⟨front, back⟩ := cuts_of_cut? stop
          simp only [Option.map_some, front, back, Option.bind_some, ih]
          cases decodeFrom fuel rest <;> rfl

theorem decodeTextAt_eq (t : Text) : decodeTextAt t = some (decodeText t) := decodeFromAt_eq t.length t

end Xml

/-! ## All scanners -/

/-- Where reading a type expression gives up is a boundary. -/
theorem TypeExpr.isBoundary_of_malformed {t input : Text} {position : Nat} {reason : Reason}
    (h : .malformed input position reason ∈ (diagnose t).warnings) : IsBoundary position t := by
  have run := Bytewise.root_mirrors (Nat.le_refl (6 * t.length + 6))
  rw [diagnose] at h
  generalize parseRoot t = m at run h
  generalize (Bytewise.root t _).run _ = out at run
  cases run with
  | ok p _ => simp at h
  | error m _ rest =>
    obtain ⟨-, rfl, -⟩ := Warning.malformed.inj (List.mem_singleton.1 h)
    exact Text.isBoundary_offset rest

/-- **No scanner cuts a text inside of a character.** A cut succeeds at boundaries only, and these are no offsets beyond
the end; each scanner, in terms of cuts at offsets, comes to what it comes to in terms of characters; and the offsets
that are reported are boundaries. -/
theorem cuts_at_boundaries (t param : Text) (fuel : Nat) :
    (∀ n, (dropBytes? n t).isSome = true ↔ IsBoundary n t) ∧
    (∀ start stop, (between? start stop t).isSome = true ↔ start ≤ stop ∧ IsBoundary start t ∧ IsBoundary stop t) ∧
    (∀ n, IsBoundary n t ↔ n = size t ∨ ∃ b ∈ (Text.bytes t)[n]?, b.IsUTF8FirstByte) ∧
    (∀ n, IsBoundary n t → n ≤ size t) ∧
    TypeExpr.Bytewise.diagnose t (6 * size t + 6 + fuel) = some (TypeExpr.diagnose t) ∧
    (∀ w ∈ (TypeExpr.diagnose t).warnings, match w with
      | .malformed _ position _ => IsBoundary position t
      | .duplicateKey _ => True) ∧
    Docblock.scanTypeAt t = some ((Docblock.scanType t).map fun found => (found.1, offset t found.2)) ∧
    (∀ found ∈ Docblock.scanType t, IsBoundary (offset t found.2) t) ∧
    Docblock.varTypeAt t = some (Docblock.varType t) ∧
    Docblock.paramTypeAt t param = some (Docblock.paramType t param) ∧
    TypeScript.hasNullAt t = some (TypeScript.hasNull t) ∧
    Name.shortAt t = some (Name.short t) ∧ Name.scopeAt t = some (Name.scope t) ∧
    Xml.decodeTextAt t = some (Xml.decodeText t) := by
  refine ⟨fun n => Text.isSome_dropBytes?_iff, fun start stop => Text.isSome_between?_iff,
    fun n => Text.isBoundary_iff, fun n => Text.IsBoundary.le_size, ?_, fun w hw => ?_, Docblock.scanTypeAt_eq t,
    fun found hfound => ?_, Docblock.varTypeAt_eq t, Docblock.paramTypeAt_eq t param, TypeScript.hasNullAt_eq t,
    Name.shortAt_eq t, Name.scopeAt_eq t, Xml.decodeTextAt_eq t⟩
  · have := Text.length_le_size t
    exact TypeExpr.Bytewise.diagnose_eq (by omega)
  · cases w with
    | malformed => exact TypeExpr.isBoundary_of_malformed hw
    | duplicateKey => trivial
  · exact Text.isBoundary_offset (Docblock.suffix_of_scanType hfound)

end DeclGen
