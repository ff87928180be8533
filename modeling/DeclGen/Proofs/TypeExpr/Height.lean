import DeclGen.Proofs.TypeExpr.Acceptance
import DeclGen.Proofs.TypeNode.Height

/-!
# How high the types of texts are

Prefixes, records, type arguments and parentheses are nested at most `maxNesting` deep, and each nesting adds a few
levels to a type. Suffixes are read by a loop and are not nested, so they are bounded by the text alone: they make
arrays of arrays.

* `Charges` : what suffixes add to a depth, a fixed amount and a cost of their brackets;
* `room` : the levels that nestings leave for a type; `Tree.depth_le` : a derivation keeps to it;
* `Spells.count_le` : brackets stand in the text;
* `height_bounded` : the levels of the type of a text are bounded, its height by the suffixes alone;
* `height_unbounded` : the height is not.
-/

namespace DeclGen.TypeExpr
open TypeNode (depth)

variable {counts : TypeNode → Bool} {spare : Nat} {cost : List Text → Nat}

/-! ## Suffixes -/

/-- Suffixes add a fixed number to the depth of a type and the cost of their brackets. The costs of tokens in
different places are added up. -/
structure Charges (counts : TypeNode → Bool) (spare : Nat) (cost : List Text → Nat) : Prop where
  append (front back : List Text) : cost front + cost back ≤ cost (front ++ back)
  suffixes (item : TypeNode) (n : Nat) :
    depth counts (arrayOf item n) ≤ depth counts item + spare + cost (bracketTokens n)

theorem Charges.before (charges : Charges counts spare cost) (front back : List Text) :
    cost front ≤ cost (front ++ back) :=
  Nat.le_trans (Nat.le_add_right _ _) (charges.append front back)

theorem Charges.behind (charges : Charges counts spare cost) (front back : List Text) :
    cost back ≤ cost (front ++ back) :=
  Nat.le_trans (Nat.le_add_left _ _) (charges.append front back)

theorem Charges.tail (charges : Charges counts spare cost) (token : Text) (tokens : List Text) :
    cost tokens ≤ cost (token :: tokens) :=
  charges.behind [token] tokens

/-- The opening brackets of suffixes. -/
def openBrackets (tokens : List Text) : Nat := tokens.count ['[']

theorem height_arrayOf (n : Nat) : ∀ item : TypeNode, (arrayOf item n).height = item.height + n := by
  induction n with
  | zero => exact fun _ => rfl
  | succ n ih =>
    intro item
    rw [arrayOf, ih]
    show item.height + 1 + n = item.height + (n + 1)
    omega

theorem openBrackets_bracketTokens (n : Nat) : openBrackets (bracketTokens n) = n := by
  induction n with
  | zero => rfl
  | succ n ih =>
    rw [openBrackets] at ih ⊢
    rw [bracketTokens, List.count_cons_self, List.count_cons_of_ne (by decide), ih]

/-- For the height, each suffix is charged. -/
theorem charges_height : Charges (fun _ => true) 0 openBrackets where
  append front back := Nat.le_of_eq List.count_append.symm
  suffixes item n := by
    rw [openBrackets_bracketTokens]
    exact Nat.le_of_eq (height_arrayOf n item)

theorem levels_arrayOf_array (n : Nat) : ∀ item : TypeNode,
    (arrayOf (.array item) n).levels = (TypeNode.array item).levels := by
  induction n with
  | zero => exact fun _ => rfl
  | succ n ih => exact fun item => ih (.array item)

/-- Of the levels, suffixes make one. -/
theorem charges_levels : Charges (fun node => !node.isArrayOfArrays) 1 fun _ => 0 where
  append _ _ := Nat.le_refl 0
  suffixes item n := by
    cases n with
    | zero => exact Nat.le_succ _
    | succ n =>
      show (arrayOf (.array item) n).levels ≤ item.levels + 1
      rw [levels_arrayOf_array]
      exact TypeNode.depth_array_le (Nat.le_refl _)

/-! ## Names and collections -/

theorem depth_resolveName_le (counts : TypeNode → Bool) (name : Text) : depth counts (resolveName name) ≤ 1 := by
  rw [resolveName]
  split
  · exact TypeNode.depth_primitive_le counts _
  · split
    · exact TypeNode.depth_primitive_le counts _
    · exact TypeNode.depth_named_le counts _

theorem depth_plainName_le (counts : TypeNode → Bool) (name : Text) : depth counts (plainName name) ≤ 1 := by
  rw [plainName]
  split
  · exact TypeNode.depth_primitive_le counts _
  · exact depth_resolveName_le counts name

theorem depth_any_le (counts : TypeNode → Bool) : depth counts .any ≤ 1 := TypeNode.depth_primitive_le counts .any

theorem depth_collectionOf?_le {types : List TypeNode} {n : Nat} (h : ∀ t ∈ types, depth counts t ≤ n) :
    depth counts ((collectionOf? types).getD .any) ≤ n + 1 := by
  match types, h with
  | [], _ => exact Nat.le_add_left_of_le (depth_any_le counts)
  | [item], h => exact TypeNode.depth_array_le (h item (by simp))
  | [key, value], h => exact TypeNode.depth_dictionary_le (h key (by simp)) (h value (by simp))
  | _ :: _ :: _ :: _, _ => exact Nat.le_add_left_of_le (depth_any_le counts)

/-! ## Derivations -/

/-- What `n` nestings add to a depth: each adds a node, an optional union with `null`, and what is spare. -/
def room (spare n : Nat) : Nat := (spare + 3) * n

theorem room_succ (spare n : Nat) : room spare (n + 1) = room spare n + spare + 3 := Nat.mul_succ _ _

/-- One nesting less leaves less room. -/
theorem exists_inner {d n : Nat} (spare : Nat) (h : d + 1 ≤ n) :
    ∃ m, d ≤ m ∧ room spare n = room spare m + spare + 3 := by
  obtain ⟨m, rfl⟩ := Nat.exists_eq_add_of_le' (Nat.le_trans (Nat.le_add_left 1 d) h)
  exact ⟨m, Nat.le_of_succ_le_succ h, room_succ spare m⟩

section Derivations
variable (charges : Charges counts spare cost)
include charges

mutual

/-- A type keeps to the room that its nesting leaves. -/
theorem Tree.depth_le : ∀ (e : Tree) (n : Nat), e.nesting ≤ n →
    depth counts e.value ≤ room spare n + spare + 3 + cost e.tokens
  | .nullable t, n, h => by
    obtain ⟨m, inner, hm⟩ := exists_inner spare h
    have below := TypeNode.depth_nullable_le (Tree.depth_le t m inner)
    have paid := charges.tail ['?'] t.tokens
    rw [Tree.value, Tree.tokens]
    omega
  | .union s [], n, h => by
    have first := Suffixed.depth_le s n (Nat.le_trans (Nat.le_max_left _ _) h)
    have paid := charges.before s.tokens []
    rw [Tree.value, Tree.tokens, memberTokens]
    omega
  | .union s (m :: ms), n, h => by
    have first := Suffixed.depth_le s n (Nat.le_trans (Nat.le_max_left _ _) h)
    have others := depth_le_of_mem_memberValues (m :: ms) n (Nat.le_trans (Nat.le_max_right _ _) h)
    have paidFirst := charges.before s.tokens (memberTokens (m :: ms))
    have paidOthers := charges.behind s.tokens (memberTokens (m :: ms))
    have all : ∀ t ∈ s.value :: memberValues (m :: ms),
        depth counts t ≤ room spare n + spare + 1 + cost (s.tokens ++ memberTokens (m :: ms)) := by
      refine List.forall_mem_cons.2 ⟨by omega, fun t ht => ?_⟩
      have other := others t ht
      omega
    have united := TypeNode.depth_union_le all
    rw [Tree.value, Tree.tokens]
    omega

theorem depth_le_of_mem_memberValues : ∀ (ms : List (Bool × Suffixed)) (n : Nat), memberNesting ms ≤ n →
    ∀ t ∈ memberValues ms, depth counts t ≤ room spare n + spare + 1 + cost (memberTokens ms)
  | [], _, _, t, ht => absurd ht List.not_mem_nil
  | (mark, s) :: ms, n, h, t, ht => by
    have own := Nat.le_trans (Nat.le_max_left _ _) h
    have others := depth_le_of_mem_memberValues ms n (Nat.le_trans (Nat.le_max_right _ _) h)
    have paid := charges.behind (['|'] :: tokenIf mark '?') s.tokens
    have paidFirst := charges.before (['|'] :: tokenIf mark '?' ++ s.tokens) (memberTokens ms)
    have paidOthers := charges.behind (['|'] :: tokenIf mark '?' ++ s.tokens) (memberTokens ms)
    rw [memberTokens]
    rw [memberValues, List.mem_cons] at ht
    rcases ht with rfl | ht
    · cases mark with
      | false =>
        have below := Suffixed.depth_le s n own
        simp only [Bool.false_eq_true, if_false]
        omega
      | true =>
        -- A question mark is a nesting, and adds no more than one.
        obtain ⟨m, inner, hm⟩ := exists_inner spare own
        have below := TypeNode.depth_nullable_le (Suffixed.depth_le s m inner)
        simp only [if_true]
        omega
    · have other := others t ht
      omega

theorem Suffixed.depth_le : ∀ (s : Suffixed) (n : Nat), s.nesting ≤ n →
    depth counts s.value ≤ room spare n + spare + 1 + cost s.tokens
  | .mk a brackets, n, h => by
    have below := Atom.depth_le a n h
    have added := charges.suffixes a.value brackets
    have paid := charges.append a.tokens (bracketTokens brackets)
    rw [Suffixed.value, Suffixed.tokens]
    omega

theorem Atom.depth_le : ∀ (a : Atom) (n : Nat), a.nesting ≤ n →
    depth counts a.value ≤ room spare n + 1 + cost a.tokens
  | .name name, n, _ => by
    have single := depth_plainName_le counts name
    rw [Atom.value]
    omega
  | .record keyword es comma, n, h => by
    obtain ⟨m, inner, hm⟩ := exists_inner spare h
    have declared := declares_declareAll (entryValues 0 es)
    have below := TypeNode.depth_record_le fun e he =>
      depth_le_of_mem_entryValues 0 comma es m inner e (declared.mem he)
    have opened := charges.tail ['{'] (entryTokens comma es)
    have named := charges.behind keyword.toList (['{'] :: entryTokens comma es)
    have closed := charges.before (keyword.toList ++ ['{'] :: entryTokens comma es) [['}']]
    rw [Atom.value, Atom.tokens]
    omega
  | .applied name as, n, h => by
    obtain ⟨m, inner, hm⟩ := exists_inner spare h
    have below := depth_collectionOf?_le (depth_le_of_mem_argumentValues as m inner)
    have other := depth_resolveName_le counts name
    have opened := charges.tail ['<'] (argumentTokens as)
    have named := charges.tail name (['<'] :: argumentTokens as)
    have closed := charges.before (name :: ['<'] :: argumentTokens as) [['>']]
    rw [Atom.value, Atom.tokens]
    split
    · omega
    · omega
  | .parenthesized t, n, h => by
    obtain ⟨m, inner, hm⟩ := exists_inner spare h
    have below := Tree.depth_le t m inner
    have opened := charges.tail ['('] t.tokens
    have closed := charges.before (['('] :: t.tokens) [[')']]
    rw [Atom.value, Atom.tokens]
    omega

theorem depth_le_of_mem_entryValues : ∀ (index : Nat) (comma : Bool) (es : List (EntryTree Tree)) (n : Nat),
    entryNesting es ≤ n → ∀ e ∈ entryValues index es,
      depth counts e.type ≤ room spare n + spare + 3 + cost (entryTokens comma es)
  | _, _, [], _, _, e, he => absurd he List.not_mem_nil
  | index, comma, ⟨written, t⟩ :: es, n, h, e, he => by
    have below := Tree.depth_le t n (Nat.le_trans (Nat.le_max_left _ _) h)
    have others := depth_le_of_mem_entryValues (nextIndex index written) comma es n
      (Nat.le_trans (Nat.le_max_right _ _) h)
    have keyed := charges.behind (keyTokens written) t.tokens
    have separated := charges.before (keyTokens written ++ t.tokens) (tokenIf (comma || !es.isEmpty) ',')
    have paid := charges.before (keyTokens written ++ t.tokens ++ tokenIf (comma || !es.isEmpty) ',')
      (entryTokens comma es)
    have paidOthers := charges.behind (keyTokens written ++ t.tokens ++ tokenIf (comma || !es.isEmpty) ',')
      (entryTokens comma es)
    rw [entryTokens]
    rw [entryValues, List.mem_cons] at he
    rcases he with rfl | he
    · show depth counts t.value ≤ _
      omega
    · have other := others e he
      omega

theorem depth_le_of_mem_argumentValues : ∀ (as : List (ArgumentTree Tree)) (n : Nat), argumentNesting as ≤ n →
    ∀ t ∈ argumentValues as, depth counts t ≤ room spare n + spare + 3 + cost (argumentTokens as)
  | [], _, _, t, ht => absurd ht List.not_mem_nil
  | .type e :: as, n, h, t, ht => by
    have below := Tree.depth_le e n (Nat.le_trans (Nat.le_max_left _ _) h)
    have others := depth_le_of_mem_argumentValues as n (Nat.le_trans (Nat.le_max_right _ _) h)
    have separated := charges.before e.tokens (tokenIf (!as.isEmpty) ',')
    have paid := charges.before (e.tokens ++ tokenIf (!as.isEmpty) ',') (argumentTokens as)
    have paidOthers := charges.behind (e.tokens ++ tokenIf (!as.isEmpty) ',') (argumentTokens as)
    rw [argumentTokens]
    rw [argumentValues, List.mem_cons] at ht
    rcases ht with rfl | ht
    · omega
    · have other := others t ht
      omega
  | .bound word :: as, n, h, t, ht => by
    have others := depth_le_of_mem_argumentValues as n h
    have paidOthers := charges.behind (word :: tokenIf (!as.isEmpty) ',') (argumentTokens as)
    rw [argumentTokens]
    rw [argumentValues, List.mem_cons] at ht
    rcases ht with rfl | ht
    · have single := depth_any_le counts
      omega
    · have other := others t ht
      omega

end

end Derivations

/-! ## Texts -/

/-- Brackets among the tokens stand in the text. -/
theorem Spells.count_le {tokens : List Text} {t rest : Text} (h : Spells tokens t rest) :
    openBrackets tokens ≤ t.count '[' := by
  induction tokens generalizing t with
  | nil => exact Nat.zero_le _
  | cons token tokens ih =>
    obtain ⟨blanks, following, -, rfl, hs⟩ := h
    have more := ih hs
    rw [openBrackets] at more ⊢
    simp only [List.count_cons, List.count_append, beq_iff_eq]
    split
    · next bracket =>
      rw [bracket, List.count_singleton_self]
      omega
    · omega

/-- **Heights.** Each nesting of a text, and the place outside of all of them, adds at most four levels to its type:
what stands there, arrays of it, a union with others, and `null`. The arrays are as many as the suffixes, the other
three are single nodes, so the height is bounded by the nestings and the suffixes. -/
theorem height_bounded (t : Text) :
    (parse t).levels ≤ 4 * (maxNesting + 1) ∧ (parse t).height ≤ 3 * (maxNesting + 1) + t.count '[' := by
  rcases parse_eq t with ⟨e, ⟨-, nesting, rest, spelled, -⟩, read⟩ | read
  · rw [read]
    constructor
    · exact Tree.depth_le charges_levels e maxNesting nesting
    · exact Nat.le_trans (Tree.depth_le charges_height e maxNesting nesting)
        (Nat.add_le_add_left spelled.count_le (3 * (maxNesting + 1)))
  · rw [read]
    constructor
    · exact Nat.le_trans (depth_any_le _) (by decide)
    · exact Nat.le_trans (depth_any_le _) (Nat.le_add_right_of_le (by decide))

/-- Suffixes are not bounded, so no number bounds the heights of the types of all texts. -/
theorem height_unbounded : ¬ ∃ bound, ∀ t, (parse t).height ≤ bound := by
  rintro ⟨bound, bounded⟩
  let suffixed : Tree := .union (.mk (.name "int".toList) bound) []
  have name : IsName "int".toList := ⟨by decide, by simp [inName]⟩
  have derives : Derives IsBound suffixed suffixed.tokens.flatten :=
    ⟨⟨name, trivial⟩, Nat.zero_le _, [], spells_flatten _, fun c hc => absurd hc List.not_mem_nil⟩
  have high : suffixed.value.height = 1 + bound := height_arrayOf bound (.primitive .integer)
  have low := bounded suffixed.tokens.flatten
  rw [parse_of_derives derives, high] at low
  omega

end DeclGen.TypeExpr
