import DeclGen.Proofs.TypeExpr.Spelling

/-!
# What holds of the tokens of a derivation

A relation between bracket depths and lists of tokens that holds of single tokens and is kept when lists are put
together holds of the tokens of every derivation.

* `Kept` : such relations;
* `Kept.tree`, `Kept.suffixed`, `Kept.atom` : they hold of the tokens of derivations.
-/

namespace DeclGen.TypeExpr

/-- A relation between the numbers of open brackets before and behind lists of tokens. The opening and closing ones
are those of records, type arguments and parentheses; bars and keys stand inside of some. -/
structure Kept (P : Nat → Nat → List Text → Prop) : Prop where
  nil (depth : Nat) : P depth depth []
  append {depth depth' depth'' : Nat} {front back : List Text} :
    P depth depth' front → P depth' depth'' back → P depth depth'' (front ++ back)
  opening {c : Char} : c ∈ ['{', '<', '('] → ∀ depth, P depth (depth + 1) [[c]]
  closing {c : Char} : c ∈ ['}', '>', ')'] → ∀ depth, P (depth + 1) depth [[c]]
  suffix (depth : Nat) : P depth depth [['['], [']']]
  bar (depth : Nat) : P (depth + 1) (depth + 1) [['|']]
  mark {c : Char} : c ∈ ['?', ',', ':'] → ∀ depth, P depth depth [[c]]
  name {name : Text} : IsName name → ∀ depth, P depth depth [name]
  bound {word : Text} : IsBound word → ∀ depth, P depth depth [word]
  key {key : Key} : key.WellFormed → ∀ depth, P (depth + 1) (depth + 1) [key.token]

namespace Kept
variable {P : Nat → Nat → List Text → Prop} (kept : Kept P)
include kept

theorem cons {depth depth' depth'' : Nat} {token : Text} {tokens : List Text} (h : P depth depth' [token])
    (hs : P depth' depth'' tokens) : P depth depth'' (token :: tokens) :=
  kept.append h hs

theorem brackets (depth : Nat) : ∀ n, P depth depth (bracketTokens n)
  | 0 => kept.nil depth
  | n + 1 => kept.append (kept.suffix depth) (brackets depth n)

theorem optional {c : Char} (hc : c ∈ ['?', ',', ':']) (b : Bool) (depth : Nat) : P depth depth (tokenIf b c) := by
  cases b with
  | false => exact kept.nil depth
  | true => exact kept.mark hc depth

theorem keyed {key : Option (Key × Bool)} (h : ∀ k ∈ key, k.1.WellFormed) (depth : Nat) :
    P (depth + 1) (depth + 1) (keyTokens key) := by
  cases key with
  | none => exact kept.nil _
  | some key =>
    refine kept.cons (kept.key (h key rfl) depth) ?_
    exact kept.append (kept.optional (by decide) key.2 _) (kept.mark (by decide) _)

mutual

theorem tree : ∀ (depth : Nat) (e : Tree), e.WellFormed IsBound → P (depth + 1) (depth + 1) e.tokens
  | depth, .nullable t, h => kept.cons (kept.mark (by decide) _) (tree depth t h)
  | depth, .union s ms, h => kept.append (suffixed (depth + 1) s h.1) (members depth ms h.2)

theorem members : ∀ (depth : Nat) (ms : List (Bool × Suffixed)), MembersWellFormed IsBound ms →
    P (depth + 1) (depth + 1) (memberTokens ms)
  | depth, [], _ => kept.nil _
  | depth, (mark, s) :: ms, h => by
    have first : P (depth + 1) (depth + 1) (['|'] :: tokenIf mark '?') :=
      kept.cons (kept.bar depth) (kept.optional (by decide) mark _)
    exact kept.append (kept.append first (suffixed (depth + 1) s h.1)) (members depth ms h.2)

theorem suffixed : ∀ (depth : Nat) (s : Suffixed), s.WellFormed IsBound → P depth depth s.tokens
  | depth, .mk a n, h => kept.append (atom depth a h) (kept.brackets depth n)

theorem atom : ∀ (depth : Nat) (a : Atom), a.WellFormed IsBound → P depth depth a.tokens
  | depth, .name n, h => kept.name h depth
  | depth, .record keyword es comma, h => by
    have shape : P depth depth (['{'] :: entryTokens comma es ++ [['}']]) :=
      kept.append (kept.cons (kept.opening (by decide) depth) (entries depth comma es h.2.2))
        (kept.closing (by decide) depth)
    rw [Atom.tokens, List.append_assoc]
    refine kept.append ?_ shape
    cases keyword with
    | none => exact kept.nil depth
    | some k => exact kept.name (isName_of_isCollection (isCollection_of_takesShape (h.1 k rfl))) depth
  | depth, .applied n as, h =>
    kept.cons (kept.name h.1 depth) (kept.cons (kept.opening (by decide) depth)
      (kept.append (arguments depth as h.2.2.2) (kept.closing (by decide) depth)))
  | depth, .parenthesized t, h =>
    kept.cons (kept.opening (by decide) depth)
      (kept.append (tree depth t h) (kept.closing (by decide) depth))

theorem entries : ∀ (depth : Nat) (comma : Bool) (es : List (EntryTree Tree)), EntriesWellFormed IsBound es →
    P (depth + 1) (depth + 1) (entryTokens comma es)
  | depth, _, [], _ => kept.nil _
  | depth, comma, ⟨key, t⟩ :: es, h =>
    kept.append (kept.append (kept.append (kept.keyed h.1 depth) (tree depth t h.2.1))
      (kept.optional (by decide) _ _)) (entries depth comma es h.2.2)

theorem arguments : ∀ (depth : Nat) (as : List (ArgumentTree Tree)), ArgumentsWellFormed IsBound as →
    P (depth + 1) (depth + 1) (argumentTokens as)
  | depth, [], _ => kept.nil _
  | depth, .type t :: as, h =>
    kept.append (kept.append (tree depth t h.1) (kept.optional (by decide) _ _)) (arguments depth as h.2)
  | depth, .bound word :: as, h =>
    kept.cons (kept.bound h.1 _) (kept.append (kept.optional (by decide) _ _) (arguments depth as h.2))

end

end Kept

end DeclGen.TypeExpr
