import DeclGen.Text.Alphanumeric
import DeclGen.Text.Blank
import DeclGen.TypeNode.Basic
import DeclGen.TypeScript.Literal

/-!
# The grammar of TypeScript types

As far as types are written for fields: unions of alternatives with `[]` suffixes, names, `Record`s,
object types and parentheses.

* `Letters` : the characters of words. Beyond ASCII they are a parameter;
* `Token`, `next?` : the longest token at the start of a text; `Spells` : a text is some tokens with
  blanks around them;
* `Tree`, `Suffixed`, `Primary`, `Property`, `Key` : derivations, with a constructor for each
  production; `Tree.tokens` : the tokens that a derivation stands for;
* `Shape` : what a type means; `Tree.value` : the meaning of a derivation;
* `Derives` : a derivation is one of a text.
-/

namespace DeclGen.TypeScript
open Text (isBlank trimStart)

/-! ## Tokens -/

/-- The characters that are tokens on their own. -/
def marks : List Char := ['|', '[', ']', '(', ')', '{', '}', '<', '>', ',', ';', ':', '?']

/-- The characters of identifiers and numbers: those of ASCII, and maybe others. -/
structure Letters where
  holds : Char → Bool
  ascii : ∀ c, inIdentifier c = true → holds c = true
  apart : ∀ c, holds c = true → isBlank c = false ∧ c ≠ '\'' ∧ c ∉ marks

namespace Letters
variable (letters : Letters)

/-- An identifier or a number. -/
def IsWord (word : Text) : Prop := word ≠ [] ∧ ∀ c ∈ word, letters.holds c = true

/-- An identifier. -/
def IsName (name : Text) : Prop := letters.IsWord name ∧ ∀ c ∈ name.head?, c.isDigit = false

/-- No word goes on with the text. -/
def Ends (t : Text) : Prop := ∀ c ∈ t.head?, letters.holds c = false

end Letters

theorem isBlank_of_inIdentifier {c : Char} (h : inIdentifier c = true) : isBlank c = false := by
  rw [inIdentifier, Bool.or_eq_true, Bool.or_eq_true, decide_eq_true_eq, decide_eq_true_eq] at h
  rcases h with (alphanum | rfl) | rfl
  · have bounds := Text.toNat_of_isAlphanum alphanum
    refine Bool.eq_false_iff.2 fun blank => ?_
    simp only [isBlank, Bool.or_eq_true, Bool.and_eq_true, decide_eq_true_eq] at blank
    omega
  · decide
  · decide

/-- The letters of ASCII alone. -/
def asciiLetters : Letters where
  holds := inIdentifier
  ascii _ h := h
  apart c h := by
    have none : ('\'' :: marks).all (!inIdentifier ·) = true := by decide
    have outside : c ∉ '\'' :: marks := by
      intro hm
      have := List.all_eq_true.1 none c hm
      simp [h] at this
    exact ⟨isBlank_of_inIdentifier h, fun hq => outside (hq ▸ List.mem_cons_self),
      fun hm => outside (List.mem_cons_of_mem _ hm)⟩

inductive Token where
  /-- An identifier or a number. -/
  | word (word : Text)
  /-- A string in single quotes. -/
  | quoted (content : Text)
  | mark (mark : Char)
  deriving DecidableEq

/-- Reads a string up to its closing quote. A backslash makes the next character stand for itself. -/
def unquote? : Text → Option (Text × Text)
  | [] => none
  | '\'' :: t => some ([], t)
  | ['\\'] => none
  | '\\' :: c :: t => (unquote? t).map fun (content, rest) => (c :: content, rest)
  | c :: t => (unquote? t).map fun (content, rest) => (c :: content, rest)

/-- The token at the start of a text and what follows it. Words are as long as they can be. -/
def next? (letters : Letters) : Text → Option (Token × Text)
  | [] => none
  | c :: t =>
    if c = '\'' then (unquote? t).map fun (content, rest) => (.quoted content, rest)
    else if c ∈ marks then some (.mark c, t)
    else if letters.holds c then
      some (.word (c :: t.takeWhile letters.holds), t.dropWhile letters.holds)
    else none

/-- The text consists of the tokens, with blanks around them. -/
def Spells (letters : Letters) : List Token → Text → Prop
  | [], t => trimStart t = []
  | token :: tokens, t =>
    ∃ rest, next? letters (trimStart t) = some (token, rest) ∧ Spells letters tokens rest

/-- The tokens of items with a mark between any two. -/
def separated (c : Char) (items : List (List Token)) : List Token := List.intercalate [.mark c] items

/-! ## Derivations -/

/-- The key of a property as it is written. -/
inductive Key where
  | bare (name : Text)
  | quoted (name : Text)

/-- `property ::= key ['?'] ':' type` -/
structure Property (τ : Type) where
  key : Key
  optional : Bool
  type : τ

/-- `suffixed ::= primary ('[' ']')*` -/
structure Suffixed (π : Type) where
  primary : π
  brackets : Nat

/-- `primary ::= name | 'Record' '<' type ',' type '>' | '{' [property (';' property)*] '}' |
'(' type ')'`, where a type is given by its alternatives. -/
inductive Primary where
  | name (name : Text)
  | record (key value : List (Suffixed Primary))
  | object (properties : List (Property (List (Suffixed Primary))))
  | parenthesized (inner : List (Suffixed Primary))

/-- `type ::= suffixed ('|' suffixed)*` -/
abbrev Tree := List (Suffixed Primary)

def Key.name : Key → Text
  | bare name => name
  | quoted name => name

def Key.token : Key → Token
  | bare name => .word name
  | quoted name => .quoted name

/-- The tokens of a key up to its colon. -/
def Property.lead {τ : Type} (p : Property τ) : List Token :=
  p.key.token :: ((if p.optional then [.mark '?'] else []) ++ [.mark ':'])

def bracketTokens (n : Nat) : List Token := (List.replicate n [.mark '[', .mark ']']).flatten

mutual

/-- The tokens of a derivation, in the order in which they stand. -/
def Primary.tokens : Primary → List Token
  | .name name => [.word name]
  | .record key value =>
    .word "Record".toList :: .mark '<' :: (separated '|' (alternativeTokens key) ++
      .mark ',' :: (separated '|' (alternativeTokens value) ++ [.mark '>']))
  | .object properties => .mark '{' :: (separated ';' (propertyTokens properties) ++ [.mark '}'])
  | .parenthesized inner => .mark '(' :: (separated '|' (alternativeTokens inner) ++ [.mark ')'])

def alternativeTokens : List (Suffixed Primary) → List (List Token)
  | [] => []
  | ⟨primary, n⟩ :: ss => (primary.tokens ++ bracketTokens n) :: alternativeTokens ss

def propertyTokens : List (Property (List (Suffixed Primary))) → List (List Token)
  | [] => []
  | ⟨key, optional, type⟩ :: ps =>
    (Property.lead ⟨key, optional, type⟩ ++ separated '|' (alternativeTokens type)) ::
      propertyTokens ps

end

def Suffixed.tokens (s : Suffixed Primary) : List Token := s.primary.tokens ++ bracketTokens s.brackets

def Tree.tokens (t : Tree) : List Token := separated '|' (t.map Suffixed.tokens)

def Property.tokens (p : Property Tree) : List Token := p.lead ++ Tree.tokens p.type

theorem alternativeTokens_eq (t : Tree) : alternativeTokens t = t.map Suffixed.tokens := by
  induction t with
  | nil => rfl
  | cons s t ih => rw [alternativeTokens, ih]; rfl

theorem propertyTokens_eq (ps : List (Property Tree)) : propertyTokens ps = ps.map Property.tokens := by
  induction ps with
  | nil => rfl
  | cons p ps ih => rw [propertyTokens, ih, alternativeTokens_eq]; rfl

namespace Primary

theorem tokens_name (n : Text) : (name n).tokens = [.word n] := rfl

theorem tokens_record (k v : Tree) : (record k v).tokens =
    .word "Record".toList :: .mark '<' :: (k.tokens ++ .mark ',' :: (v.tokens ++ [.mark '>'])) := by
  rw [tokens, alternativeTokens_eq, alternativeTokens_eq]
  rfl

theorem tokens_object (ps : List (Property Tree)) : (object ps).tokens =
    .mark '{' :: (separated ';' (ps.map Property.tokens) ++ [.mark '}']) := by
  rw [tokens, propertyTokens_eq]

theorem tokens_parenthesized (t : Tree) : (parenthesized t).tokens =
    .mark '(' :: (t.tokens ++ [.mark ')']) := by
  rw [tokens, alternativeTokens_eq]
  rfl

end Primary

/-! ## Words -/

/-- Does each name satisfy `name` and each key `key`, and has each type an alternative? -/
inductive Primary.WellFormed (name : Text → Prop) (key : Key → Prop) : Primary → Prop
  | name {n : Text} : name n → WellFormed name key (.name n)
  | record {k v : Tree} : k ≠ [] → v ≠ [] → (∀ s ∈ k, s.primary.WellFormed name key) →
      (∀ s ∈ v, s.primary.WellFormed name key) → WellFormed name key (.record k v)
  | object {ps : List (Property Tree)} : (∀ p ∈ ps, key p.key ∧ p.type ≠ []) →
      (∀ p ∈ ps, ∀ s ∈ p.type, s.primary.WellFormed name key) → WellFormed name key (.object ps)
  | parenthesized {t : Tree} : t ≠ [] → (∀ s ∈ t, s.primary.WellFormed name key) →
      WellFormed name key (.parenthesized t)

structure Tree.WellFormed (name : Text → Prop) (key : Key → Prop) (t : Tree) : Prop where
  ne_nil : t ≠ []
  alternatives : ∀ s ∈ t, s.primary.WellFormed name key

/-- Are the bare keys words? -/
def Letters.IsKey (letters : Letters) : Key → Prop
  | .bare name => letters.IsWord name
  | .quoted _ => True

/-- The tree is a derivation of the text. -/
structure Derives (letters : Letters) (d : Tree) (t : Text) : Prop where
  wellFormed : d.WellFormed letters.IsName letters.IsKey
  spells : Spells letters d.tokens t

/-! ## Meaning -/

/-- What a type means: quotes, blanks and parentheses apart. -/
inductive Shape where
  | name (name : Text)
  | array (item : Shape)
  | dictionary (key value : Shape)
  | record (entries : List (RecordEntry Shape))
  /-- Any one of two or more alternatives. -/
  | union (alternatives : List Shape)

/-- A single alternative is no union. -/
def Shape.ofAlternatives : List Shape → Shape
  | [s] => s
  | ss => .union ss

/-- The shape `item` with the given number of suffixes. -/
def Shape.arrayOf (item : Shape) : Nat → Shape
  | 0 => item
  | n + 1 => .array (arrayOf item n)

mutual

/-- What a derivation means. -/
def Primary.value : Primary → Shape
  | .name name => .name name
  | .record key value =>
    .dictionary (.ofAlternatives (alternativeValues key)) (.ofAlternatives (alternativeValues value))
  | .object properties => .record (propertyValues properties)
  | .parenthesized inner => .ofAlternatives (alternativeValues inner)

def alternativeValues : List (Suffixed Primary) → List Shape
  | [] => []
  | ⟨primary, n⟩ :: ss => primary.value.arrayOf n :: alternativeValues ss

def propertyValues : List (Property (List (Suffixed Primary))) → List (RecordEntry Shape)
  | [] => []
  | ⟨key, optional, type⟩ :: ps =>
    ⟨key.name, .ofAlternatives (alternativeValues type), optional⟩ :: propertyValues ps

end

def Suffixed.value (s : Suffixed Primary) : Shape := s.primary.value.arrayOf s.brackets

def Tree.value (t : Tree) : Shape := .ofAlternatives (alternativeValues t)

theorem alternativeValues_eq (t : Tree) : alternativeValues t = t.map Suffixed.value := by
  induction t with
  | nil => rfl
  | cons s t ih => rw [alternativeValues, ih]; rfl

theorem Tree.value_eq (t : Tree) : t.value = .ofAlternatives (t.map Suffixed.value) := by
  rw [Tree.value, alternativeValues_eq]

theorem propertyValues_eq (ps : List (Property Tree)) :
    propertyValues ps = ps.map fun p => ⟨p.key.name, Tree.value p.type, p.optional⟩ := by
  induction ps with
  | nil => rfl
  | cons p ps ih => rw [propertyValues, ih]; rfl

/-! ## Weaker conditions -/

theorem Primary.WellFormed.mono {name name' : Text → Prop} {key key' : Key → Prop}
    (hname : ∀ n, name n → name' n) (hkey : ∀ k, key k → key' k) {p : Primary}
    (h : p.WellFormed name key) : p.WellFormed name' key' := by
  induction h with
  | name hn => exact .name (hname _ hn)
  | record hk hv _ _ ihk ihv => exact .record hk hv ihk ihv
  | object hps _ ih => exact .object (fun p hp => ⟨hkey _ (hps p hp).1, (hps p hp).2⟩) ih
  | parenthesized ht _ ih => exact .parenthesized ht ih

theorem Tree.WellFormed.mono {name name' : Text → Prop} {key key' : Key → Prop}
    (hname : ∀ n, name n → name' n) (hkey : ∀ k, key k → key' k) {t : Tree}
    (h : t.WellFormed name key) : t.WellFormed name' key' :=
  ⟨h.ne_nil, fun s hs => (h.alternatives s hs).mono hname hkey⟩

end DeclGen.TypeScript
