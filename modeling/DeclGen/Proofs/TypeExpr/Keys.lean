import DeclGen.Proofs.TypeExpr.Acceptance
import DeclGen.Proofs.TypeNode.Keys

/-!
# Where keys come from

* `ReadFrom` : a key that stands in a token, or the number of an entry without a key;
* `Tree.readFrom` : the keys in the type that a derivation denotes, production by production;
* `isInfix_of_mem_keys` : the keys in the type of a text stand in the text, numbers apart.
-/

namespace DeclGen.TypeExpr
open TypeNode (keys_nullable exists_mem_keys_of_union mem_keys_record_iff)

/-- The key stands in one of the tokens, or is the number of an entry. -/
def ReadFrom (tokens : List Text) (key : Text) : Prop :=
  (∃ token ∈ tokens, key <:+: token) ∨ ∃ n, key = Text.ofNat n

section Tokens
variable {tokens : List Text} {key : Text}

/-- Further tokens do no harm. -/
theorem ReadFrom.mono (h : ReadFrom tokens key) {more : List Text} (hs : tokens ⊆ more) : ReadFrom more key :=
  h.imp_left fun ⟨token, ht, hk⟩ => ⟨token, hs ht, hk⟩

theorem ReadFrom.before (h : ReadFrom tokens key) (back : List Text) : ReadFrom (tokens ++ back) key :=
  h.mono (List.subset_append_left tokens back)

theorem ReadFrom.behind (h : ReadFrom tokens key) (front : List Text) : ReadFrom (front ++ tokens) key :=
  h.mono (List.subset_append_right front tokens)

/-- A token is a part of the text. -/
theorem Spells.isInfix_of_mem {t rest : Text} (h : Spells tokens t rest) {token : Text} (ht : token ∈ tokens) :
    token <:+: t := by
  obtain ⟨before, after, rfl⟩ := List.append_of_mem ht
  obtain ⟨following, spelled, blanks, behind, -, rfl, -⟩ := Spells.append.1 h
  obtain ⟨u, rfl, -⟩ := spelled.exists_append
  exact ⟨u ++ blanks, behind, by simp⟩

end Tokens

/-! ## Collections -/

theorem keys_resolveName (name : Text) : (resolveName name).keys = [] := by
  rw [resolveName]
  split
  · rfl
  · split <;> rfl

theorem keys_plainName (name : Text) : (plainName name).keys = [] := by
  rw [plainName]
  split
  · rfl
  · exact keys_resolveName name

theorem keys_arrayOf (n : Nat) : ∀ item : TypeNode, (arrayOf item n).keys = item.keys := by
  induction n with
  | zero => exact fun _ => rfl
  | succ n ih => exact fun item => ih (.array item)

theorem exists_mem_keys_of_collectionOf? {types : List TypeNode} {key : Text}
    (h : key ∈ ((collectionOf? types).getD .any).keys) : ∃ t ∈ types, key ∈ t.keys := by
  match types with
  | [] => exact absurd h List.not_mem_nil
  | [item] => exact ⟨item, List.mem_singleton_self item, h⟩
  | [k, v] => simpa [collectionOf?] using h
  | _ :: _ :: _ :: _ => exact absurd h List.not_mem_nil

/-! ## Derivations -/

theorem readFrom_keyAt (index : Nat) (key : Option (Key × Bool)) :
    ReadFrom (keyTokens key) (keyAt index key) := by
  match key with
  | none => exact .inr ⟨index, rfl⟩
  | some (.bare name, optional) => exact .inl ⟨name, List.mem_cons_self, List.infix_rfl⟩
  | some (.quoted quote name, optional) =>
    exact .inl ⟨quote :: name ++ [quote], List.mem_cons_self, [quote], [quote], rfl⟩

mutual

theorem Tree.readFrom : ∀ e : Tree, ∀ key ∈ e.value.keys, ReadFrom e.tokens key
  | .nullable t, key, h => by
    rw [Tree.value, keys_nullable] at h
    exact (Tree.readFrom t key h).behind [['?']]
  | .union s [], key, h => (Suffixed.readFrom s key h).before _
  | .union s (m :: ms), key, h => by
    obtain ⟨t, ht, hk⟩ := exists_mem_keys_of_union h
    rcases List.mem_cons.1 ht with rfl | ht
    · exact (Suffixed.readFrom s key hk).before _
    · exact (readFrom_memberValues (m :: ms) t ht key hk).behind _

theorem readFrom_memberValues : ∀ ms : List (Bool × Suffixed), ∀ t ∈ memberValues ms, ∀ key ∈ t.keys,
    ReadFrom (memberTokens ms) key
  | [], t, ht, _, _ => absurd ht List.not_mem_nil
  | (mark, s) :: ms, t, ht, key, hk => by
    rw [memberValues, List.mem_cons] at ht
    rw [memberTokens]
    rcases ht with rfl | ht
    · have hs : key ∈ s.value.keys := by
        cases mark with
        | false => exact hk
        | true => rwa [if_pos rfl, keys_nullable] at hk
      exact ((Suffixed.readFrom s key hs).behind _).before _
    · exact (readFrom_memberValues ms t ht key hk).behind _

theorem Suffixed.readFrom : ∀ s : Suffixed, ∀ key ∈ s.value.keys, ReadFrom s.tokens key
  | .mk a n, key, h => by
    rw [Suffixed.value, keys_arrayOf] at h
    exact (Atom.readFrom a key h).before _

theorem Atom.readFrom : ∀ a : Atom, ∀ key ∈ a.value.keys, ReadFrom a.tokens key
  | .name n, key, h => by
    rw [Atom.value, keys_plainName] at h
    exact absurd h List.not_mem_nil
  | .record keyword es comma, key, h => by
    obtain ⟨e, he, hk⟩ := mem_keys_record_iff.1 h
    have read := readFrom_entryValues 0 comma es e ((declares_declareAll (entryValues 0 es)).mem he) key hk
    exact ((read.behind [['{']]).behind keyword.toList).before [['}']]
  | .applied n as, key, h => by
    rw [Atom.value] at h
    split at h
    · obtain ⟨t, ht, hk⟩ := exists_mem_keys_of_collectionOf? h
      exact ((readFrom_argumentValues as t ht key hk).behind [n, ['<']]).before [['>']]
    · rw [keys_resolveName] at h
      exact absurd h List.not_mem_nil
  | .parenthesized t, key, h => ((Tree.readFrom t key h).behind [['(']]).before [[')']]

theorem readFrom_entryValues : ∀ (index : Nat) (comma : Bool) (es : List (EntryTree Tree)),
    ∀ e ∈ entryValues index es, ∀ key, key = e.key ∨ key ∈ e.type.keys → ReadFrom (entryTokens comma es) key
  | _, _, [], e, he, _, _ => absurd he List.not_mem_nil
  | index, comma, ⟨written, t⟩ :: es, e, he, key, hk => by
    rw [entryValues, List.mem_cons] at he
    rw [entryTokens]
    rcases he with rfl | he
    · rcases hk with rfl | hk
      · exact (((readFrom_keyAt index written).before _).before _).before _
      · exact (((Tree.readFrom t key hk).behind _).before _).before _
    · exact (readFrom_entryValues (nextIndex index written) comma es e he key hk).behind _

theorem readFrom_argumentValues : ∀ as : List (ArgumentTree Tree), ∀ t ∈ argumentValues as, ∀ key ∈ t.keys,
    ReadFrom (argumentTokens as) key
  | [], t, ht, _, _ => absurd ht List.not_mem_nil
  | .type e :: as, t, ht, key, hk => by
    rw [argumentValues, List.mem_cons] at ht
    rw [argumentTokens]
    rcases ht with rfl | ht
    · exact ((Tree.readFrom e key hk).before _).before _
    · exact (readFrom_argumentValues as t ht key hk).behind _
  | .bound word :: as, t, ht, key, hk => by
    rw [argumentValues, List.mem_cons] at ht
    rw [argumentTokens]
    rcases ht with rfl | ht
    · exact absurd hk List.not_mem_nil
    · exact (readFrom_argumentValues as t ht key hk).behind _

end

/-! ## Texts -/

/-- A key in the type of a text stands in the text, or is a number. -/
theorem isInfix_of_mem_keys {t key : Text} (h : key ∈ (parse t).keys) : key <:+: t ∨ ∃ n, key = Text.ofNat n := by
  rcases parse_eq t with ⟨e, ⟨-, -, rest, spelled, -⟩, ht⟩ | ht
  · rw [ht] at h
    refine (e.readFrom key h).imp_left ?_
    rintro ⟨token, hm, hk⟩
    exact hk.trans (spelled.isInfix_of_mem hm)
  · rw [ht] at h
    exact absurd h List.not_mem_nil

end DeclGen.TypeExpr
