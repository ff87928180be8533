import DeclGen.Entity.Resolved
import DeclGen.Proofs.Builtin
import DeclGen.Proofs.TypeExpr.Acceptance
import DeclGen.Proofs.TypeNode.Normalized
import DeclGen.Text.Alphanumeric

/-!
# The types that type expressions denote

Each production ends in one of the normalizing constructors, so an invariant of them holds of every
type that a derivation denotes, and then of the types of all texts and of all fields.

* `resolveName_of_isDateTime`, `resolveName_of_ofName?`, `resolveName_of_not_isBuiltin` : the three kinds of names;
* `Tree.all_value` : the invariant, production by production;
* `all_parse`, `Field.all_type` : the invariant of texts and fields;
* `types_normalized` : these types are normalized;
* `Field.named_of_mem` : fields refer to entities by names in normal form, which are not builtin.
-/

namespace DeclGen
namespace TypeExpr
open TypeNode (Normalizing)

variable {P : TypeNode → Prop} {bound : Text → Prop}

/-! ## Names -/

theorem isBlank_of_inName {c : Char} (h : inName c = true) : Text.isBlank c = false := by
  simp only [inName, Bool.or_eq_true, decide_eq_true_eq] at h
  rcases h with (((h | rfl) | rfl) | rfl) | rfl
  · have := Text.toNat_of_isAlphanum h
    simp only [Text.isBlank, Bool.or_eq_false_iff, Bool.and_eq_false_iff, decide_eq_false_iff_not]
    omega
  all_goals decide

theorem IsName.unblank {name : Text} (h : IsName name) : ∀ c ∈ name, Text.isBlank c = false :=
  fun c hc => isBlank_of_inName (h.2 c hc)

theorem IsName.isBlank_of_mem {name : Text} (h : IsName name) :
    ∀ c ∈ Name.dropLeading name, Text.isBlank c = false :=
  fun c hc => h.unblank c ((List.dropWhile_suffix Name.isSeparator).subset hc)

/-- The normal form of a name has the characters of names. -/
theorem IsName.inName_of_mem {name : Text} (h : IsName name) :
    ∀ c ∈ Name.normalize (Name.dropLeading name), inName c = true := by
  intro c hc
  rw [Name.normalize, Text.trim_eq_self h.isBlank_of_mem, Name.unify] at hc
  obtain ⟨d, hd, rfl⟩ := List.mem_map.1 hc
  split
  · decide
  · have inside := (List.dropWhile_suffix Name.isSeparator).subset hd
    exact h.2 d ((List.dropWhile_suffix Name.isSeparator).subset inside)

section Resolution
variable {name : Text} {kind : Primitive}

theorem resolveName_of_isDateTime (h : isDateTime (Name.dropLeading name) = true) :
    resolveName name = .primitive .string := by
  simp only [resolveName, h, if_true]

theorem resolveName_of_ofName? (h : Primitive.ofName? (Name.dropLeading name) = some kind) :
    resolveName name = .primitive kind := by
  simp only [resolveName, isDateTime_of_ofName? h, h, Bool.false_eq_true, if_false]

theorem resolveName_of_not_isBuiltin (unblank : ∀ c ∈ name, Text.isBlank c = false) (h : isBuiltin name = false) :
    resolveName name = .named (Name.normalize (Name.dropLeading name)) := by
  simp only [isBuiltin, Text.trim_eq_self unblank, Bool.or_eq_false_iff, Option.isSome_eq_false_iff,
    Option.isNone_iff_eq_none] at h
  simp only [resolveName, h.1, h.2, Bool.false_eq_true, if_false]

theorem all_resolveName (hP : Normalizing P) (h : IsName name) : (resolveName name).All P := by
  cases builtin : isBuiltin name with
  | true =>
    rcases isBuiltin_cases h.unblank builtin with date | ⟨kind, known⟩
    · rw [resolveName_of_isDateTime date]
      exact TypeNode.all_primitive_iff.2 (hP.primitive _)
    · rw [resolveName_of_ofName? known]
      exact TypeNode.all_primitive_iff.2 (hP.primitive _)
  | false =>
    rw [resolveName_of_not_isBuiltin h.unblank builtin]
    refine TypeNode.all_named_iff.2 (hP.named (Name.isReference_normalize h.isBlank_of_mem) ?_ h.inName_of_mem)
    rw [isBuiltin_normalize h.isBlank_of_mem, isBuiltin_dropLeading h.unblank, builtin]

end Resolution

theorem all_plainName (hP : Normalizing P) {name : Text} (h : IsName name) :
    (plainName name).All P := by
  rw [plainName]
  split
  · exact TypeNode.all_primitive_iff.2 (hP.primitive _)
  · exact all_resolveName hP h

/-! ## Collections -/

theorem all_any (hP : Normalizing P) : TypeNode.any.All P :=
  TypeNode.all_primitive_iff.2 (hP.primitive _)

theorem all_arrayOf (hP : Normalizing P) (n : Nat) : ∀ {item : TypeNode}, item.All P →
    (arrayOf item n).All P := by
  induction n with
  | zero => exact id
  | succ n ih => exact fun h => ih (TypeNode.all_array_iff.2 ⟨hP.array _, h⟩)

theorem all_collectionOf? (hP : Normalizing P) {types : List TypeNode} (h : ∀ t ∈ types, t.All P) :
    ((collectionOf? types).getD .any).All P := by
  match types, h with
  | [], _ => exact all_any hP
  | [item], h => exact TypeNode.all_array_iff.2 ⟨hP.array _, h item (by simp)⟩
  | [key, value], h =>
    exact TypeNode.all_dictionary_iff.2 ⟨hP.dictionary _ _, h key (by simp), h value (by simp)⟩
  | _ :: _ :: _ :: _, _ => exact all_any hP

theorem all_record (hP : Normalizing P) {entries : List (RecordEntry TypeNode)}
    (h : ∀ e ∈ entries, e.type.All P) : (TypeNode.record (declareAll [] entries)).All P := by
  have declares := declares_declareAll entries
  exact TypeNode.all_record_iff.2 ⟨hP.record declares.distinct, fun e he => h e (declares.mem he)⟩

/-! ## Derivations -/

mutual

/-- An invariant of the normalizing constructors holds of the type that a derivation denotes. -/
theorem Tree.all_value (hP : Normalizing P) : ∀ e : Tree, e.WellFormed bound → e.value.All P
  | .nullable t, h => TypeNode.all_nullable hP (Tree.all_value hP t h)
  | .union s [], h => Suffixed.all_value hP s h.1
  | .union s (m :: ms), h => by
    refine TypeNode.all_union hP (List.forall_mem_cons.2 ⟨Suffixed.all_value hP s h.1, ?_⟩)
    exact all_memberValues hP (m :: ms) h.2

theorem all_memberValues (hP : Normalizing P) :
    ∀ ms : List (Bool × Suffixed), MembersWellFormed bound ms → ∀ t ∈ memberValues ms, t.All P
  | [], _ => by simp [memberValues]
  | (mark, s) :: ms, h => by
    have hs := Suffixed.all_value hP s h.1
    refine List.forall_mem_cons.2 ⟨?_, all_memberValues hP ms h.2⟩
    split
    · exact TypeNode.all_nullable hP hs
    · exact hs

theorem Suffixed.all_value (hP : Normalizing P) : ∀ s : Suffixed, s.WellFormed bound → s.value.All P
  | .mk a n, h => all_arrayOf hP n (Atom.all_value hP a h)

theorem Atom.all_value (hP : Normalizing P) : ∀ a : Atom, a.WellFormed bound → a.value.All P
  | .name n, h => all_plainName hP h
  | .record keyword es comma, h => all_record hP (all_entryValues hP 0 es h.2.2)
  | .applied n as, h => by
    rw [Atom.value]
    split
    · exact all_collectionOf? hP (all_argumentValues hP as h.2.2.2)
    · exact all_resolveName hP h.1
  | .parenthesized t, h => Tree.all_value hP t h

theorem all_entryValues (hP : Normalizing P) :
    ∀ (index : Nat) (es : List (EntryTree Tree)), EntriesWellFormed bound es →
      ∀ e ∈ entryValues index es, e.type.All P
  | _, [], _ => by simp [entryValues]
  | index, ⟨key, t⟩ :: es, h => by
    refine List.forall_mem_cons.2 ⟨Tree.all_value hP t h.2.1, ?_⟩
    exact all_entryValues hP (nextIndex index key) es h.2.2

theorem all_argumentValues (hP : Normalizing P) :
    ∀ as : List (ArgumentTree Tree), ArgumentsWellFormed bound as → ∀ t ∈ argumentValues as, t.All P
  | [], _ => by simp [argumentValues]
  | .type t :: as, h =>
    List.forall_mem_cons.2 ⟨Tree.all_value hP t h.1, all_argumentValues hP as h.2⟩
  | .bound _ :: as, h => List.forall_mem_cons.2 ⟨all_any hP, all_argumentValues hP as h.2⟩

end

/-! ## Texts and fields -/

theorem all_parse (hP : Normalizing P) (t : Text) : (parse t).All P := by
  rcases parse_eq t with ⟨e, he, ht⟩ | ht
  · rw [ht]
    exact e.all_value hP he.wellFormed
  · rw [ht]
    exact all_any hP

end TypeExpr

theorem Field.all_type {P : TypeNode → Prop} (hP : TypeNode.Normalizing P) (f : Field) :
    f.type.All P := by
  have h := TypeExpr.all_parse hP f.source
  simp only [Field.type]
  split
  · exact TypeNode.all_nullable hP h
  · exact h

/-- **Types are normalized.** The nodes of the type of a text, and of that of a field, are normal. -/
theorem types_normalized :
    (∀ (t : Text), ∀ node ∈ (TypeExpr.parse t).nodes, node.IsNormal) ∧
      ∀ (f : Field), ∀ node ∈ (ResolvedField.ofField f).type.nodes, node.IsNormal :=
  ⟨TypeExpr.all_parse TypeNode.normalizing_isNormal, Field.all_type TypeNode.normalizing_isNormal⟩

/-- The members of a union in a union become its own. -/
theorem types_normalized_nested :
    ∃ t ts, TypeExpr.parse t = .orNull (.oneOf ts) ∧ (TypeNode.oneOf ts).IsNormal := by
  let t : Text := "(A|null)|?(B|A)|C".toList
  let ts : List TypeNode := [.named ['A'], .named ['B'], .named ['C']]
  have parsed : TypeExpr.parse t = .orNull (.oneOf ts) := by decide +kernel
  refine ⟨t, ts, parsed, types_normalized.1 t _ ?_⟩
  rw [parsed]
  exact List.mem_cons_of_mem _ List.mem_cons_self

/-- Fields refer to entities by names in normal form, which are not builtin. -/
theorem Field.named_of_mem {f : Field} {name : Text} (h : name ∈ f.type.references) :
    Name.IsReference name ∧ isBuiltin name = false :=
  f.all_type TypeNode.normalizing_named _ ((TypeNode.mem_references_iff _).1 h) name rfl

end DeclGen
