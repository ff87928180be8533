import DeclGen.Document.Elements
import DeclGen.Proofs.Outcome
import DeclGen.Proofs.TypeExpr.Union
import DeclGen.Proofs.TypeScript.Pieces

/-!
# Declared types that allow `null`

A field gets `null` from a look at the text of its declared type and from the type that the text denotes. The
look cuts at all bars, the type only has those outside of brackets and quotes.

* `HidesNull` : `null` stands between two bars, but is a value of no part between outer bars;
* `allowsNull_and_not_admitsNull_iff` : in such texts, and no others, `null` is seen that is no value;
* `readField_plain` : what a field without type expression and without flag takes from its declared type;
* `type_eq_parse_iff` : its type is the declared one, unless the declared type hides `null`.
-/

namespace DeclGen.Document
open Text (isBlank split trim)
open TypeExpr (outer parse)

/-! ## Texts -/

/-- `null` stands between two bars of the text, but it is a value of no part between outer bars. -/
def HidesNull (declared : Text) : Prop :=
  (∃ piece ∈ split (· = '|') declared, trim piece = "null".toList) ∧
    ∀ part ∈ outer (.within 0) declared, (parse part).admitsNull = false

instance : DecidablePred HidesNull := fun _ => inferInstanceAs (Decidable (_ ∧ _))

/-- No type without `null` starts with a question mark. -/
theorem head?_trim_of_admitsNull {declared : Text} (h : (parse declared).admitsNull = false) :
    (trim declared).head? ≠ some '?' := by
  obtain ⟨s, ms, derived, -⟩ := TypeExpr.exists_union_of_admitsNull h
  obtain ⟨hs, -⟩ := derived.wellFormed
  obtain ⟨rest, spelled, -⟩ := derived.spells
  obtain ⟨following, first, -⟩ := TypeExpr.Spells.append.1 spelled
  obtain ⟨c, token, more, tokens, hc, hspacing⟩ := (TypeExpr.Suffixed.opens hs).exists_cons
  have openers : ∀ c ∈ TypeExpr.openers, isBlank c = false := Text.forall_mem_of_all (by decide)
  have unblank : isBlank c = false := by
    rcases hc with hc | hc
    · exact openers c hc
    · exact TypeExpr.isBlank_of_inName (TypeExpr.inName_of_isNameStart hc)
  intro mark
  have start := Text.head?_trimStart_of_trim mark
  have opening := first
  rw [tokens, TypeExpr.spells_cons_iff hspacing] at opening
  obtain ⟨u, hu, -⟩ := opening
  rw [← Text.trimStart_skipSpacing, hu, Text.trimStart_eq_self (by simpa using unblank)] at start
  obtain rfl := Option.some.inj start
  exact TypeExpr.Suffixed.ne_question hs first _ hu

theorem allowsNull_iff (declared : Text) : allowsNull declared = true ↔
    (trim declared).head? = some '?' ∨ ∃ piece ∈ split (· = '|') declared, trim piece = "null".toList := by
  have pieces : (split (· = '|') (trim declared)).map trim = (split (· = '|') declared).map trim :=
    TypeScript.pieces_trim declared
  have found : (∃ piece ∈ split (· = '|') (trim declared), trim piece = "null".toList) ↔
      ∃ piece ∈ split (· = '|') declared, trim piece = "null".toList := by
    rw [← List.mem_map, ← List.mem_map, pieces]
  simp only [allowsNull, Bool.or_eq_true, decide_eq_true_eq, List.any_eq_true, found]

/-- **Where the two looks differ.** The look at the text finds `null` and the type does not have it for a
value iff the text hides `null`. -/
theorem allowsNull_and_not_admitsNull_iff (declared : Text) :
    allowsNull declared = true ∧ (parse declared).admitsNull = false ↔ HidesNull declared := by
  have law : (parse declared).admitsNull = false ↔
      ∀ part ∈ outer (.within 0) declared, (parse part).admitsNull = false := by
    rw [TypeExpr.admitsNull_parse, List.any_eq_false]
    simp only [Bool.not_eq_true]
  rw [HidesNull, ← law, and_congr_left_iff]
  intro hnull
  rw [allowsNull_iff, or_iff_right (head?_trim_of_admitsNull hnull)]

/-! ## Fields -/

/-- No type expression and no flag so far. -/
def FieldAttributes.Plain (f : FieldAttributes) : Prop := f.typeExpr = none ∧ f.nullable = false

theorem FieldAttributes.plain_of_add {f f' : FieldAttributes} {key value : Text} (h : f.Plain)
    (hk : key ≠ "annotation".toList)
    (hf : key = "nullable".toList → readFlag "nullable".toList value ≠ .ok true)
    (hadd : f.add (key, value) = .ok f') : f'.Plain := by
  simp only [add, if_neg hk] at hadd
  split at hadd
  · obtain rfl := Except.ok.inj hadd
    exact h
  · split at hadd
    · obtain rfl := Except.ok.inj hadd
      exact h
    · split at hadd
      · next hnullable =>
        obtain ⟨flag, read, hadd⟩ := bind_eq_ok_iff.1 hadd
        obtain rfl := Except.ok.inj hadd
        refine ⟨h.1, Bool.eq_false_iff.2 ?_⟩
        rintro rfl
        exact hf hnullable (hnullable ▸ read)
      · split at hadd
        · obtain ⟨flag, -, hadd⟩ := bind_eq_ok_iff.1 hadd
          obtain rfl := Except.ok.inj hadd
          exact h
        · obtain rfl := Except.ok.inj hadd
          exact h

/-- A field whose tag has no type expression and does not flag it takes all from its declared type. -/
theorem readField_plain {content : Text} {f : Field} (h : readField content = .ok f)
    (hk : ∀ value, .ok ("annotation".toList, value) ∉ decodedAttributes content)
    (hf : ∀ value, .ok ("nullable".toList, value) ∈ decodedAttributes content →
      readFlag "nullable".toList value ≠ .ok true) :
    f.typeExpr = none ∧ f.allowsNull = allowsNull f.declared := by
  obtain ⟨found, hfold, h⟩ := bind_eq_ok_iff.1 h
  have plain : found.Plain := by
    refine foldlM_invariant_of_mem (P := FieldAttributes.Plain) ?_ hfold ⟨rfl, rfl⟩
    intro s a s' ha hs hadd
    obtain ⟨⟨key, value⟩, rfl, hadd⟩ := bind_eq_ok_iff.1 hadd
    refine FieldAttributes.plain_of_add hs ?_ ?_ hadd
    · rintro rfl
      exact hk value ha
    · rintro rfl
      exact hf value ha
  split at h
  · exact absurd h (by simp)
  · obtain rfl := Except.ok.inj h
    refine ⟨?_, ?_⟩
    · show found.typeExpr.filter _ = none
      rw [plain.1]
      rfl
    · show (found.nullable || allowsNull found.declared) = _
      rw [plain.2]
      rfl

theorem type_eq_parse_declared_iff {f : Field} (ht : f.typeExpr = none)
    (hf : f.allowsNull = allowsNull f.declared) : f.type = parse f.declared ↔ ¬ HidesNull f.declared := by
  have source : f.source = f.declared := by rw [Field.source, ht]
  rw [← allowsNull_and_not_admitsNull_iff, Field.type, source, hf]
  split
  · next both =>
    rw [Bool.and_eq_true, Bool.not_eq_true'] at both
    refine iff_of_false (fun same => ?_) (not_not_intro both)
    rw [TypeNode.nullable_eq, both.2] at same
    have size := congrArg sizeOf same
    simp at size
  · next both =>
    rw [Bool.and_eq_true, Bool.not_eq_true'] at both
    exact iff_of_true rfl both

/-- **Nullable declarations.** Unless a declared type hides `null`, `null` is seen in it only if it is a value of
the type, and a field with that declared type, without type expression and without flag, has the type as it is. -/
theorem type_eq_parse_iff (declared : Text) :
    ((allowsNull declared = true → (parse declared).admitsNull = true) ↔ ¬ HidesNull declared) ∧
    ∀ content f, readField content = .ok f → f.declared = declared →
      (∀ value, .ok ("annotation".toList, value) ∉ decodedAttributes content) →
      (∀ value, .ok ("nullable".toList, value) ∈ decodedAttributes content →
        readFlag "nullable".toList value ≠ .ok true) →
      ((ResolvedField.ofField f).type = parse declared ↔ ¬ HidesNull declared) := by
  constructor
  · rw [← allowsNull_and_not_admitsNull_iff, not_and, Bool.not_eq_false]
  · rintro content f h rfl hk hf
    obtain ⟨ht, hnull⟩ := readField_plain h hk hf
    exact type_eq_parse_declared_iff ht hnull

/-- `null` is added for what stands in brackets, where it is not a value of the type, and not for what stands
outside of them, where it is. -/
theorem type_eq_parse_iff_brackets :
    (∃ content f, readField content = .ok f ∧ f.declared = "array<int|null|string>".toList ∧
      (ResolvedField.ofField f).type ≠ parse f.declared) ∧
    ∃ content f, readField content = .ok f ∧ f.declared = "array<int>|null".toList ∧ f.allowsNull = true ∧
      (ResolvedField.ofField f).type = parse f.declared := by
  let field (declared : Text) : Field := ⟨['x'], declared, none, true, false, none⟩
  let hidden : Text := "field name=\"x\" type=\"array&lt;int|null|string&gt;\"".toList
  let shown : Text := "field name=\"x\" type=\"array&lt;int&gt;|null\"".toList
  have hiddenAttributes : decodedAttributes hidden =
      [.ok ("name".toList, ['x']), .ok ("type".toList, "array<int|null|string>".toList)] := rfl
  have shownAttributes : decodedAttributes shown =
      [.ok ("name".toList, ['x']), .ok ("type".toList, "array<int>|null".toList)] := rfl
  refine ⟨⟨hidden, field "array<int|null|string>".toList, rfl, rfl, ?_⟩,
    ⟨shown, field "array<int>|null".toList, rfl, rfl, rfl, ?_⟩⟩
  · refine fun same => ((type_eq_parse_iff _).2 hidden _ rfl rfl ?_ ?_).1 same (by decide +kernel)
    · simp [hiddenAttributes]
    · simp [hiddenAttributes]
  · refine ((type_eq_parse_iff _).2 shown _ rfl rfl ?_ ?_).2 (by decide +kernel)
    · simp [shownAttributes]
    · simp [shownAttributes]

end DeclGen.Document
