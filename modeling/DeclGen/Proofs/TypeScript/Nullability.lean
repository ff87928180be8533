import DeclGen.Proofs.TypeExpr.Denotation
import DeclGen.Proofs.TypeScript.Balanced
import DeclGen.Proofs.TypeScript.Pieces
import DeclGen.Proofs.TypeScript.Reading

/-!
# `null` in the texts of types

Types know whether they admit `null`, but `null` is added to their texts, where names and quoted keys are
characters like all others.

* `TypeNode.GainsNull` : with `null` added, the text of the type is followed by `| null`;
* `calm_toTypeScript` : unless a name or a key reads `null`, the text of a type is calm;
* `isPassed` : if its keys close their brackets, brackets protect what is in them;
* `edges_toTypeScript` : only a name without a short name leaves a blank at the end of a union;
* `TypeNode.IsUnmistakable` : no name at the outside of the type is taken for something else;
* `toTypeScript_nullable` : which types gain `null`.
-/

namespace DeclGen
open TypeScript
open Text (isBlank trim)

namespace TypeNode

/-! ## Nodes -/

/-- A node of a normalized type, with a name that is written as its short name. -/
def IsWorded : TypeNode → Prop
  | named name => isBuiltin name = false ∧ ∀ c ∈ name, TypeExpr.inName c = true
  | t => t.IsNormal

/-- The keys of a record close their brackets. -/
def HasBalancedKeys : TypeNode → Prop
  | record es => ∀ e ∈ es, IsBalanced e.key
  | _ => True

/-- Neither a name nor a key with bars reads `null`. -/
def IsNullFree : TypeNode → Prop
  | named name => Name.short name ≠ "null".toList
  | record es => ∀ e ∈ es, ¬ HoldsNull e.key
  | _ => True

/-- What is written for a reference. -/
def shortName? : TypeNode → Option Text
  | named name => some (Name.short name)
  | _ => none

/-- No name at the outside of the type is taken for `any`, for `null` or for nothing at the end of a union. -/
def IsUnmistakable : TypeNode → Prop
  | named name => Name.short name ∉ nullish
  | oneOf ts => (∀ t ∈ ts, t.shortName? ≠ some "null".toList) ∧
      (∀ t ∈ ts.head?, t.shortName? ≠ some []) ∧ ∀ t ∈ ts.getLast?, t.shortName? ≠ some []
  | _ => True

/-- With `null` added, the text of the type is followed by `| null`. -/
def GainsNull (t : TypeNode) : Prop := t.nullable.toTypeScript = t.toTypeScript ++ " | null".toList

instance : DecidablePred HasBalancedKeys
  | record es => inferInstanceAs (Decidable (∀ e ∈ es, IsBalanced e.key))
  | primitive _ => isTrue trivial
  | named _ => isTrue trivial
  | array _ => isTrue trivial
  | dictionary _ _ => isTrue trivial
  | orNull _ => isTrue trivial
  | oneOf _ => isTrue trivial

instance : DecidablePred IsNullFree
  | named name => inferInstanceAs (Decidable (Name.short name ≠ "null".toList))
  | record es => inferInstanceAs (Decidable (∀ e ∈ es, ¬ HoldsNull e.key))
  | primitive _ => isTrue trivial
  | array _ => isTrue trivial
  | dictionary _ _ => isTrue trivial
  | orNull _ => isTrue trivial
  | oneOf _ => isTrue trivial

instance : DecidablePred IsUnmistakable
  | named name => inferInstanceAs (Decidable (Name.short name ∉ nullish))
  | oneOf ts =>
    have : Decidable (∀ t ∈ ts.head?, t.shortName? ≠ some []) := Option.decidableForallMem _
    have : Decidable (∀ t ∈ ts.getLast?, t.shortName? ≠ some []) := Option.decidableForallMem _
    inferInstanceAs (Decidable ((∀ t ∈ ts, t.shortName? ≠ some "null".toList) ∧ _ ∧ _))
  | primitive _ => isTrue trivial
  | array _ => isTrue trivial
  | record _ => isTrue trivial
  | dictionary _ _ => isTrue trivial
  | orNull _ => isTrue trivial

theorem normalizing_isWorded : Normalizing IsWorded where
  primitive _ := trivial
  named _ builtin inside := ⟨builtin, inside⟩
  array _ := trivial
  record h := h
  dictionary _ _ := trivial
  orNull h := h
  oneOf h := h

section Worded
variable {name : Text}

theorem toTypeScript_eq_short (h : (named name).IsWorded) : (named name).toTypeScript = Name.short name :=
  mapName_eq_short h.1

theorem isBlank_of_mem_short (h : (named name).IsWorded) : ∀ c ∈ Name.short name, isBlank c = false :=
  fun c hc => TypeExpr.isBlank_of_inName (h.2 c (Name.mem_of_mem_short hc))

theorem isPlain_short (h : (named name).IsWorded) : IsPlain (Name.short name) := by
  have marks : ∀ c ∈ '|' :: brackets, TypeExpr.inName c = false := Text.forall_mem_of_all (by decide)
  intro c hc
  have inside := h.2 c (Name.mem_of_mem_short hc)
  have apart : c ∉ '|' :: brackets := fun hm => absurd inside (by simp [marks c hm])
  rw [List.mem_cons, not_or] at apart
  exact ⟨apart.2, apart.1⟩

end Worded

/-! ## Types without names and keys that read `null` -/

theorem quiet_named {name : Text} (word : (named name).IsWorded) (free : (named name).IsNullFree) :
    Quiet (named name).toTypeScript := by
  have bar : ∀ c ∈ Name.short name, decide (c = '|') = false :=
    fun c hc => decide_eq_false (isPlain_short word c hc).2
  rw [toTypeScript_eq_short word, Quiet, pieces, Text.split_eq_singleton bar, List.map_singleton,
    List.mem_singleton, Text.trim_eq_self (isBlank_of_mem_short word)]
  exact Ne.symm free

theorem quiet_array {t : TypeNode} (h : Calm t.toTypeScript) : Quiet (array t).toTypeScript := by
  have opens : Seam ['('] := seam_of_mem (by decide) (List.mem_singleton_self _) (by decide)
  rw [toTypeScript_array]
  split
  · exact (calm_nil.append opens h).append_seam (seam_of_mem (by decide) (c := ')') (by decide) (by decide))
  · exact h.append_seam (seam_of_mem (by decide) (c := ']') (by decide) (by decide))

theorem quiet_record {es : List (RecordEntry TypeNode)} (keys : (record es).IsNullFree)
    (h : ∀ e ∈ es, Calm e.type.toTypeScript) : Quiet (record es).toTypeScript := by
  have opens : Seam ['{', ' '] := seam_of_mem (by decide) List.mem_cons_self (by decide)
  have closes : Seam [' ', '}'] := seam_of_mem (by decide) (c := '}') (by decide) (by decide)
  have sep : Seam "; ".toList := seam_of_mem (by decide) (c := ';') (by decide) (by decide)
  have entries : ∀ u ∈ entryTexts es, Calm u := by
    rw [entryTexts_eq]
    intro u hu
    obtain ⟨e, he, rfl⟩ := List.mem_map.1 hu
    exact calm_nil.append (seam_propertyKey (keys e he) e.optional) (h e he)
  rw [toTypeScript_record]
  split
  · decide
  · exact (calm_nil.append opens (calm_intercalate sep entries)).append_seam closes

theorem quiet_dictionary {k v : TypeNode} (hk : Calm k.toTypeScript) (hv : Calm v.toTypeScript) :
    Quiet (dictionary k v).toTypeScript := by
  have opens : Seam "Record<".toList := seam_of_mem (by decide) (c := '<') (by decide) (by decide)
  have comma : Seam ", ".toList := seam_of_mem (by decide) (c := ',') (by decide) (by decide)
  have closes : Seam ['>'] := seam_of_mem (by decide) (c := '>') (by decide) (by decide)
  exact ((calm_nil.append opens hk).append comma hv).append_seam closes

/-- The `null` that is added stands at the end. -/
theorem calm_orNull {t : TypeNode} (h : Quiet t.toTypeScript) : Calm (orNull t).toTypeScript := by
  have quiet : Quiet (trim t.toTypeScript) := by rwa [Quiet, pieces_trim]
  rw [toTypeScript_orNull]
  by_cases kept : trim t.toTypeScript = "any".toList ∨ hasNull (trim t.toTypeScript) = true
  · rw [wrapNullable_of_kept kept]
    exact quiet.calm
  · rw [wrapNullable_of_added kept, append_null, Calm, pieces_bar]
    show _ ∉ (pieces (trim t.toTypeScript) ++ ["null".toList]).dropLast
    rw [List.dropLast_concat]
    exact quiet

theorem quiet_oneOf {ts : List TypeNode} (h : ∀ t ∈ ts, Quiet t.toTypeScript) :
    Quiet (oneOf ts).toTypeScript := by
  rw [toTypeScript_oneOf, memberTexts_eq]
  refine quiet_intercalate fun u hu => ?_
  obtain ⟨t, ht, rfl⟩ := List.mem_map.1 hu
  exact h t ht

theorem calm_toTypeScript {t : TypeNode} (h : t.All fun node => node.IsWorded ∧ node.IsNullFree) :
    Calm t.toTypeScript ∧ (t.IsNonNull → Quiet t.toTypeScript) := by
  have both {u : Text} {P : Prop} (quiet : Quiet u) : Calm u ∧ (P → Quiet u) := ⟨quiet.calm, fun _ => quiet⟩
  induction t using TypeNode.induction with
  | primitive kind => cases kind <;> decide
  | named name =>
    obtain ⟨word, free⟩ := all_named_iff.1 h
    exact both (quiet_named word free)
  | array t ih => exact both (quiet_array (ih (all_array_iff.1 h).2).1)
  | record es ih =>
    obtain ⟨⟨-, keys⟩, hes⟩ := all_record_iff.1 h
    exact both (quiet_record keys fun e he => (ih e he (hes e he)).1)
  | dictionary k v ihk ihv =>
    obtain ⟨-, hk, hv⟩ := all_dictionary_iff.1 h
    exact both (quiet_dictionary (ihk hk).1 (ihv hv).1)
  | orNull t ih =>
    obtain ⟨⟨nonnull, -⟩, inner⟩ := all_orNull_iff.1 h
    exact ⟨calm_orNull ((ih inner).2 nonnull), fun hn => absurd rfl (hn.2.2 t)⟩
  | oneOf ts ih =>
    obtain ⟨⟨⟨-, -, members⟩, -⟩, hts⟩ := all_oneOf_iff.1 h
    exact both (quiet_oneOf fun t ht => (ih t ht (hts t ht)).2 (members t ht).1)

/-! ## Types whose keys close their brackets -/

/-- The text is passed over in brackets, and outside of them if it needs no parentheses. -/
def IsPassed (t : TypeNode) : Prop :=
  ∀ depth, (depth = 0 → t.needsParentheses = false) → Scans depth t.toTypeScript

theorem IsPassed.inside {t : TypeNode} (h : t.IsPassed) {depth : Nat} (hd : depth ≠ 0) :
    Scans depth t.toTypeScript :=
  h depth fun outside => absurd outside hd

theorem isPassed_primitive (kind : Primitive) : (primitive kind).IsPassed := by
  intro depth outside
  have plain : ∀ kind : Primitive, kind ≠ .untypedArray → kind ≠ .arrayKey → IsPlain kind.token := by
    intro kind
    cases kind <;> decide
  cases kind with
  | untypedArray =>
    have any : IsPlain "any".toList := by decide
    exact (any.scans depth).append (scans_bracketText depth 1)
  | arrayKey =>
    have union : ∀ c ∈ "string | number".toList, c ∉ brackets := Text.forall_mem_of_all (by decide)
    refine scans_of_forall fun c hc => ⟨union c hc, fun _ hd => ?_⟩
    exact absurd (outside hd) (by decide)
  | _ => exact (plain _ (by decide) (by decide)).scans depth

theorem isPassed_array {t : TypeNode} (h : t.IsPassed) : (array t).IsPassed := by
  intro depth _
  rw [toTypeScript_array]
  cases several : t.needsParentheses with
  | false =>
    rw [if_neg (by simp)]
    exact (h depth fun _ => several).append (scans_bracketText depth 1)
  | true =>
    have parenthesized : Scans depth ('(' :: (t.toTypeScript ++ [')'])) :=
      scans_bracketed _ _ (by decide) (by decide) (h.inside (Nat.succ_ne_zero depth))
    rw [if_pos rfl]
    simpa [bracketText] using parenthesized.append (scans_bracketText depth 1)

theorem isPassed_record {es : List (RecordEntry TypeNode)} (keys : (record es).HasBalancedKeys)
    (h : ∀ e ∈ es, e.type.IsPassed) : (record es).IsPassed := by
  intro depth _
  have deeper : depth + 1 ≠ 0 := Nat.succ_ne_zero depth
  have plain (t : Text) (ht : IsPlain t) : Scans (depth + 1) t := ht.scans _
  have entries : ∀ u ∈ entryTexts es, Scans (depth + 1) u := by
    rw [entryTexts_eq]
    intro u hu
    obtain ⟨e, he, rfl⟩ := List.mem_map.1 hu
    have mark : IsPlain (optionalMark e.optional) := by cases e.optional <;> decide
    have key := (keys e he).scans_propertyKey deeper
    exact ((key.append (plain _ mark)).append (plain _ (by decide))).append ((h e he).inside deeper)
  have content := ((plain [' '] (by decide)).append
    (scans_intercalate (plain "; ".toList (by decide)) entries)).append (plain [' '] (by decide))
  rw [toTypeScript_record]
  split
  · exact scans_bracketed '{' '}' (by decide) (by decide) (scans_nil _)
  · simpa using scans_bracketed '{' '}' (by decide) (by decide) content

theorem isPassed_dictionary {k v : TypeNode} (hk : k.IsPassed) (hv : v.IsPassed) :
    (dictionary k v).IsPassed := by
  intro depth _
  have deeper : depth + 1 ≠ 0 := Nat.succ_ne_zero depth
  have word : IsPlain "Record".toList := by decide
  have comma : IsPlain ", ".toList := by decide
  have arguments := ((hk.inside deeper).append (comma.scans _)).append (hv.inside deeper)
  have all := (word.scans depth).append (scans_bracketed '<' '>' (by decide) (by decide) arguments)
  simpa using all

theorem isPassed_orNull {t : TypeNode} (h : t.IsPassed) : (orNull t).IsPassed := by
  intro depth outside
  have deep : depth ≠ 0 := fun hd => absurd (outside hd) (by simp [needsParentheses])
  have inner := (h.inside deep).trim
  rw [toTypeScript_orNull]
  by_cases kept : trim t.toTypeScript = "any".toList ∨ hasNull (trim t.toTypeScript) = true
  · rwa [wrapNullable_of_kept kept]
  · have null : ∀ c ∈ " | null".toList, c ∉ brackets := Text.forall_mem_of_all (by decide)
    rw [wrapNullable_of_added kept]
    exact inner.append (scans_of_forall fun c hc => ⟨null c hc, fun _ => deep⟩)

theorem isPassed_oneOf {ts : List TypeNode} (h : ∀ t ∈ ts, t.IsPassed) : (oneOf ts).IsPassed := by
  intro depth outside
  have deep : depth ≠ 0 := fun hd => absurd (outside hd) (by simp [needsParentheses])
  have bar : ∀ c ∈ " | ".toList, c ∉ brackets := Text.forall_mem_of_all (by decide)
  rw [toTypeScript_oneOf, memberTexts_eq]
  refine scans_intercalate (scans_of_forall fun c hc => ⟨bar c hc, fun _ => deep⟩) fun u hu => ?_
  obtain ⟨t, ht, rfl⟩ := List.mem_map.1 hu
  exact (h t ht).inside deep

theorem isPassed {t : TypeNode} (h : t.All fun node => node.IsWorded ∧ node.HasBalancedKeys) : t.IsPassed := by
  induction t using TypeNode.induction with
  | primitive kind => exact isPassed_primitive kind
  | named name =>
    have word := (all_named_iff.1 h).1
    intro depth _
    rw [toTypeScript_eq_short word]
    exact (isPlain_short word).scans depth
  | array t ih => exact isPassed_array (ih (all_array_iff.1 h).2)
  | record es ih =>
    obtain ⟨⟨-, keys⟩, hes⟩ := all_record_iff.1 h
    exact isPassed_record keys fun e he => ih e he (hes e he)
  | dictionary k v ihk ihv =>
    obtain ⟨-, hk, hv⟩ := all_dictionary_iff.1 h
    exact isPassed_dictionary (ihk hk) (ihv hv)
  | orNull t ih => exact isPassed_orNull (ih (all_orNull_iff.1 h).2)
  | oneOf ts ih => exact isPassed_oneOf fun t ht => ih t ht ((all_oneOf_iff.1 h).2 t ht)

/-! ## The outside of types -/

/-- The text of a single alternative is solid, but for a name without a short name. -/
theorem edges_toTypeScript {t : TypeNode} (h : t.All IsWorded) (hor : ∀ s, t ≠ orNull s)
    (hone : ∀ ts, t ≠ oneOf ts) :
    (t.toTypeScript = [] ∧ t.shortName? = some []) ∨ (Solid t.toTypeScript ∧ t.shortName? ≠ some []) := by
  induction t using TypeNode.induction with
  | primitive kind =>
    have solid : Solid kind.token := by cases kind <;> exact ⟨⟨_, rfl, by decide⟩, _, rfl, by decide⟩
    exact Or.inr ⟨solid, by simp [shortName?]⟩
  | named name =>
    have word := all_named_iff.1 h
    rw [toTypeScript_eq_short word, shortName?, Ne, Option.some.injEq]
    by_cases hne : Name.short name = []
    · exact Or.inl ⟨hne, hne⟩
    · exact Or.inr ⟨solid_of_unblank hne (isBlank_of_mem_short word), hne⟩
  | array t ih =>
    refine Or.inr ⟨?_, by simp [shortName?]⟩
    have ends : Solid "[]".toList := solid_cons_concat (by decide) (by decide) []
    rw [toTypeScript_array]
    cases several : t.needsParentheses with
    | false =>
      have single : (∀ s, t ≠ orNull s) ∧ ∀ ts, t ≠ oneOf ts := by
        constructor <;> (rintro _ rfl; exact absurd several (by simp [needsParentheses]))
      rw [if_neg (by simp)]
      rcases ih (all_array_iff.1 h).2 single.1 single.2 with ⟨none, -⟩ | ⟨solid, -⟩
      · rw [none]
        exact ends
      · simpa using solid.around ends []
    | true =>
      rw [if_pos rfl]
      simpa using solid_cons_concat (c := '(') (d := ']') (by decide) (by decide)
        (t.toTypeScript ++ [')', '['])
  | record es =>
    refine Or.inr ⟨?_, by simp [shortName?]⟩
    rw [toTypeScript_record]
    split
    · exact solid_cons_concat (by decide) (by decide) []
    · simpa using solid_cons_concat (c := '{') (d := '}') (by decide) (by decide)
        (' ' :: (List.intercalate "; ".toList (entryTexts es) ++ [' ']))
  | dictionary k v =>
    refine Or.inr ⟨?_, by simp [shortName?]⟩
    simpa using solid_cons_concat (c := 'R') (d := '>') (by decide) (by decide)
      ("ecord<".toList ++ k.toTypeScript ++ ", ".toList ++ v.toTypeScript)
  | orNull t => exact absurd rfl (hor t)
  | oneOf ts => exact absurd rfl (hone ts)

theorem trim_toTypeScript {t : TypeNode} (h : t.All IsWorded) (ha : t.IsAlternative) :
    trim t.toTypeScript = t.toTypeScript := by
  rcases edges_toTypeScript h ha.1.2.2 ha.2 with ⟨none, -⟩ | ⟨solid, -⟩
  · rw [none]
    rfl
  · exact solid.trim_eq

theorem toTypeScript_eq_nil_iff {t : TypeNode} (h : t.All IsWorded) (ha : t.IsAlternative) :
    t.toTypeScript = [] ↔ t.shortName? = some [] := by
  rcases edges_toTypeScript h ha.1.2.2 ha.2 with ⟨none, name⟩ | ⟨⟨⟨c, hc, -⟩, -⟩, name⟩
  · exact iff_of_true none name
  · refine iff_of_false (fun none => ?_) name
    rw [none] at hc
    exact absurd hc (by simp)

/-- Of the types beside `null`, only a reference is written as `any` or as `null`. -/
theorem toTypeScript_eq_word_iff {t : TypeNode} (h : t.All IsWorded) (ha : t.IsAlternative) {word : Text}
    (hw : word ∈ nullish) : t.toTypeScript = word ↔ t.shortName? = some word := by
  obtain ⟨⟨hnull, hany, hor⟩, hone⟩ := ha
  have starts : ∀ word ∈ nullish, word.head? ∈ [some 'a', some 'n'] := by decide
  have ends : ∀ word ∈ nullish, word.getLast? ∈ [some 'y', some 'l'] := by decide
  have start := starts word hw
  have last := ends word hw
  cases t with
  | primitive kind =>
    have apart : kind ≠ .null → kind ≠ .any → ∀ word ∈ nullish, kind.token ≠ word := by
      cases kind <;> decide
    exact iff_of_false (apart (by simpa using hnull) (by simpa using hany) word hw) (by simp [shortName?])
  | named name =>
    rw [toTypeScript_eq_short (all_named_iff.1 h), shortName?, Option.some.injEq]
  | array t =>
    refine iff_of_false (fun same => ?_) (by simp [shortName?])
    rw [← same, toTypeScript_array] at last
    split at last <;> simp [List.getLast?_cons] at last
  | record es =>
    refine iff_of_false (fun same => ?_) (by simp [shortName?])
    rw [← same, toTypeScript_record] at start
    split at start <;> simp at start
  | dictionary k v =>
    refine iff_of_false (fun same => ?_) (by simp [shortName?])
    rw [← same, toTypeScript_dictionary] at start
    simp at start
  | orNull t => exact absurd rfl (hor t)
  | oneOf ts => exact absurd rfl (hone ts)

/-- A single alternative has `null` iff it is a reference that is written so. -/
theorem hasNull_toTypeScript_iff {t : TypeNode} (h : t.All fun node => node.IsWorded ∧ node.HasBalancedKeys)
    (ha : t.IsAlternative) : depthFrom 0 t.toTypeScript = 0 ∧
      (hasNull t.toTypeScript = true ↔ t.shortName? = some "null".toList) := by
  have worded : t.All IsWorded := fun node hm => (h node hm).1
  by_cases key : t = primitive .arrayKey
  · rw [key]
    exact ⟨by decide, iff_of_false (by decide) (by simp [shortName?])⟩
  · have single : t.needsParentheses = false := by
      obtain ⟨⟨-, -, hor⟩, hone⟩ := ha
      unfold needsParentheses
      split
      · exact absurd rfl (hor _)
      · exact absurd rfl (hone _)
      · exact absurd rfl key
      · rfl
    have scans := isPassed h 0 fun _ => single
    refine ⟨scans.depthFrom_eq_zero, ?_⟩
    rw [scans.hasNull_iff, trim_toTypeScript worded ha, toTypeScript_eq_word_iff worded ha (by decide)]

/-! ## Types that gain `null` -/

theorem gainsNull_iff {t : TypeNode} (h : t.IsNonNull) : t.GainsNull ↔
    trim t.toTypeScript = t.toTypeScript ∧ t.toTypeScript ≠ "any".toList ∧ ¬ hasNull t.toTypeScript = true := by
  rw [GainsNull, nullable_of_isNonNull h, toTypeScript_orNull, wrapNullable_eq_append_iff]

/-- A union neither starts nor ends with a blank iff its first and its last text are not empty. -/
theorem trim_intercalate_eq_iff {us : List Text} (hlen : 2 ≤ us.length) (h : ∀ u ∈ us, u = [] ∨ Solid u) :
    trim (List.intercalate " | ".toList us) = List.intercalate " | ".toList us ↔
      (∀ u ∈ us.head?, u ≠ []) ∧ ∀ u ∈ us.getLast?, u ≠ [] := by
  match us, hlen with
  | u :: v :: more, _ =>
    obtain ⟨init, w, hw⟩ : ∃ init w, v :: more = init ++ [w] :=
      ⟨_, _, (List.dropLast_concat_getLast (List.cons_ne_nil v more)).symm⟩
    have front : List.intercalate " | ".toList (u :: v :: more) =
        u ++ (" | ".toList ++ List.intercalate " | ".toList (v :: more)) := by
      rw [List.intercalate_cons_cons, List.append_assoc]
    have back : List.intercalate " | ".toList (u :: v :: more) =
        List.intercalate " | ".toList (u :: init) ++ " | ".toList ++ w := by
      rw [hw, ← List.cons_append, Text.intercalate_concat (by simp)]
    have last : (u :: v :: more).getLast? = some w := by
      rw [hw, ← List.cons_append, List.getLast?_concat]
    rw [List.head?_cons, last]
    simp only [Option.mem_some, forall_eq']
    constructor
    · intro same
      have unblank := And.intro (Text.head?_trim (List.intercalate " | ".toList (u :: v :: more)))
        (Text.getLast?_trim (List.intercalate " | ".toList (u :: v :: more)))
      rw [same] at unblank
      refine ⟨?_, ?_⟩
      · rintro rfl
        exact absurd (unblank.1 ' ' (by rw [front]; rfl)) (by decide)
      · rintro rfl
        exact absurd (unblank.2 ' ' (by rw [back]; simp)) (by decide)
    · rintro ⟨hu, hw'⟩
      obtain ⟨⟨c, hc, hcb⟩, -⟩ := (h u (by simp)).resolve_left hu
      obtain ⟨-, d, hd, hdb⟩ := (h w (List.mem_of_getLast? last)).resolve_left hw'
      refine Solid.trim_eq ⟨⟨c, ?_, hcb⟩, d, ?_, hdb⟩
      · rw [front, List.head?_append, Option.mem_def.1 hc]
        rfl
      · rw [back, List.getLast?_append, Option.mem_def.1 hd]
        rfl

theorem gainsNull_alternative_iff {t : TypeNode} (h : t.All IsWorded) (ha : t.IsAlternative) :
    t.GainsNull ↔ t.shortName? ≠ some "any".toList ∧ ¬ hasNull t.toTypeScript = true := by
  rw [gainsNull_iff ha.1, Ne, toTypeScript_eq_word_iff h ha (by decide)]
  exact and_iff_right (trim_toTypeScript h ha)

theorem gainsNull_oneOf_iff {ts : List TypeNode} (h : (oneOf ts).All IsWorded) : (oneOf ts).GainsNull ↔
    ((∀ t ∈ ts.head?, t.shortName? ≠ some []) ∧ ∀ t ∈ ts.getLast?, t.shortName? ≠ some []) ∧
      ¬ hasNull (oneOf ts).toTypeScript = true := by
  obtain ⟨⟨hlen, -, members⟩, hts⟩ := all_oneOf_iff.1 h
  have empty : ∀ t ∈ ts, t.toTypeScript = [] ↔ t.shortName? = some [] :=
    fun t ht => toTypeScript_eq_nil_iff (hts t ht) (members t ht)
  have edges : ∀ u ∈ ts.map toTypeScript, u = [] ∨ Solid u := by
    intro u hu
    obtain ⟨t, ht, rfl⟩ := List.mem_map.1 hu
    exact (edges_toTypeScript (hts t ht) (members t ht).1.2.2 (members t ht).2).imp And.left And.left
  have other : (oneOf ts).toTypeScript ≠ "any".toList := by
    intro same
    have bar : '|' ∈ (oneOf ts).toTypeScript := by
      match ts, hlen with
      | a :: b :: ts, _ =>
        rw [toTypeScript_oneOf, memberTexts_cons, memberTexts_cons, List.intercalate_cons_cons]
        simp
    rw [same] at bar
    exact absurd bar (by decide)
  have ends := trim_intercalate_eq_iff (by simpa using hlen) edges
  rw [gainsNull_iff ⟨by simp, by simp, by simp⟩, and_iff_right other, toTypeScript_oneOf, memberTexts_eq, ends,
    List.head?_map, List.getLast?_map]
  refine and_congr_left fun _ => and_congr ?_ ?_
  · simp only [Option.mem_def, Option.map_eq_some_iff, forall_exists_index, and_imp, forall_apply_eq_imp_iff₂]
    exact forall_congr' fun t => forall_congr' fun ht => not_congr (empty t (List.mem_of_mem_head? ht))
  · simp only [Option.mem_def, Option.map_eq_some_iff, forall_exists_index, and_imp, forall_apply_eq_imp_iff₂]
    exact forall_congr' fun t => forall_congr' fun ht => not_congr (empty t (List.mem_of_getLast? ht))

theorem IsAlternative.isUnmistakable_iff {t : TypeNode} (ha : t.IsAlternative) :
    t.IsUnmistakable ↔ t.shortName? ≠ some "any".toList ∧ t.shortName? ≠ some "null".toList := by
  cases t with
  | oneOf ts => exact absurd rfl (ha.2 ts)
  | named name => simp [IsUnmistakable, shortName?, nullish]
  | _ => simp [IsUnmistakable, shortName?]

/-- Whether a type gains `null` hangs on what the scan takes for `null` at its outside. -/
theorem gainsNull_iff_isUnmistakable {t : TypeNode} (h : t.All IsWorded) (hn : t.IsNonNull)
    (scan : t.IsAlternative → (hasNull t.toTypeScript = true ↔ t.shortName? = some "null".toList))
    (scans : ∀ ts, t = oneOf ts → (hasNull t.toTypeScript = true ↔ ∃ s ∈ ts, s.shortName? = some "null".toList)) :
    t.GainsNull ↔ t.IsUnmistakable := by
  by_cases hone : ∃ ts, t = oneOf ts
  · obtain ⟨ts, rfl⟩ := hone
    rw [gainsNull_oneOf_iff h, scans ts rfl, IsUnmistakable, and_comm]
    simp
  · have ha : t.IsAlternative := ⟨hn, fun ts ht => hone ⟨ts, ht⟩⟩
    rw [gainsNull_alternative_iff h ha, scan ha, ha.isUnmistakable_iff]

/-- If the keys close their brackets, the scan finds the names that are written as `null`. -/
theorem hasNull_oneOf_iff {ts : List TypeNode}
    (h : (oneOf ts).All fun node => node.IsWorded ∧ node.HasBalancedKeys) :
    hasNull (oneOf ts).toTypeScript = true ↔ ∃ t ∈ ts, t.shortName? = some "null".toList := by
  obtain ⟨⟨⟨hlen, -, members⟩, -⟩, hts⟩ := all_oneOf_iff.1 h
  have hne : ts.map toTypeScript ≠ [] := by
    rintro none
    rw [List.map_eq_nil_iff.1 none] at hlen
    exact absurd hlen (by decide)
  have closed : ∀ u ∈ ts.map toTypeScript, depthFrom 0 u = 0 := by
    intro u hu
    obtain ⟨t, ht, rfl⟩ := List.mem_map.1 hu
    exact (hasNull_toTypeScript_iff (hts t ht) (members t ht)).1
  rw [toTypeScript_oneOf, memberTexts_eq, hasNull_intercalate hne closed]
  constructor
  · rintro ⟨u, hu, found⟩
    obtain ⟨t, ht, rfl⟩ := List.mem_map.1 hu
    exact ⟨t, ht, (hasNull_toTypeScript_iff (hts t ht) (members t ht)).2.1 found⟩
  · rintro ⟨t, ht, name⟩
    exact ⟨_, List.mem_map_of_mem ht, (hasNull_toTypeScript_iff (hts t ht) (members t ht)).2.2 name⟩

end TypeNode

/-- **`null` in the text of a type.** A type that admits `null` keeps its text. The text of any other type gains
`null` iff it has no blanks at its ends, is not `any`, and the scan finds no `null` in it. If all keys close their
brackets, that is so iff no name at the outside of the type is mistaken; and it is so for whatever keys there are
if, beside that, no name in the type and no key reads `null`. -/
theorem toTypeScript_nullable (source : Text) :
    ((TypeExpr.parse source).admitsNull = true →
      (TypeExpr.parse source).nullable.toTypeScript = (TypeExpr.parse source).toTypeScript) ∧
    ((TypeExpr.parse source).admitsNull = false →
      ((TypeExpr.parse source).GainsNull ↔
        trim (TypeExpr.parse source).toTypeScript = (TypeExpr.parse source).toTypeScript ∧
          (TypeExpr.parse source).toTypeScript ≠ "any".toList ∧
            ¬ hasNull (TypeExpr.parse source).toTypeScript = true) ∧
      ((TypeExpr.parse source).All TypeNode.HasBalancedKeys →
        ((TypeExpr.parse source).GainsNull ↔ (TypeExpr.parse source).IsUnmistakable)) ∧
      ((TypeExpr.parse source).All TypeNode.IsNullFree →
        (TypeExpr.parse source).IsUnmistakable → (TypeExpr.parse source).GainsNull)) := by
  have worded := TypeExpr.all_parse TypeNode.normalizing_isWorded source
  generalize TypeExpr.parse source = t at worded
  refine ⟨fun admits => ?_, fun admits => ?_⟩
  · rw [TypeNode.nullable_eq, if_pos admits]
  · have nonnull := TypeNode.admitsNull_eq_false_iff.1 admits
    refine ⟨TypeNode.gainsNull_iff nonnull, fun balanced => ?_, fun free unmistakable => ?_⟩
    · have both : t.All fun node => node.IsWorded ∧ node.HasBalancedKeys :=
        fun node hm => ⟨worded node hm, balanced node hm⟩
      refine TypeNode.gainsNull_iff_isUnmistakable worded nonnull
        (fun ha => (TypeNode.hasNull_toTypeScript_iff both ha).2) ?_
      rintro ts rfl
      exact TypeNode.hasNull_oneOf_iff both
    · have quiet := (TypeNode.calm_toTypeScript fun node hm => ⟨worded node hm, free node hm⟩).2 nonnull
      have none : ¬ hasNull t.toTypeScript = true := fun found => quiet (mem_pieces_of_hasNull found)
      by_cases hone : ∃ ts, t = .oneOf ts
      · obtain ⟨ts, rfl⟩ := hone
        exact (TypeNode.gainsNull_oneOf_iff worded).2 ⟨unmistakable.2, none⟩
      · have ha : t.IsAlternative := ⟨nonnull, fun ts ht => hone ⟨ts, ht⟩⟩
        exact (TypeNode.gainsNull_alternative_iff worded ha).2 ⟨(ha.isUnmistakable_iff.1 unmistakable).1, none⟩

/-- A key that closes its brackets is no hindrance, nor is one without `null`; `null` between bars behind a bracket
that closes more than is open is taken for an alternative. -/
theorem toTypeScript_nullable_keys :
    (TypeExpr.parse "array\x7b'(|null|)': int\x7d|App\\User".toList).GainsNull ∧
      (TypeExpr.parse "array\x7b'\x7d|a|': int\x7d".toList).GainsNull ∧
      ¬ (TypeExpr.parse "array\x7b'\x7d|null|\x7b': int\x7d".toList).GainsNull ∧
      ¬ (TypeExpr.parse "array<int>|App\\null".toList).GainsNull ∧
      (TypeExpr.parse "?int".toList).nullable.toTypeScript = (TypeExpr.parse "?int".toList).toTypeScript := by
  have closing := (toTypeScript_nullable "array\x7b'(|null|)': int\x7d|App\\User".toList).2 (by decide +kernel)
  have harmless := (toTypeScript_nullable "array\x7b'\x7d|a|': int\x7d".toList).2 (by decide +kernel)
  have cut := (toTypeScript_nullable "array\x7b'\x7d|null|\x7b': int\x7d".toList).2 (by decide +kernel)
  have named := (toTypeScript_nullable "array<int>|App\\null".toList).2 (by decide +kernel)
  refine ⟨(closing.2.1 (by decide +kernel)).2 (by decide +kernel),
    harmless.2.2 (by decide +kernel) (by decide +kernel), fun gains => ?_, ?_,
    (toTypeScript_nullable "?int".toList).1 (by decide +kernel)⟩
  · exact (cut.1.1 gains).2.2 (by decide +kernel)
  · rw [named.2.1 (by decide +kernel)]
    decide +kernel

end DeclGen
