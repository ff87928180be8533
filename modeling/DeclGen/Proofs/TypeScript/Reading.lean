import DeclGen.Proofs.Builtin
import DeclGen.Proofs.TypeNode.Normalized
import DeclGen.Proofs.TypeScript.Composition

/-!
# Reading the text of a type

The text of a normalized type is read by the grammar in one way, and gives the type back.

* `TypeNode.shapes`, `TypeNode.shape` : what a type means as TypeScript;
* `TypeNode.derivation` : how it is written;
* `TypeNode.IsLegible` : what is asked of the names in a type;
* `values_derivation`, `wellFormed_derivation`, `toTypeScript_eq_text` : the derivation means what the
  type means, it is well formed, and its text is the text of the type;
* `length_derivation_eq_one_iff` : parentheses stand where they have to;
* `name_notMem_of_isNonNull` : where `null` is added to a normalized type, it is not there yet;
* `toTypeScript_read` : the text of a type has one derivation.
-/

namespace DeclGen
open TypeScript

/-! ## Meaning -/

/-- The alternatives of a primitive type: integers and floats are numbers. -/
def Primitive.shapes : Primitive → List Shape
  | string => [.name "string".toList]
  | integer => [.name "number".toList]
  | float => [.name "number".toList]
  | boolean => [.name "boolean".toList]
  | any => [.name "any".toList]
  | void => [.name "void".toList]
  | null => [.name "null".toList]
  | untypedArray => [.array (.name "any".toList)]
  | arrayKey => [.name "string".toList, .name "number".toList]

namespace TypeNode

mutual

/-- The alternatives of a type: `null` is the last one of a type with `null`. -/
def shapes : TypeNode → List Shape
  | primitive kind => kind.shapes
  | named name => [.name (Name.short name)]
  | array t => [.array (.ofAlternatives (shapes t))]
  | record es => [.record (entryShapes es)]
  | dictionary k v => [.dictionary (.ofAlternatives (shapes k)) (.ofAlternatives (shapes v))]
  | orNull t => shapes t ++ [.name "null".toList]
  | oneOf ts => memberShapes ts

def entryShapes : List (RecordEntry TypeNode) → List (RecordEntry Shape)
  | [] => []
  | ⟨key, t, optional⟩ :: es => ⟨key, .ofAlternatives (shapes t), optional⟩ :: entryShapes es

def memberShapes : List TypeNode → List Shape
  | [] => []
  | t :: ts => shapes t ++ memberShapes ts

end

/-- What the type means. -/
def shape (t : TypeNode) : Shape := .ofAlternatives t.shapes

theorem entryShapes_eq (es : List (RecordEntry TypeNode)) :
    entryShapes es = es.map fun e => ⟨e.key, e.type.shape, e.optional⟩ := by
  induction es with
  | nil => rfl
  | cons e es ih => rw [entryShapes, ih]; rfl

theorem memberShapes_eq (ts : List TypeNode) : memberShapes ts = ts.flatMap shapes := by
  induction ts with
  | nil => rfl
  | cons t ts ih => rw [memberShapes, ih, List.flatMap_cons]

end TypeNode

/-! ## Derivations -/

/-- The derivation of the text of a primitive type. -/
def Primitive.derivation : Primitive → Tree
  | untypedArray => [⟨.name "any".toList, 1⟩]
  | arrayKey => [.ofName "string".toList, .ofName "number".toList]
  | kind => [.ofName kind.token]

namespace TypeNode

mutual

/-- The derivation of the text of a type. -/
def derivation : TypeNode → Tree
  | primitive kind => kind.derivation
  | named name => [.ofName (Name.short name)]
  | array t => [Tree.suffix (derivation t)]
  | record es => [⟨.object (properties es), 0⟩]
  | dictionary k v => [⟨.record (derivation k) (derivation v), 0⟩]
  | orNull t => derivation t ++ [.ofName "null".toList]
  | oneOf ts => memberDerivations ts

def properties : List (RecordEntry TypeNode) → List (Property Tree)
  | [] => []
  | ⟨key, t, optional⟩ :: es => ⟨.ofText key, optional, derivation t⟩ :: properties es

def memberDerivations : List TypeNode → Tree
  | [] => []
  | t :: ts => derivation t ++ memberDerivations ts

end

theorem properties_eq (es : List (RecordEntry TypeNode)) :
    properties es = es.map fun e => ⟨.ofText e.key, e.optional, e.type.derivation⟩ := by
  induction es with
  | nil => rfl
  | cons e es ih => rw [properties, ih]; rfl

theorem memberDerivations_eq (ts : List TypeNode) :
    memberDerivations ts = ts.flatMap derivation := by
  induction ts with
  | nil => rfl
  | cons t ts ih => rw [memberDerivations, ih, List.flatMap_cons]

/-! ## What derivations mean -/

theorem values_derivation (t : TypeNode) : t.derivation.map Suffixed.value = t.shapes := by
  induction t using TypeNode.induction with
  | primitive kind => cases kind <;> rfl
  | named name => rfl
  | array t ih => rw [derivation, shapes, List.map_singleton, Tree.value_suffix, ih]
  | record es ih =>
    have entries : propertyValues (properties es) = entryShapes es := by
      rw [propertyValues_eq, properties_eq, entryShapes_eq, List.map_map]
      refine List.map_congr_left fun e he => ?_
      simp only [Function.comp, Key.name_ofText, Tree.value_eq, ih e he, shape]
    rw [derivation, shapes, List.map_singleton, ← entries]
    rfl
  | dictionary k v ihk ihv =>
    rw [derivation, shapes, List.map_singleton, ← ihk, ← ihv, ← Tree.value_eq, ← Tree.value_eq]
    rfl
  | orNull t ih => rw [derivation, shapes, List.map_append, ih]; rfl
  | oneOf ts ih =>
    rw [derivation, shapes, memberDerivations_eq, memberShapes_eq, List.map_flatMap, List.flatMap_def,
      List.flatMap_def, List.map_congr_left ih]

theorem value_derivation (t : TypeNode) : t.derivation.value = t.shape := by
  rw [Tree.value_eq, values_derivation, shape]

end TypeNode

/-! ## Legible types -/

/-- The names in the type can be read: keys without brackets and bars, and references that are not
builtin, with identifiers other than `any` and `null` for short names. -/
def TypeNode.IsLegible (letters : Letters) : TypeNode → Prop
  | named name => letters.IsName (Name.short name) ∧ Name.short name ∉ nullish ∧ isBuiltin name = false
  | record es => ∀ e ∈ es, IsPlain e.key
  | _ => True

/-- What a node of a type is like whose text can be read. -/
def TypeNode.IsReadable (letters : Letters) (node : TypeNode) : Prop :=
  node.IsNormal ∧ node.IsLegible letters

instance (letters : Letters) : DecidablePred letters.IsName := fun name =>
  have : Decidable (∀ c ∈ name, letters.holds c = true) := List.decidableBAll _ _
  have : Decidable (∀ c ∈ name.head?, c.isDigit = false) := Option.decidableForallMem _
  inferInstanceAs (Decidable ((name ≠ [] ∧ _) ∧ _))

instance : DecidablePred IsPlain := fun t => List.decidableBAll (fun c => c ∉ brackets ∧ c ≠ '|') t

instance (letters : Letters) : DecidablePred (TypeNode.IsLegible letters)
  | .named name => inferInstanceAs (Decidable (letters.IsName (Name.short name) ∧ _ ∧ _))
  | .record es => inferInstanceAs (Decidable (∀ e ∈ es, IsPlain e.key))
  | .primitive _ => isTrue trivial
  | .array _ => isTrue trivial
  | .dictionary _ _ => isTrue trivial
  | .orNull _ => isTrue trivial
  | .oneOf _ => isTrue trivial

section Legible
variable {letters : Letters} {t : TypeNode}

theorem Primitive.wellFormed_derivation (kind : Primitive) :
    kind.derivation.WellFormed letters.IsName letters.IsPlainKey := by
  have ascii : ∀ name : Text, isIdentifier name = true → letters.IsName name :=
    fun _ => letters.isName_of_isIdentifier
  cases kind with
  | untypedArray => exact .single (.name (ascii _ (by decide)))
  | arrayKey =>
    exact (Tree.wellFormed_ofName (ascii "string".toList (by decide))).append
      (Tree.wellFormed_ofName (ascii "number".toList (by decide)))
  | _ => exact Tree.wellFormed_ofName (ascii _ (by decide))

namespace TypeNode

theorem wellFormed_derivation (h : t.All (IsReadable letters)) :
    t.derivation.WellFormed letters.IsName letters.IsPlainKey := by
  induction t using TypeNode.induction with
  | primitive kind => exact kind.wellFormed_derivation
  | named name => exact Tree.wellFormed_ofName (all_named_iff.1 h).2.1
  | array t ih => exact .single (ih (all_array_iff.1 h).2).suffix
  | record es ih =>
    obtain ⟨⟨-, plain⟩, hes⟩ := all_record_iff.1 h
    refine .single (.object ?_ ?_)
    all_goals
      rw [properties_eq]
      intro p hp
      obtain ⟨e, he, rfl⟩ := List.mem_map.1 hp
    · exact ⟨Key.isPlainKey_ofText (plain e he), (ih e he (hes e he)).ne_nil⟩
    · exact (ih e he (hes e he)).alternatives
  | dictionary k v ihk ihv =>
    obtain ⟨-, hk, hv⟩ := all_dictionary_iff.1 h
    exact .single
      (.record (ihk hk).ne_nil (ihv hv).ne_nil (ihk hk).alternatives (ihv hv).alternatives)
  | orNull t ih =>
    exact (ih (all_orNull_iff.1 h).2).append
      (Tree.wellFormed_ofName (letters.isName_of_isIdentifier (by decide)))
  | oneOf ts ih =>
    obtain ⟨⟨⟨hlen, -⟩, -⟩, hts⟩ := all_oneOf_iff.1 h
    rw [derivation, memberDerivations_eq]
    refine ⟨?_, ?_⟩
    · obtain ⟨t, ts, rfl⟩ := List.exists_cons_of_ne_nil (l := ts) (by rintro rfl; simp at hlen)
      simp [(ih t (by simp) (hts t (by simp))).ne_nil]
    · intro s hs
      obtain ⟨t, ht, hs⟩ := List.mem_flatMap.1 hs
      exact (ih t ht (hts t ht)).alternatives s hs

/-- Parentheses stand around the types of several alternatives. -/
theorem length_derivation_eq_one_iff (h : t.All (IsReadable letters)) :
    t.derivation.length = 1 ↔ t.needsParentheses = false := by
  cases t with
  | primitive kind => cases kind <;> decide
  | named => exact iff_of_true rfl rfl
  | array => exact iff_of_true rfl rfl
  | record => exact iff_of_true rfl rfl
  | dictionary => exact iff_of_true rfl rfl
  | orNull t =>
    have inner := (wellFormed_derivation (all_orNull_iff.1 h).2).ne_nil
    exact iff_of_false (by simp [derivation, inner]) (by simp [needsParentheses])
  | oneOf ts =>
    obtain ⟨⟨⟨hlen, -⟩, -⟩, hts⟩ := all_oneOf_iff.1 h
    have positive : ∀ t ∈ ts, 0 < t.derivation.length := fun t ht =>
      List.length_pos_iff.2 (wellFormed_derivation (hts t ht)).ne_nil
    match ts with
    | a :: b :: ts =>
      have ha := positive a (by simp)
      have hb := positive b (by simp)
      refine iff_of_false ?_ (by simp [needsParentheses])
      rw [derivation, memberDerivations_eq, List.flatMap_cons, List.flatMap_cons, List.length_append,
        List.length_append]
      omega

/-! ## `null` -/

theorem name_notMem_of_isAlternative {word : Text} (hw : word ∈ nullish) (ha : t.IsAlternative)
    (hl : t.IsLegible letters) : Shape.name word ∉ t.shapes := by
  obtain ⟨⟨hnull, hany, hor⟩, hone⟩ := ha
  cases t with
  | primitive kind =>
    have apart : kind ≠ .null → kind ≠ .any → ∀ word ∈ nullish, Shape.name word ∉ kind.shapes := by
      cases kind <;> simp [Primitive.shapes, nullish]
    exact apart (by simpa using hnull) (by simpa using hany) word hw
  | named name =>
    obtain ⟨-, apart, -⟩ := hl
    simp only [shapes, List.mem_singleton, Shape.name.injEq]
    rintro rfl
    exact apart hw
  | array => simp [shapes]
  | record => simp [shapes]
  | dictionary => simp [shapes]
  | orNull s => exact absurd rfl (hor s)
  | oneOf ts => exact absurd rfl (hone ts)

/-- A type that `null` is added to has neither `null` nor `any` for an alternative. -/
theorem name_notMem_of_isNonNull {word : Text} (hw : word ∈ nullish) (hn : t.IsNonNull)
    (h : t.All (IsReadable letters)) : Shape.name word ∉ t.shapes := by
  have node : t.IsLegible letters := (h t (by cases t <;> simp [nodes])).2
  -- The type is a union or may be a member of one, since it is not made with `null`.
  by_cases hone : ∃ ts, t = oneOf ts
  · obtain ⟨ts, rfl⟩ := hone
    obtain ⟨⟨⟨-, -, members⟩, -⟩, hts⟩ := all_oneOf_iff.1 h
    rw [shapes, memberShapes_eq]
    intro hm
    obtain ⟨s, hs, hm⟩ := List.mem_flatMap.1 hm
    have legible := (hts s hs s (by cases s <;> simp [nodes])).2
    exact name_notMem_of_isAlternative hw (members s hs) legible hm
  · exact name_notMem_of_isAlternative hw ⟨hn, fun ts ht => hone ⟨ts, ht⟩⟩ node

/-! ## Texts -/

theorem entryTexts_eq (es : List (RecordEntry TypeNode)) :
    entryTexts es = es.map fun e =>
      propertyKey e.key ++ optionalMark e.optional ++ ": ".toList ++ e.type.toTypeScript := by
  induction es with
  | nil => rfl
  | cons e es ih => rw [entryTexts_cons, ih, List.map_cons]

theorem memberTexts_eq (ts : List TypeNode) : memberTexts ts = ts.map toTypeScript := by
  induction ts with
  | nil => rfl
  | cons t ts ih => rw [memberTexts_cons, ih, List.map_cons]

/-- The text of a type is that of its derivation. -/
theorem toTypeScript_eq_text (h : t.All (IsReadable letters)) :
    t.toTypeScript = t.derivation.text := by
  induction t using TypeNode.induction with
  | primitive kind => cases kind <;> rfl
  | named name =>
    have builtin : isBuiltin name = false := (all_named_iff.1 h).2.2.2
    rw [toTypeScript_named, mapName_eq_short builtin, derivation, Tree.text_ofName]
  | array t ih =>
    have inner := (all_array_iff.1 h).2
    have several := length_derivation_eq_one_iff inner
    rw [toTypeScript_array, derivation, Tree.text_singleton, Tree.text_suffix, ih inner]
    cases hp : t.needsParentheses with
    | false => rw [if_pos (several.2 hp), if_neg (by simp)]
    | true => rw [if_neg fun hlen => absurd (several.1 hlen) (by simp [hp]), if_pos rfl]
  | record es ih =>
    obtain ⟨-, hes⟩ := all_record_iff.1 h
    have entries : entryTexts es = (properties es).map Property.text := by
      rw [entryTexts_eq, properties_eq, List.map_map]
      refine List.map_congr_left fun e he => ?_
      rw [ih e he (hes e he), ← Key.text_ofText]
      simp [Property.text, Property.leadText, optionalMark]
    rw [toTypeScript_record, derivation, Tree.text_singleton]
    by_cases hne : es = []
    · rw [hne]
      rfl
    · have hps : properties es ≠ [] := by simpa [properties_eq] using hne
      rw [if_neg (by simpa using hne), entries, Suffixed.text, Primary.text_object hps]
      simp [bracketText]
  | dictionary k v ihk ihv =>
    obtain ⟨-, hk, hv⟩ := all_dictionary_iff.1 h
    rw [toTypeScript_dictionary, derivation, Tree.text_singleton, Suffixed.text, Primary.text_record,
      ihk hk, ihv hv]
    simp [bracketText]
  | orNull t ih =>
    obtain ⟨⟨hn, -⟩, inner⟩ := all_orNull_iff.1 h
    have hd := wellFormed_derivation inner
    have apart : ∀ word ∈ nullish, Shape.name word ∉ t.derivation.map Suffixed.value := by
      intro word hw
      rw [values_derivation]
      exact name_notMem_of_isNonNull hw hn inner
    rw [toTypeScript_orNull, ih inner, Tree.wrapNullable_text hd apart, derivation,
      Tree.text_append hd.ne_nil (List.cons_ne_nil _ _), Tree.text_ofName]
  | oneOf ts ih =>
    obtain ⟨-, hts⟩ := all_oneOf_iff.1 h
    have members : ts.map toTypeScript = ts.map fun t => t.derivation.text :=
      List.map_congr_left fun t ht => ih t ht (hts t ht)
    rw [toTypeScript_oneOf, memberTexts_eq, members, derivation, memberDerivations_eq,
      Tree.text_flatMap fun t ht => (wellFormed_derivation (hts t ht)).ne_nil, barred]

end TypeNode

/-- The text of a normalized type with legible names has one derivation, which means the type. -/
theorem toTypeScript_read (letters : Letters) {t : TypeNode} (hn : t.All TypeNode.IsNormal)
    (hl : t.All (TypeNode.IsLegible letters)) :
    ∃ d, Derives letters d t.toTypeScript ∧ (∀ d', Derives letters d' t.toTypeScript → d' = d) ∧
      d.value = t.shape := by
  have h : t.All (TypeNode.IsReadable letters) := fun node hm => ⟨hn node hm, hl node hm⟩
  have derives := Tree.derives_text (TypeNode.wellFormed_derivation h).readable
  rw [← TypeNode.toTypeScript_eq_text h] at derives
  exact ⟨t.derivation, derives, fun d' hd' => hd'.unique derives, t.value_derivation⟩

end Legible

/-- Unions in arrays, in dictionaries and beside `null`, and a key with a quote in it. -/
theorem toTypeScript_read_nested :
    ∃ t : TypeNode,
      t.toTypeScript = "(Record<string | number, (User | null)[]> | ".toList ++
        "\x7b 'it\\'s'?: any[][]; 0: number \x7d | boolean | null)[]".toList ∧
      ∃ d, Derives asciiLetters d t.toTypeScript ∧
        (∀ d', Derives asciiLetters d' t.toTypeScript → d' = d) ∧ d.value = t.shape := by
  let users : TypeNode := .dictionary (.primitive .arrayKey) (.array (.orNull (.named "App\\User".toList)))
  let shaped : TypeNode := .record [⟨"it's".toList, .array (.primitive .untypedArray), true⟩,
    ⟨"0".toList, .primitive .float, false⟩]
  let t : TypeNode := .array (.orNull (.oneOf [users, shaped, .primitive .boolean]))
  have normal : t.All TypeNode.IsNormal := by decide +kernel
  have legible : t.All (TypeNode.IsLegible asciiLetters) := by decide +kernel
  exact ⟨t, by decide +kernel, toTypeScript_read asciiLetters normal legible⟩

end DeclGen
