import DeclGen.Proofs.TypeScript.Scan
import DeclGen.Proofs.TypeScript.Spelling
import DeclGen.Proofs.TypeScript.Unambiguous

/-!
# Composing derivations

* `Suffixed.ofName`, `Tree.suffix`, `Key.ofText` : the derivations of names, of arrays and of keys,
  with what they mean, their texts, and that they are well formed;
* `Tree.text_append`, `Tree.text_flatMap` : the text of a union of unions;
* `Tree.eq_ofName` : only the derivation of a name has it for its text;
* `Tree.wrapNullable_text` : adding `null` to a text adds it to the derivation. The scan for `null`
  agrees with the tree, since a part that reads `null` has no other derivation.
-/

namespace DeclGen.TypeScript

/-- The alternative that is a name. -/
def Suffixed.ofName (name : Text) : Suffixed Primary := ⟨.name name, 0⟩

/-- A type with one more suffix, in parentheses unless it has one alternative. -/
def Tree.suffix : Tree → Suffixed Primary
  | [⟨primary, n⟩] => ⟨primary, n + 1⟩
  | t => ⟨.parenthesized t, 1⟩

/-- A key as it is written for a property. -/
def Key.ofText (key : Text) : Key := if isIdentifier key || isIndex key then .bare key else .quoted key

/-! ## Meaning -/

theorem Key.name_ofText (key : Text) : (Key.ofText key).name = key := by
  rw [Key.ofText]
  split <;> rfl

theorem Tree.value_suffix (d : Tree) :
    d.suffix.value = .array (.ofAlternatives (d.map Suffixed.value)) := by
  unfold Tree.suffix
  split
  · rfl
  · rw [← Tree.value_eq]
    rfl

/-! ## Texts -/

theorem Key.text_ofText (key : Text) : (Key.ofText key).text = propertyKey key := by
  rw [Key.ofText, propertyKey]
  split <;> rfl

theorem Tree.text_ofName (name : Text) : Tree.text [.ofName name] = name :=
  (Tree.text_singleton _).trans (List.append_nil name)

theorem Tree.text_suffix (d : Tree) : d.suffix.text =
    if d.length = 1 then d.text ++ "[]".toList else '(' :: d.text ++ ")[]".toList := by
  unfold Tree.suffix
  split
  · rw [if_pos (by simp), Suffixed.text, bracketText_succ', ← List.append_assoc]
    simp [Tree.text, barred, Suffixed.text]
  · next several =>
    have hlen : d.length ≠ 1 := by
      intro hlen
      obtain ⟨s, rfl⟩ := List.length_eq_one_iff.1 hlen
      exact several s.primary s.brackets rfl
    rw [if_neg hlen, Suffixed.text, Primary.text_parenthesized]
    simp [bracketText]

theorem Tree.text_append {d d' : Tree} (h : d ≠ []) (h' : d' ≠ []) :
    Tree.text (d ++ d') = d.text ++ " | ".toList ++ d'.text := by
  obtain ⟨s', d', rfl⟩ := List.exists_cons_of_ne_nil h'
  simp only [Tree.text, barred, List.map_append]
  induction d with
  | nil => exact absurd rfl h
  | cons s d ih =>
    cases d with
    | nil => simp [List.intercalate_cons_cons]
    | cons r d =>
      have rest := ih (by simp)
      simp only [List.map_cons, List.cons_append, List.intercalate_cons_cons, List.append_assoc] at rest ⊢
      rw [rest]

theorem Tree.text_flatMap {ι : Type} {f : ι → Tree} {is : List ι} (h : ∀ i ∈ is, f i ≠ []) :
    Tree.text (is.flatMap f) = barred (is.map fun i => (f i).text) := by
  induction is with
  | nil => rfl
  | cons i is ih =>
    rw [List.forall_mem_cons] at h
    cases is with
    | nil => simp [barred]
    | cons j is =>
      have hne : (j :: is).flatMap f ≠ [] := by simp [h.2 j (by simp)]
      rw [List.flatMap_cons, Tree.text_append h.1 hne, ih h.2]
      simp [barred, List.intercalate_cons_cons]

/-! ## Words -/

section WellFormed
variable {name : Text → Prop} {key : Key → Prop}

theorem Tree.WellFormed.single {s : Suffixed Primary} (h : s.primary.WellFormed name key) :
    Tree.WellFormed name key [s] :=
  ⟨by simp, List.forall_mem_singleton.2 h⟩

theorem Tree.wellFormed_ofName {n : Text} (h : name n) : Tree.WellFormed name key [.ofName n] :=
  .single (.name h)

theorem Tree.WellFormed.suffix {d : Tree} (h : d.WellFormed name key) :
    d.suffix.primary.WellFormed name key := by
  unfold Tree.suffix
  split
  · next primary n => exact h.alternatives ⟨primary, n⟩ (by simp)
  · exact .parenthesized h.ne_nil h.alternatives

theorem Tree.WellFormed.append {d d' : Tree} (h : d.WellFormed name key)
    (h' : d'.WellFormed name key) : Tree.WellFormed name key (d ++ d') :=
  ⟨by simp [h.ne_nil], List.forall_mem_append.2 ⟨h.alternatives, h'.alternatives⟩⟩

end WellFormed

variable {letters : Letters}

/-- Is the key a word or quoted, without brackets and bars? -/
def Letters.IsPlainKey (letters : Letters) (k : Key) : Prop := letters.IsKey k ∧ IsPlain k.name

theorem Key.isPlainKey_ofText {key : Text} (h : IsPlain key) : letters.IsPlainKey (.ofText key) := by
  refine ⟨?_, by rwa [Key.name_ofText]⟩
  rw [Key.ofText]
  split
  · next bare =>
    rcases (Bool.or_eq_true _ _).mp bare with hi | hi
    · exact (letters.isName_of_isIdentifier hi).1
    · exact letters.isWord_of_isIndex hi
  · trivial

theorem Letters.isPlain_of_isName {name : Text} (h : letters.IsName name) : IsPlain name := by
  have sub : '|' :: brackets ⊆ marks := by simp [brackets, marks]
  intro c hc
  have apart := (letters.apart c (h.1.2 c hc)).2.2
  refine ⟨fun hb => apart (sub (List.mem_cons_of_mem _ hb)), ?_⟩
  rintro rfl
  exact apart (sub List.mem_cons_self)

/-! ## `null` -/

/-- Only the derivation of a name has it for its text. -/
theorem Tree.eq_ofName {d : Tree} (h : d.WellFormed letters.IsName letters.IsKey) {name : Text}
    (hn : letters.IsName name) (ht : d.text = name) : d = [.ofName name] := by
  have named : Derives letters [.ofName name] d.text := by
    rw [ht.trans (Tree.text_ofName name).symm]
    exact Tree.derives_text (Tree.wellFormed_ofName hn)
  exact (Tree.derives_text h).unique named

theorem Tree.WellFormed.readable {d : Tree} (h : d.WellFormed letters.IsName letters.IsPlainKey) :
    d.WellFormed letters.IsName letters.IsKey :=
  h.mono (fun _ hn => hn) fun _ hk => hk.1

/-- The scan of a union finds no `null` where no alternative means it. -/
theorem Tree.wrapNullable_text {d : Tree} (h : d.WellFormed letters.IsName letters.IsPlainKey)
    (hd : ∀ word ∈ nullish, Shape.name word ∉ d.map Suffixed.value) :
    wrapNullable d.text = d.text ++ " | ".toList ++ "null".toList := by
  have read := h.readable
  have ascii : ∀ word ∈ nullish, letters.IsName word := by
    intro word hw
    have all : ∀ word ∈ nullish, isIdentifier word = true := by decide
    exact letters.isName_of_isIdentifier (all word hw)
  have any : "any".toList ∈ nullish := by decide
  have null : "null".toList ∈ nullish := by decide
  have members : ∀ u ∈ d.map Suffixed.text, Scans 0 u ∧ Solid u := by
    intro u hu
    obtain ⟨s, hs, rfl⟩ := List.mem_map.1 hu
    have plain := (h.alternatives s hs).mono (fun _ => letters.isPlain_of_isName) (fun _ h => h.2)
    exact ⟨Suffixed.scans_of (Primary.scans plain 0), Suffixed.solid (h.alternatives s hs)⟩
  have hne : d.map Suffixed.text ≠ [] := by simpa using h.ne_nil
  rw [List.append_assoc]
  refine wrapNullable_eq (solid_intercalate hne fun u hu => (members u hu).2) ?_ ?_
  -- A part with one of these texts has the derivation of that name, and then it means it.
  · intro hany
    have only : d = [.ofName "any".toList] := Tree.eq_ofName read (ascii _ any) hany
    refine hd _ any ?_
    rw [only]
    exact List.mem_singleton_self _
  · rw [Tree.text, barred, hasNull_intercalate hne fun u hu => (members u hu).1.depthFrom_eq_zero]
    rintro ⟨u, hu, hnull⟩
    rw [(members u hu).1.hasNull_iff, (members u hu).2.trim_eq] at hnull
    obtain ⟨s, hs, htext⟩ := List.mem_map.1 (hnull ▸ hu)
    have only : [s] = [.ofName "null".toList] :=
      Tree.eq_ofName (.single (read.alternatives s hs)) (ascii _ null)
        ((Tree.text_singleton s).trans htext)
    refine hd _ null (List.mem_map.2 ⟨s, hs, ?_⟩)
    rw [(List.cons.inj only).1]
    rfl

end DeclGen.TypeScript
