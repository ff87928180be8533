import DeclGen.Document.Elements
import DeclGen.Proofs.Outcome
import DeclGen.Proofs.Xml.Tag
import Mathlib.Data.List.Basic

/-!
# Attributes of a tag

* `Xml.attributesFrom_cases` : what reading an attribute can come to;
* `Xml.nodup_keys` : no key stands twice in a tag;
* `foldAttributes_eq_ok_iff` : what is added up without an error are decoded attributes;
  `readEntity_eq_ok_iff`, `readField_eq_ok_iff` : the entity or the field that comes of it;
* `attribute?` : the value of an attribute; `get_of_foldlM` : what adding up keeps of it;
* `foldAttributes_perm` : the order of attributes does not matter;
* `Lacks`, `foldAttributes_lacks` : a tag without one of the attributes.
-/

namespace DeclGen

namespace Xml

/-! ## Reading attributes -/

theorem quote_suffix_of_attributeValue {total : Nat} {t value rest : Text}
    (h : attributeValue total t = .ok (value, rest)) : ∃ q, isQuote q = true ∧ q :: rest <:+ t := by
  unfold attributeValue at h
  split at h
  · exact absurd h (by simp)
  · next q t' found =>
    split at h
    · next quote =>
      split at h
      · exact absurd h (by simp)
      · next d rest' closed =>
        obtain ⟨-, rfl⟩ := Prod.mk.inj (Except.ok.inj h)
        have same : d = q := by
          have := List.head?_dropWhile_not (· != q) t'
          rw [closed] at this
          simpa using this
        subst same
        refine ⟨d, quote, ?_⟩
        have inner : d :: rest' <:+ t' := closed ▸ List.dropWhile_suffix _
        have outer : d :: t' <:+ t := found ▸ List.dropWhile_suffix _
        exact inner.trans ((List.suffix_cons d t').trans outer)
    · exact absurd h (by simp)

/-- Nothing is left, something is wrong, or there is an attribute with a new key, and reading goes on behind
the quote that closes its value. -/
theorem attributesFrom_cases (total fuel : Nat) (seen : List (Text × Nat)) (t : Text) :
    (attributesFrom total (fuel + 1) seen t = [] ∧ t.dropWhile isSpace = []) ∨
      (∃ fault, attributesFrom total (fuel + 1) seen t = [.error fault]) ∨
      ∃ key value start q rest, seen.lookup key = none ∧ isQuote q = true ∧ q :: rest <:+ t ∧
        attributesFrom total (fuel + 1) seen t =
          .ok (key, value) :: attributesFrom total fuel ((key, start) :: seen) rest := by
  rw [attributesFrom]
  split
  · next blank => exact Or.inl ⟨rfl, blank⟩
  · next c t' found =>
    dsimp only
    split
    · exact Or.inr (Or.inl ⟨_, rfl⟩)
    · next d rest equals =>
      split
      · split
        · exact Or.inr (Or.inl ⟨_, rfl⟩)
        · next unseen =>
          cases value : attributeValue total rest with
          | error fault => exact Or.inr (Or.inl ⟨_, rfl⟩)
          | ok read =>
            obtain ⟨value, rest'⟩ := read
            obtain ⟨q, quote, inner⟩ := quote_suffix_of_attributeValue value
            refine Or.inr (Or.inr ⟨_, _, _, q, rest', unseen, quote, inner.trans ?_, rfl⟩)
            have behind : d :: rest <:+ t' :=
              (equals ▸ List.dropWhile_suffix _ : d :: rest <:+ _).trans (List.dropWhile_suffix _)
            have start : c :: t' <:+ t := found ▸ List.dropWhile_suffix _
            exact (List.suffix_cons d rest).trans (behind.trans ((List.suffix_cons c t').trans start))
      · exact Or.inr (Or.inl ⟨_, rfl⟩)

def keyOf : Except AttributeFault Attribute → Option Text
  | .ok a => some a.1
  | .error _ => none

/-- The keys are different, also from those before. -/
theorem nodup_keysFrom (total fuel : Nat) : ∀ (seen : List (Text × Nat)) (t : Text),
    ((attributesFrom total fuel seen t).filterMap keyOf).Nodup ∧
      ∀ key ∈ (attributesFrom total fuel seen t).filterMap keyOf, seen.lookup key = none := by
  induction fuel with
  | zero => exact fun seen t => ⟨List.nodup_nil, fun _ h => absurd h List.not_mem_nil⟩
  | succ fuel ih =>
    intro seen t
    rcases attributesFrom_cases total fuel seen t with
      ⟨none, -⟩ | ⟨fault, wrong⟩ | ⟨key, value, start, q, rest, unseen, -, -, more⟩
    · rw [none]
      exact ⟨List.nodup_nil, fun _ h => absurd h List.not_mem_nil⟩
    · rw [wrong]
      exact ⟨List.nodup_nil, fun _ h => absurd h List.not_mem_nil⟩
    · obtain ⟨nodup, fresh⟩ := ih ((key, start) :: seen) rest
      rw [more, List.filterMap_cons_some (show keyOf (.ok (key, value)) = some key from rfl), List.nodup_cons,
        List.forall_mem_cons]
      have others : ∀ other ∈ (attributesFrom total fuel ((key, start) :: seen) rest).filterMap keyOf,
          other ≠ key ∧ seen.lookup other = none := by
        intro other ho
        have new := fresh other ho
        rw [List.lookup_cons] at new
        split at new
        · exact absurd new (by simp)
        · next differs => exact ⟨by simpa using differs, new⟩
      exact ⟨⟨fun again => (others key again).1 rfl, nodup⟩, unseen, fun other ho => (others other ho).2⟩

theorem nodup_keys (content : Text) : ((attributes content).filterMap keyOf).Nodup :=
  (nodup_keysFrom _ _ _ _).1

/-- Attributes without a fault end with a quote, or with blanks. -/
theorem getLast?_of_attributesFrom (total fuel : Nat) : ∀ (seen : List (Text × Nat)) (t : Text), t.length ≤ fuel →
    attributesFrom total fuel seen t ≠ [] → (∀ a ∈ attributesFrom total fuel seen t, (keyOf a).isSome) →
    ∀ c ∈ t.getLast?, isQuote c = true ∨ isSpace c = true := by
  induction fuel with
  | zero => exact fun seen t _ hne => absurd rfl hne
  | succ fuel ih =>
    intro seen t enough hne whole
    rcases attributesFrom_cases total fuel seen t with
      ⟨none, -⟩ | ⟨fault, wrong⟩ | ⟨key, value, start, q, rest, -, quote, ⟨front, rfl⟩, more⟩
    · exact absurd none hne
    · rw [wrong] at whole
      exact absurd (whole _ (List.mem_singleton_self _)) (by simp [keyOf])
    · rw [more, List.forall_mem_cons] at whole
      rw [List.length_append, List.length_cons] at enough
      intro c hc
      cases rest with
      | nil =>
        rw [List.getLast?_concat] at hc
        obtain rfl := Option.some.inj hc
        exact Or.inl quote
      | cons d rest =>
        rw [List.append_cons, List.getLast?_append_of_ne_nil _ (List.cons_ne_nil d rest)] at hc
        by_cases last : attributesFrom total fuel ((key, start) :: seen) (d :: rest) = []
        · cases fuel with
          | zero =>
            rw [List.length_cons] at enough
            omega
          | succ fuel =>
            rcases attributesFrom_cases total fuel ((key, start) :: seen) (d :: rest) with
              ⟨-, blank⟩ | ⟨fault, wrong⟩ | ⟨_, _, _, _, _, -, -, -, more⟩
            · exact Or.inr (List.dropWhile_eq_nil_iff.1 blank c (List.mem_of_mem_getLast? hc))
            · exact absurd (last.symm.trans wrong) (by simp)
            · exact absurd (last.symm.trans more) (by simp)
        · exact ih _ _ (by omega) last whole.2 c hc

end Xml

namespace Document
open Xml (Attribute)

variable {σ : Type} {content content' key : Text} {s r : σ} {add : σ → Attribute → Except DocumentError σ}
  {as : List Attribute}

/-! ## Adding up -/

theorem foldAttributes_eq_ok_iff : foldAttributes content s add = .ok r ↔
    ∃ as : List Attribute, decodedAttributes content = as.map .ok ∧ as.foldlM add s = .ok r := by
  unfold foldAttributes
  generalize decodedAttributes content = found
  constructor
  · intro h
    induction found generalizing s with
    | nil => exact ⟨[], rfl, h⟩
    | cons a found ih =>
      rw [List.foldlM_cons] at h
      obtain ⟨s', addedFirst, others⟩ := bind_eq_ok_iff.1 h
      obtain ⟨a, rfl, added⟩ := bind_eq_ok_iff.1 addedFirst
      obtain ⟨as, rfl, run⟩ := ih others
      refine ⟨a :: as, rfl, ?_⟩
      rw [List.foldlM_cons]
      exact bind_eq_ok_iff.2 ⟨s', added, run⟩
  · rintro ⟨as, rfl, h⟩
    rw [List.foldlM_map]
    exact h

theorem readEntity_eq_ok_iff {scope : Text} {read : Entity × Text} : readEntity scope content = .ok read ↔
    ∃ found name, foldAttributes content ⟨none, scope, false, none⟩ EntityAttributes.add = .ok found ∧
      found.name = some name ∧
      read = (.ofName (if found.isEnumeration then .enumeration found.backing else .record)
        (Name.join found.scope name), name) := by
  rw [readEntity, bind_eq_ok_iff]
  refine exists_congr fun found => ?_
  cases found.name with
  | none => simp
  | some name =>
    constructor
    · rintro ⟨added, said⟩
      exact ⟨name, added, rfl, (Except.ok.inj said).symm⟩
    · rintro ⟨_, added, same, rfl⟩
      obtain rfl := Option.some.inj same
      exact ⟨added, rfl⟩

theorem readField_eq_ok_iff {f : Field} : readField content = .ok f ↔
    ∃ found name, foldAttributes content ⟨none, "mixed".toList, none, false, false⟩ FieldAttributes.add = .ok found ∧
      found.name = some name ∧
      f = ⟨name, found.declared, found.typeExpr.filter (· != []), found.nullable || allowsNull found.declared,
        found.excluded, none⟩ := by
  rw [readField, bind_eq_ok_iff]
  refine exists_congr fun found => ?_
  cases found.name with
  | none => simp
  | some name =>
    constructor
    · rintro ⟨added, said⟩
      exact ⟨name, added, rfl, (Except.ok.inj said).symm⟩
    · rintro ⟨_, added, same, rfl⟩
      obtain rfl := Option.some.inj same
      exact ⟨added, rfl⟩

theorem keyOf_of_decodeAttribute {a : Except Xml.AttributeFault Attribute} {b : Attribute}
    (h : decodeAttribute a = .ok b) : Xml.keyOf a = some b.1 := by
  unfold decodeAttribute at h
  split at h
  · exact absurd h (by simp)
  · split at h
    · exact Except.ok.inj h ▸ rfl
    · exact absurd h (by simp)

theorem map_keyOf (h : decodedAttributes content = as.map .ok) :
    (Xml.attributes content).map Xml.keyOf = as.map fun a => some a.1 := by
  unfold decodedAttributes at h
  generalize Xml.attributes content = found at h
  induction found generalizing as with
  | nil =>
    cases as with
    | nil => rfl
    | cons a as => exact absurd h (by simp)
  | cons a found ih =>
    cases as with
    | nil => exact absurd h (by simp)
    | cons b as =>
      obtain ⟨first, others⟩ := List.cons.inj h
      rw [List.map_cons, List.map_cons, keyOf_of_decodeAttribute first, ih others]

theorem nodup_of_decoded (h : decodedAttributes content = as.map .ok) : (as.map Prod.fst).Nodup := by
  have keys : (Xml.attributes content).filterMap Xml.keyOf = as.map Prod.fst := by
    have values : (Xml.attributes content).filterMap Xml.keyOf =
        ((Xml.attributes content).map Xml.keyOf).filterMap id := by
      rw [List.filterMap_map]
      rfl
    rw [values, map_keyOf h, List.filterMap_map]
    exact congrFun (List.filterMap_eq_map' (f := Prod.fst)) as
  exact keys ▸ Xml.nodup_keys content

/-! ## Values -/

/-- The value of an attribute, references resolved. -/
def attribute? (key content : Text) : Option Text :=
  ((decodedAttributes content).filterMap Except.toOption).lookup key

theorem filterMap_toOption_ok {ε α : Type} (as : List α) :
    (as.map (Except.ok : α → Except ε α)).filterMap Except.toOption = as := by
  rw [List.filterMap_map]
  exact List.filterMap_some

theorem attribute?_of_decoded (h : decodedAttributes content = as.map .ok) (key : Text) :
    attribute? key content = as.lookup key := by
  rw [attribute?, h, filterMap_toOption_ok]

/-- What one attribute sets is its value in the end. -/
theorem get_of_foldlM (get : σ → Option Text) (value : Text → Text)
    (sets : ∀ {s s' : σ} {a : Attribute}, add s a = .ok s' → get s' = if a.1 = key then some (value a.2) else get s)
    (nodup : (as.map Prod.fst).Nodup) (h : as.foldlM add s = .ok r) :
    get r = ((as.lookup key).map value <|> get s) := by
  induction as generalizing s with
  | nil => exact Except.ok.inj h ▸ rfl
  | cons a as ih =>
    rw [List.map_cons, List.nodup_cons] at nodup
    rw [List.foldlM_cons] at h
    obtain ⟨s', added, h⟩ := bind_eq_ok_iff.1 h
    rw [ih nodup.2 h, sets added, List.lookup_cons]
    by_cases same : a.1 = key
    · have absent : as.lookup key = none := by
        rw [List.lookup_eq_none_iff]
        intro b hb
        rw [bne_iff_ne, ← same]
        exact fun again => nodup.1 (List.mem_map.2 ⟨b, hb, again.symm⟩)
      rw [absent, if_pos same, same, beq_self_eq_true]
      rfl
    · rw [if_neg same, beq_eq_false_iff_ne.2 (Ne.symm same)]

/-! ## Order -/

theorem filter_eq_of_perm {as' : List Attribute} (nodup : (as.map Prod.fst).Nodup) (perm : as.Perm as') (key : Text) :
    as.filter (·.1 = key) = as'.filter (·.1 = key) := by
  have short : (as.filter (·.1 = key)).length ≤ 1 := by
    have same : (as.filter (·.1 = key)).map Prod.fst = List.replicate (as.filter (·.1 = key)).length key := by
      rw [List.eq_replicate_iff]
      refine ⟨List.length_map _, fun k hk => ?_⟩
      obtain ⟨a, ha, rfl⟩ := List.mem_map.1 hk
      simpa using (List.mem_filter.1 ha).2
    have distinct : ((as.filter (·.1 = key)).map Prod.fst).Nodup :=
      nodup.sublist (List.filter_sublist.map _)
    rw [same, List.nodup_replicate] at distinct
    exact distinct
  have both := perm.filter (·.1 = key)
  cases found : as.filter (·.1 = key) with
  | nil =>
    rw [found] at both
    exact both.nil_eq
  | cons a rest =>
    rw [found] at both short
    cases rest with
    | nil => exact both.singleton_eq
    | cons b rest => exact absurd short (by simp)

theorem exists_of_perm_ok {ε α : Type} {as : List α} {found : List (Except ε α)}
    (perm : (as.map Except.ok).Perm found) : ∃ as', found = as'.map .ok ∧ as.Perm as' := by
  have whole : ∀ a ∈ found, ∃ b, a = .ok b := by
    intro a ha
    obtain ⟨b, -, rfl⟩ := List.mem_map.1 (perm.mem_iff.2 ha)
    exact ⟨b, rfl⟩
  have back : (as.map (Except.ok : α → Except ε α)).filterMap Except.toOption = as := filterMap_toOption_ok as
  refine ⟨found.filterMap Except.toOption, ?_, back ▸ perm.filterMap _⟩
  clear perm back
  induction found with
  | nil => rfl
  | cons a found ih =>
    rw [List.forall_mem_cons] at whole
    obtain ⟨⟨b, rfl⟩, others⟩ := whole
    exact congrArg (List.cons _) (ih others)

/-- The order of attributes does not matter to steps that may trade places. -/
theorem foldAttributes_perm (trades : Trades add Prod.fst)
    (perm : (Xml.attributes content).Perm (Xml.attributes content')) (h : foldAttributes content s add = .ok r) :
    foldAttributes content' s add = .ok r := by
  obtain ⟨as, decoded, h⟩ := foldAttributes_eq_ok_iff.1 h
  have both : (decodedAttributes content).Perm (decodedAttributes content') := perm.map _
  rw [decoded] at both
  obtain ⟨as', decoded', perm'⟩ := exists_of_perm_ok both
  refine foldAttributes_eq_ok_iff.2 ⟨as', decoded', foldlM_rearranged trades (fun key => ?_) h⟩
  exact filter_eq_of_perm (nodup_of_decoded decoded) perm' key

/-! ## A missing attribute -/

/-- The second tag has the attributes of the first but one. -/
def Lacks (key content content' : Text) : Prop :=
  Xml.attributes content' = (Xml.attributes content).filter (Xml.keyOf · ≠ some key)

theorem decoded_of_lacks (lacks : Lacks key content content') (h : decodedAttributes content = as.map .ok) :
    decodedAttributes content' = (as.filter (·.1 ≠ key)).map .ok := by
  unfold decodedAttributes at h ⊢
  rw [lacks]
  generalize Xml.attributes content = found at h
  induction found generalizing as with
  | nil =>
    cases as with
    | nil => rfl
    | cons a as => exact absurd h (by simp)
  | cons a found ih =>
    cases as with
    | nil => exact absurd h (by simp)
    | cons b as =>
      obtain ⟨first, others⟩ := List.cons.inj h
      have keys := keyOf_of_decodeAttribute first
      by_cases same : b.1 = key
      · rw [List.filter_cons_of_neg (by simpa [keys] using same), List.filter_cons_of_neg (by simpa using same)]
        exact ih others
      · rw [List.filter_cons_of_pos (by simpa [keys] using same), List.filter_cons_of_pos (by simpa using same),
          List.map_cons, List.map_cons, first, ih others]

/-- Without an attribute nothing is missing but what it sets. -/
theorem foldAttributes_lacks (forget : σ → σ)
    (drops : ∀ {s s' a}, add s a = .ok s' → a.1 = key → forget s' = forget s)
    (keeps : ∀ {s s' a}, add s a = .ok s' → a.1 ≠ key → add (forget s) a = .ok (forget s'))
    (lacks : Lacks key content content') (h : foldAttributes content s add = .ok r) :
    foldAttributes content' (forget s) add = .ok (forget r) := by
  rw [foldAttributes_eq_ok_iff] at h
  obtain ⟨as, decoded, h⟩ := h
  refine foldAttributes_eq_ok_iff.2 ⟨_, decoded_of_lacks lacks decoded, ?_⟩
  clear decoded lacks
  induction as generalizing s with
  | nil => exact Except.ok.inj h ▸ rfl
  | cons a as ih =>
    rw [List.foldlM_cons] at h
    obtain ⟨s', added, h⟩ := bind_eq_ok_iff.1 h
    by_cases same : a.1 = key
    · rw [List.filter_cons_of_neg (by simpa using same), ← drops added same]
      exact ih h
    · rw [List.filter_cons_of_pos (by simpa using same), List.foldlM_cons, keeps added same]
      exact ih h

/-! ## Annotations and values -/

theorem FieldAttributes.add_other (f : FieldAttributes) {a : Attribute} (h : a.1 ≠ "annotation".toList)
    (typeExpr : Option Text) :
    { f with typeExpr }.add a = (f.add a).map fun f => { f with typeExpr } := by
  obtain ⟨key, value⟩ := a
  simp only [add, if_neg h]
  split
  · rfl
  · split
    · rfl
    · split
      · cases readFlag key value <;> rfl
      · split
        · cases readFlag key value <;> rfl
        · rfl

theorem FieldAttributes.typeExpr_of_add {f f' : FieldAttributes} {a : Attribute} (h : f.add a = .ok f') :
    f'.typeExpr = if a.1 = "annotation".toList then some (Text.trim a.2) else f.typeExpr := by
  by_cases key : a.1 = "annotation".toList
  · obtain ⟨_, value⟩ := a
    obtain rfl : _ = "annotation".toList := key
    exact Except.ok.inj h ▸ rfl
  · have same := f.add_other key f.typeExpr
    rw [if_neg key]
    rw [show { f with typeExpr := f.typeExpr } = f from rfl, h] at same
    have same : Except.ok f' = Except.ok { f' with typeExpr := f.typeExpr } := same
    have unchanged := congrArg FieldAttributes.typeExpr (Except.ok.inj same)
    exact unchanged

theorem CaseAttributes.add_other (c : CaseAttributes) {a : Attribute} (h : a.1 ≠ "value".toList)
    (value : Option Text) : { c with value }.add a = (c.add a).map fun c => { c with value } := by
  simp only [add, if_neg h]
  split <;> rfl

theorem CaseAttributes.value_of_add {c c' : CaseAttributes} {a : Attribute} (h : c.add a = .ok c') :
    c'.value = if a.1 = "value".toList then some a.2 else c.value := by
  by_cases key : a.1 = "value".toList
  · obtain ⟨_, value⟩ := a
    obtain rfl : _ = "value".toList := key
    exact Except.ok.inj h ▸ rfl
  · have same := c.add_other key c.value
    rw [if_neg key]
    rw [show { c with value := c.value } = c from rfl, h] at same
    have same : Except.ok c' = Except.ok { c' with value := c.value } := same
    have unchanged := congrArg CaseAttributes.value (Except.ok.inj same)
    exact unchanged

end Document

end DeclGen
