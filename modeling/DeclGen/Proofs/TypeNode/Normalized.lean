import DeclGen.Proofs.Distinct
import DeclGen.Proofs.Name
import DeclGen.TypeExpr.Words

/-!
# Normalized types

* `TypeNode.nodes` : a type and all types in it; `TypeNode.All P` : `P` holds of each of them;
* `TypeNode.IsNormal` : what a node of a normalized type is like;
* `TypeNode.Normalizing P` : `P` holds of whatever a normal node may be. It is an invariant of the
  constructors then (`all_nullable`, `all_union`);
* `nullable_of_isNonNull`, `union_of_isNormal` : the constructors leave normal types as they are;
* `admitsNull_union` : a union admits `null` iff one of its members does;
* `mem_references_iff` : the references of a type are the names among its nodes.
-/

namespace DeclGen.TypeNode

/-! ## Induction -/

/-- What each kind of type inherits from the types in it holds of all types. -/
theorem induction {Q : TypeNode → Prop} (primitive : ∀ kind, Q (primitive kind))
    (named : ∀ name, Q (named name)) (array : ∀ t, Q t → Q (array t))
    (record : ∀ es : List (RecordEntry TypeNode), (∀ e ∈ es, Q e.type) → Q (record es))
    (dictionary : ∀ k v, Q k → Q v → Q (dictionary k v)) (orNull : ∀ t, Q t → Q (orNull t))
    (oneOf : ∀ ts : List TypeNode, (∀ t ∈ ts, Q t) → Q (oneOf ts)) (t : TypeNode) : Q t :=
  @TypeNode.rec Q (fun es => ∀ e ∈ es, Q e.type) (fun ts => ∀ t ∈ ts, Q t) (fun e => Q e.type)
    primitive named array record dictionary orNull oneOf (by simp)
    (fun _ _ he hes => List.forall_mem_cons.2 ⟨he, hes⟩) (by simp)
    (fun _ _ ht hts => List.forall_mem_cons.2 ⟨ht, hts⟩) (fun _ _ _ ht => ht) t

/-! ## Nodes -/

mutual

/-- The type and all types in it. -/
def nodes : TypeNode → List TypeNode
  | primitive kind => [primitive kind]
  | named name => [named name]
  | array t => array t :: nodes t
  | record es => record es :: nodesOfEntries es
  | dictionary k v => dictionary k v :: (nodes k ++ nodes v)
  | orNull t => orNull t :: nodes t
  | oneOf ts => oneOf ts :: nodesOf ts

/-- The types in the entries. -/
def nodesOfEntries : List (RecordEntry TypeNode) → List TypeNode
  | [] => []
  | ⟨_, t, _⟩ :: es => nodes t ++ nodesOfEntries es

/-- The types in a list of types. -/
def nodesOf : List TypeNode → List TypeNode
  | [] => []
  | t :: ts => nodes t ++ nodesOf ts

end

/-- `P` holds of the type and of all types in it. -/
def All (P : TypeNode → Prop) (t : TypeNode) : Prop := ∀ node ∈ t.nodes, P node

/-- The type is neither `null` nor `any`, nor made of another one and `null`. -/
def IsNonNull (t : TypeNode) : Prop :=
  t ≠ primitive .null ∧ t ≠ primitive .any ∧ ∀ s, t ≠ orNull s

/-- The type may be a member of a union. -/
def IsAlternative (t : TypeNode) : Prop := t.IsNonNull ∧ ∀ ts, t ≠ oneOf ts

/-- What a node of a normalized type is like. -/
def IsNormal : TypeNode → Prop
  | orNull t => t.IsNonNull
  | oneOf ts => 2 ≤ ts.length ∧ ts.Nodup ∧ ∀ t ∈ ts, t.IsAlternative
  | record es => (es.map RecordEntry.key).Nodup
  | _ => True

theorem mem_nodesOfEntries_iff {es : List (RecordEntry TypeNode)} {node : TypeNode} :
    node ∈ nodesOfEntries es ↔ ∃ e ∈ es, node ∈ e.type.nodes := by
  induction es with
  | nil => simp [nodesOfEntries]
  | cons e es ih => simp [nodesOfEntries, ih]

theorem mem_nodesOf_iff {ts : List TypeNode} {node : TypeNode} :
    node ∈ nodesOf ts ↔ ∃ t ∈ ts, node ∈ t.nodes := by
  induction ts with
  | nil => simp [nodesOf]
  | cons t ts ih => simp [nodesOf, ih]

section All
variable {P : TypeNode → Prop}

theorem all_primitive_iff {kind : Primitive} : (primitive kind).All P ↔ P (primitive kind) := List.forall_mem_singleton

theorem all_named_iff {name : Text} : (named name).All P ↔ P (named name) := List.forall_mem_singleton

theorem all_array_iff {t : TypeNode} : (array t).All P ↔ P (array t) ∧ t.All P := List.forall_mem_cons

theorem all_dictionary_iff {k v : TypeNode} :
    (dictionary k v).All P ↔ P (dictionary k v) ∧ k.All P ∧ v.All P :=
  List.forall_mem_cons.trans (and_congr_right' List.forall_mem_append)

theorem all_orNull_iff {t : TypeNode} : (orNull t).All P ↔ P (orNull t) ∧ t.All P := List.forall_mem_cons

theorem all_record_iff {es : List (RecordEntry TypeNode)} :
    (record es).All P ↔ P (record es) ∧ ∀ e ∈ es, e.type.All P := by
  refine List.forall_mem_cons.trans (and_congr_right' ⟨fun h e he node hn => ?_, fun h node hn => ?_⟩)
  · exact h node (mem_nodesOfEntries_iff.2 ⟨e, he, hn⟩)
  · obtain ⟨e, he, hn⟩ := mem_nodesOfEntries_iff.1 hn
    exact h e he node hn

theorem all_oneOf_iff {ts : List TypeNode} :
    (oneOf ts).All P ↔ P (oneOf ts) ∧ ∀ t ∈ ts, t.All P := by
  refine List.forall_mem_cons.trans (and_congr_right' ⟨fun h t ht node hn => ?_, fun h node hn => ?_⟩)
  · exact h node (mem_nodesOf_iff.2 ⟨t, ht, hn⟩)
  · obtain ⟨t, ht, hn⟩ := mem_nodesOf_iff.1 hn
    exact h t ht node hn

end All

/-! ## References -/

mutual

theorem mem_references_iff {name : Text} : ∀ t : TypeNode, name ∈ references t ↔ named name ∈ t.nodes
  | primitive _ => by simp [references, nodes]
  | named _ => by simp [references, nodes]
  | array t => by simp [references, nodes, mem_references_iff t]
  | record es => by simp [references, nodes, mem_referencesOfEntries_iff es]
  | dictionary k v => by simp [references, nodes, mem_references_iff k, mem_references_iff v]
  | orNull t => by simp [references, nodes, mem_references_iff t]
  | oneOf ts => by simp [references, nodes, mem_referencesOf_iff ts]

theorem mem_referencesOfEntries_iff {name : Text} :
    ∀ es, name ∈ referencesOfEntries es ↔ named name ∈ nodesOfEntries es
  | [] => by simp [referencesOfEntries, nodesOfEntries]
  | ⟨_, t, _⟩ :: es => by
    simp [referencesOfEntries, nodesOfEntries, mem_references_iff t, mem_referencesOfEntries_iff es]

theorem mem_referencesOf_iff {name : Text} : ∀ ts, name ∈ referencesOf ts ↔ named name ∈ nodesOf ts
  | [] => by simp [referencesOf, nodesOf]
  | t :: ts => by simp [referencesOf, nodesOf, mem_references_iff t, mem_referencesOf_iff ts]

end

/-! ## Normalizing constructors -/

/-- `P` holds of whatever a node of a normalized type may be, if the names in it are references that
are not builtin, of the characters of type names. -/
structure Normalizing (P : TypeNode → Prop) : Prop where
  primitive (kind : Primitive) : P (primitive kind)
  named {name : Text} : Name.IsReference name → isBuiltin name = false →
    (∀ c ∈ name, TypeExpr.inName c = true) → P (named name)
  array (t : TypeNode) : P (array t)
  record {es : List (RecordEntry TypeNode)} : (record es).IsNormal → P (record es)
  dictionary (k v : TypeNode) : P (dictionary k v)
  orNull {t : TypeNode} : (orNull t).IsNormal → P (orNull t)
  oneOf {ts : List TypeNode} : (oneOf ts).IsNormal → P (oneOf ts)

theorem normalizing_isNormal : Normalizing IsNormal where
  primitive _ := trivial
  named _ _ _ := trivial
  array _ := trivial
  record h := h
  dictionary _ _ := trivial
  orNull h := h
  oneOf h := h

/-- The names in the type are references that are not builtin. -/
theorem normalizing_named : Normalizing fun node =>
    ∀ name, node = named name → Name.IsReference name ∧ isBuiltin name = false where
  primitive _ _ h := absurd h (by simp)
  named := by
    rintro name h hb - _ ⟨⟩
    exact ⟨h, hb⟩
  array _ _ h := absurd h (by simp)
  record _ _ h := absurd h (by simp)
  dictionary _ _ _ h := absurd h (by simp)
  orNull _ _ h := absurd h (by simp)
  oneOf _ _ h := absurd h (by simp)

section Constructors
variable {P : TypeNode → Prop}

theorem admitsNull_eq_false_iff {t : TypeNode} : t.admitsNull = false ↔ t.IsNonNull := by
  unfold admitsNull IsNonNull
  split <;> simp_all

instance (t : TypeNode) : Decidable t.IsNonNull := decidable_of_iff _ admitsNull_eq_false_iff

instance : DecidablePred IsAlternative
  | oneOf ts => isFalse fun h => h.2 ts rfl
  | primitive kind => decidable_of_iff (primitive kind).IsNonNull ⟨fun h => ⟨h, by simp⟩, And.left⟩
  | named name => decidable_of_iff (named name).IsNonNull ⟨fun h => ⟨h, by simp⟩, And.left⟩
  | array t => decidable_of_iff (array t).IsNonNull ⟨fun h => ⟨h, by simp⟩, And.left⟩
  | record es => decidable_of_iff (record es).IsNonNull ⟨fun h => ⟨h, by simp⟩, And.left⟩
  | dictionary k v => decidable_of_iff (dictionary k v).IsNonNull ⟨fun h => ⟨h, by simp⟩, And.left⟩
  | orNull t => isFalse fun h => h.1.2.2 t rfl

instance : DecidablePred IsNormal
  | orNull t => inferInstanceAs (Decidable t.IsNonNull)
  | oneOf ts => inferInstanceAs (Decidable (2 ≤ ts.length ∧ ts.Nodup ∧ ∀ t ∈ ts, t.IsAlternative))
  | record es => inferInstanceAs (Decidable (es.map RecordEntry.key).Nodup)
  | primitive _ => isTrue trivial
  | named _ => isTrue trivial
  | array _ => isTrue trivial
  | dictionary _ _ => isTrue trivial

instance {P : TypeNode → Prop} [DecidablePred P] (t : TypeNode) : Decidable (t.All P) :=
  inferInstanceAs (Decidable (∀ node ∈ t.nodes, P node))

theorem nullable_eq (t : TypeNode) : t.nullable = if t.admitsNull then t else orNull t := by
  unfold nullable admitsNull
  split <;> simp_all

theorem admitsNull_nullable (t : TypeNode) : t.nullable.admitsNull = true := by
  rw [nullable_eq]
  split
  · assumption
  · rfl

/-- Adding `null` keeps the invariant. -/
theorem all_nullable (hP : Normalizing P) {t : TypeNode} (h : t.All P) : t.nullable.All P := by
  rw [nullable_eq]
  split
  · exact h
  · next hn =>
    have hnormal : (orNull t).IsNormal := admitsNull_eq_false_iff.1 (Bool.eq_false_iff.2 hn)
    exact all_orNull_iff.2 ⟨hP.orNull hnormal, h⟩

mutual

theorem all_alternatives : ∀ {t : TypeNode}, t.All P →
    ∀ s ∈ alternatives t, s.All P ∧ (s = any ∨ s.IsAlternative)
  | primitive kind, h, s, hs => by
    cases kind <;> simp_all [alternatives, any, IsAlternative, IsNonNull]
  | named _, h, s, hs => by simp_all [alternatives, IsAlternative, IsNonNull]
  | array _, h, s, hs => by simp_all [alternatives, IsAlternative, IsNonNull]
  | record _, h, s, hs => by simp_all [alternatives, IsAlternative, IsNonNull]
  | dictionary _ _, h, s, hs => by simp_all [alternatives, IsAlternative, IsNonNull]
  | orNull t, h, s, hs => by
    rw [alternatives] at hs
    exact all_alternatives (all_orNull_iff.1 h).2 s hs
  | oneOf ts, h, s, hs => by
    rw [alternatives] at hs
    exact all_alternativesOf (all_oneOf_iff.1 h).2 s hs

theorem all_alternativesOf : ∀ {ts : List TypeNode}, (∀ t ∈ ts, t.All P) →
    ∀ s ∈ alternativesOf ts, s.All P ∧ (s = any ∨ s.IsAlternative)
  | [], _, s, hs => by simp [alternativesOf] at hs
  | t :: ts, h, s, hs => by
    rw [List.forall_mem_cons] at h
    rw [alternativesOf, List.mem_append] at hs
    rcases hs with hs | hs
    · exact all_alternatives h.1 s hs
    · exact all_alternativesOf h.2 s hs

end

theorem isAlternative_of_mem_alternativesOf {ts : List TypeNode} (h : ∀ t ∈ ts, t.All P)
    (hany : any ∉ alternativesOf ts) : ∀ s ∈ alternativesOf ts, s.IsAlternative := by
  intro s hs
  rcases (all_alternativesOf h s hs).2 with rfl | ha
  · exact absurd hs hany
  · exact ha

theorem all_ofAlternatives (hP : Normalizing P) {ts : List TypeNode} (hn : ts.Nodup)
    (ha : ∀ t ∈ ts, t.IsAlternative) (h : ∀ t ∈ ts, t.All P) : (ofAlternatives ts).All P := by
  match ts with
  | [] => exact all_primitive_iff.2 (hP.primitive _)
  | [t] => exact h t (by simp)
  | s :: t :: ts =>
    rw [ofAlternatives]
    · exact all_oneOf_iff.2 ⟨hP.oneOf ⟨by simp, hn, ha⟩, h⟩
    · simp
    · simp

/-- A union keeps the invariant, whatever its members are. -/
theorem all_union (hP : Normalizing P) {ts : List TypeNode} (h : ∀ t ∈ ts, t.All P) :
    (union ts).All P := by
  rw [union]
  simp only [List.mem_eraseDups]
  split
  · exact all_primitive_iff.2 (hP.primitive _)
  · next hany =>
    have ha : ∀ s ∈ (alternativesOf ts).eraseDups, s.IsAlternative := fun s hs =>
      isAlternative_of_mem_alternativesOf h hany s (List.mem_eraseDups.1 hs)
    have hs : ∀ s ∈ (alternativesOf ts).eraseDups, s.All P := fun s hs =>
      (all_alternativesOf h s (List.mem_eraseDups.1 hs)).1
    have all := all_ofAlternatives hP (nodup_eraseDups _) ha hs
    split
    · exact all_nullable hP all
    · exact all

end Constructors

/-! ## Types that are normal already -/

theorem nullable_of_isNonNull {t : TypeNode} (h : t.IsNonNull) : t.nullable = orNull t := by
  rw [nullable_eq, admitsNull_eq_false_iff.2 h]
  rfl

theorem IsAlternative.alternatives_eq {t : TypeNode} (h : t.IsAlternative) : alternatives t = [t] := by
  obtain ⟨⟨hnull, -, hor⟩, hof⟩ := h
  unfold alternatives
  split
  · exact absurd rfl hnull
  · next s => exact absurd rfl (hor s)
  · next ts => exact absurd rfl (hof ts)
  · rfl

theorem IsAlternative.offersNull_eq {t : TypeNode} (h : t.IsAlternative) : offersNull t = false := by
  obtain ⟨⟨hnull, -, hor⟩, hof⟩ := h
  unfold offersNull
  split
  · exact absurd rfl hnull
  · next s => exact absurd rfl (hor s)
  · next ts => exact absurd rfl (hof ts)
  · rfl

/-- Alternatives have no others in them. -/
theorem alternativesOf_eq_self {ts : List TypeNode} (h : ∀ t ∈ ts, t.IsAlternative) :
    alternativesOf ts = ts ∧ offersNullIn ts = false := by
  induction ts with
  | nil => exact ⟨rfl, rfl⟩
  | cons t ts ih =>
    obtain ⟨ha, has⟩ := List.forall_mem_cons.1 h
    obtain ⟨hflat, hoffers⟩ := ih has
    constructor
    · rw [alternativesOf, ha.alternatives_eq, hflat, List.singleton_append]
    · rw [offersNullIn, ha.offersNull_eq, hoffers, Bool.or_false]

/-- The members of a normal union are its alternatives. -/
theorem union_of_isNormal {ts : List TypeNode} (h : (oneOf ts).IsNormal) : union ts = oneOf ts := by
  obtain ⟨hlen, hnodup, halt⟩ := h
  obtain ⟨hflat, hoffers⟩ := alternativesOf_eq_self halt
  have hany : any ∉ ts := fun hm => (halt any hm).1.2.1 rfl
  simp only [union, hflat, eraseDups_of_nodup hnodup, if_neg hany, hoffers, Bool.false_eq_true,
    if_false]
  match ts, hlen with
  | _ :: _ :: _, _ => rfl

/-! ## `null` in unions -/

theorem mem_alternativesOf_iff {s : TypeNode} {ts : List TypeNode} :
    s ∈ alternativesOf ts ↔ ∃ t ∈ ts, s ∈ alternatives t := by
  induction ts with
  | nil => simp [alternativesOf]
  | cons t ts ih => simp [alternativesOf, ih]

theorem offersNullIn_eq (ts : List TypeNode) : offersNullIn ts = ts.any offersNull := by
  induction ts with
  | nil => rfl
  | cons t ts ih => rw [offersNullIn, ih, List.any_cons]

/-- A normal type admits `null` iff its alternatives tell so, and otherwise it has alternatives. -/
theorem admitsNull_of_isNormal {t : TypeNode} (h : t.All IsNormal) :
    (t.admitsNull = true ↔ any ∈ alternatives t ∨ offersNull t = true) ∧
      (t.admitsNull = false → alternatives t ≠ []) := by
  have single : t.IsAlternative → (t.admitsNull = true ↔ any ∈ alternatives t ∨ offersNull t = true) ∧
      (t.admitsNull = false → alternatives t ≠ []) := by
    intro ha
    have hany : any ≠ t := Ne.symm ha.1.2.1
    rw [ha.alternatives_eq, ha.offersNull_eq, admitsNull_eq_false_iff.2 ha.1, List.mem_singleton]
    exact ⟨by simpa using hany, fun _ => List.cons_ne_nil _ _⟩
  cases t with
  | primitive kind => cases kind <;> simp [admitsNull, alternatives, offersNull, any]
  | orNull t => simp [admitsNull, offersNull]
  | oneOf ts =>
    obtain ⟨hlen, -, halt⟩ := (all_oneOf_iff.1 h).1
    obtain ⟨hflat, hoffers⟩ := alternativesOf_eq_self halt
    rw [alternatives, hflat, offersNull, hoffers]
    refine ⟨iff_of_false (by simp [admitsNull]) ?_, fun _ hnil => ?_⟩
    · rintro (hm | hm)
      · exact (halt _ hm).1.2.1 rfl
      · exact absurd hm (by simp)
    · rw [hnil] at hlen
      exact absurd hlen (by simp)
  | named name => exact single (by simp [IsAlternative, IsNonNull])
  | array t => exact single (by simp [IsAlternative, IsNonNull])
  | record es => exact single (by simp [IsAlternative, IsNonNull])
  | dictionary k v => exact single (by simp [IsAlternative, IsNonNull])

theorem admitsNull_ofAlternatives {ts : List TypeNode} (hne : ts ≠ []) (h : ∀ t ∈ ts, t.IsAlternative) :
    (ofAlternatives ts).admitsNull = false := by
  match ts with
  | [] => exact absurd rfl hne
  | [t] => exact admitsNull_eq_false_iff.2 (h t List.mem_cons_self).1
  | s :: t :: ts => rfl

/-- A union of normal types admits `null` iff one of its members does. -/
theorem admitsNull_union {ts : List TypeNode} (hne : ts ≠ []) (h : ∀ t ∈ ts, t.All IsNormal) :
    (union ts).admitsNull = ts.any admitsNull := by
  rw [Bool.eq_iff_iff, List.any_eq_true]
  have told : (∃ t ∈ ts, t.admitsNull = true) ↔ any ∈ alternativesOf ts ∨ offersNullIn ts = true := by
    rw [mem_alternativesOf_iff, offersNullIn_eq, List.any_eq_true, ← exists_or]
    refine exists_congr fun t => ?_
    rw [← and_or_left]
    exact and_congr_right fun ht => (admitsNull_of_isNormal (h t ht)).1
  have some : (∀ t ∈ ts, t.admitsNull = false) → alternativesOf ts ≠ [] := by
    intro none
    obtain ⟨t, ts, rfl⟩ := List.exists_cons_of_ne_nil hne
    rw [alternativesOf]
    exact List.append_ne_nil_of_left_ne_nil
      ((admitsNull_of_isNormal (h t List.mem_cons_self)).2 (none t List.mem_cons_self)) _
  rw [told, union]
  simp only [List.mem_eraseDups]
  split
  · next hany => exact iff_of_true rfl (Or.inl hany)
  · next hany =>
    rw [or_iff_right hany]
    split
    · next hoffers => exact iff_of_true (admitsNull_nullable _) hoffers
    · next hoffers =>
      have kinds : ∀ s ∈ (alternativesOf ts).eraseDups, s.IsAlternative := fun s hs =>
        isAlternative_of_mem_alternativesOf h hany s (List.mem_eraseDups.1 hs)
      have flat : (alternativesOf ts).eraseDups ≠ [] := by
        obtain ⟨s, hs⟩ := List.exists_mem_of_ne_nil _ <| some fun t ht => Bool.eq_false_iff.2 fun hnull =>
          not_or.2 ⟨hany, hoffers⟩ (told.1 ⟨t, ht, hnull⟩)
        exact List.ne_nil_of_mem (List.mem_eraseDups.2 hs)
      exact iff_of_false (by simp [admitsNull_ofAlternatives flat kinds]) hoffers

end DeclGen.TypeNode
