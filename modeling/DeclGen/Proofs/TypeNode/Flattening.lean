import DeclGen.Proofs.TypeNode.Normalized

/-!
# Unions as sets of alternatives

A union is made of the distinct alternatives of its members, and of whether `null` is one of them. Whatever keeps
these two keeps the union.

* `alternatives_union`, `offersNull_union` : the alternatives of a union, and whether it offers `null`;
* `union_congr` : a union is told by its alternatives and by `null`;
* `union_nested`, `union_repeated` : a union among the members may be opened, and members may be repeated;
* `admitsNull_union_iff`, `perm_alternatives_union` : what other orders of the members leave as it is.
-/

namespace DeclGen.TypeNode

variable {ts ts' : List TypeNode} {t : TypeNode}

/-! ## Members put together -/

theorem alternativesOf_append (ts ts' : List TypeNode) :
    alternativesOf (ts ++ ts') = alternativesOf ts ++ alternativesOf ts' := by
  induction ts with
  | nil => rfl
  | cons t ts ih => rw [List.cons_append, alternativesOf, alternativesOf, ih, List.append_assoc]

theorem alternativesOf_singleton (t : TypeNode) : alternativesOf [t] = alternatives t := by
  rw [alternativesOf, alternativesOf, List.append_nil]

theorem offersNullIn_append (ts ts' : List TypeNode) :
    offersNullIn (ts ++ ts') = (offersNullIn ts || offersNullIn ts') := by
  simp only [offersNullIn_eq, List.any_append]

theorem offersNullIn_singleton (t : TypeNode) : offersNullIn [t] = offersNull t := by
  rw [offersNullIn, offersNullIn, Bool.or_false]

/-! ## What a union is made of -/

theorem union_of_any (h : any ∈ alternativesOf ts) : union ts = any :=
  if_pos (List.mem_eraseDups.2 h)

theorem union_of_not_any (h : any ∉ alternativesOf ts) : union ts =
    if offersNullIn ts then nullable (ofAlternatives (alternativesOf ts).eraseDups)
    else ofAlternatives (alternativesOf ts).eraseDups :=
  if_neg fun hm => h (List.mem_eraseDups.1 hm)

/-- A union is told by its distinct alternatives and by `null`. -/
theorem union_congr (flat : (alternativesOf ts).eraseDups = (alternativesOf ts').eraseDups)
    (offers : offersNullIn ts = offersNullIn ts') : union ts = union ts' := by
  rw [union, union, flat, offers]

/-- All alternatives but `any` may be members of a union. -/
theorem isAlternative_of_mem_eraseDups (h : any ∉ alternativesOf ts) :
    ∀ s ∈ (alternativesOf ts).eraseDups, s.IsAlternative := by
  intro s hs
  have plain : ∀ t ∈ ts, t.All fun _ => True := fun _ _ _ _ => trivial
  exact isAlternative_of_mem_alternativesOf plain h s (List.mem_eraseDups.1 hs)

/-- `null` is no alternative of its own. -/
theorem alternatives_nullable (t : TypeNode) : alternatives t.nullable = alternatives t := by
  rw [nullable_eq]
  split
  · rfl
  · rw [alternatives]

theorem alternatives_ofAlternatives (h : ∀ t ∈ ts, t.IsAlternative) : alternatives (ofAlternatives ts) = ts := by
  match ts with
  | [] => rfl
  | [t] => exact (h t List.mem_cons_self).alternatives_eq
  | s :: t :: ts =>
    rw [ofAlternatives, alternatives]
    · exact (alternativesOf_eq_self h).1
    · simp
    · simp

theorem offersNull_ofAlternatives (h : ∀ t ∈ ts, t.IsAlternative) :
    offersNull (ofAlternatives ts) = ts.isEmpty := by
  match ts with
  | [] => rfl
  | [t] => exact (h t List.mem_cons_self).offersNull_eq
  | s :: t :: ts =>
    rw [ofAlternatives, offersNull]
    · exact (alternativesOf_eq_self h).2
    · simp
    · simp

theorem ofAlternatives_ne_any (h : ∀ t ∈ ts, t.IsAlternative) : ofAlternatives ts ≠ any := by
  intro same
  have flat := alternatives_ofAlternatives h
  rw [same] at flat
  have member : any ∈ ts := flat ▸ List.mem_singleton_self any
  exact (h any member).1.2.1 rfl

theorem offersNull_nullable (h : t ≠ any) : offersNull t.nullable = true := by
  unfold nullable
  split
  · rfl
  · exact absurd rfl h
  · rfl
  · rfl

/-- The alternatives of a union are those of its members, each once; `any` absorbs all others. -/
theorem alternatives_union (ts : List TypeNode) : alternatives (union ts) =
    if any ∈ alternativesOf ts then [any] else (alternativesOf ts).eraseDups := by
  split
  · next h =>
    rw [union_of_any h]
    rfl
  · next h =>
    have flat := alternatives_ofAlternatives (isAlternative_of_mem_eraseDups h)
    rw [union_of_not_any h]
    split
    · rw [alternatives_nullable, flat]
    · exact flat

/-- A union offers `null` if a member does, or if there are no alternatives. -/
theorem offersNull_union (h : any ∉ alternativesOf ts) :
    offersNull (union ts) = (offersNullIn ts || (alternativesOf ts).eraseDups.isEmpty) := by
  have kinds := isAlternative_of_mem_eraseDups h
  rw [union_of_not_any h]
  split
  · next offers => rw [offers, Bool.true_or, offersNull_nullable (ofAlternatives_ne_any kinds)]
  · next offers => rw [Bool.eq_false_iff.2 offers, Bool.false_or, offersNull_ofAlternatives kinds]

/-- Where no member has an alternative, one of them offers `null`. -/
theorem offersNullIn_of_isNormal (hne : ts ≠ []) (h : ∀ t ∈ ts, t.All IsNormal) (none : alternativesOf ts = []) :
    offersNullIn ts = true := by
  obtain ⟨t, more, rfl⟩ := List.exists_cons_of_ne_nil hne
  obtain ⟨told, some⟩ := admitsNull_of_isNormal (h t List.mem_cons_self)
  rw [alternativesOf, List.append_eq_nil_iff] at none
  have admits : t.admitsNull = true := by
    by_contra hn
    exact some (Bool.eq_false_iff.2 hn) none.1
  have offers : offersNull t = true := (told.1 admits).resolve_left (by simp [none.1])
  rw [offersNullIn, offers, Bool.true_or]

/-! ## Other members, the same union -/

/-- A union among the members may be replaced by its own members. -/
theorem union_nested {ys : List TypeNode} (hne : ys ≠ []) (h : ∀ t ∈ ys, t.All IsNormal) (xs zs : List TypeNode) :
    union (xs ++ [union ys] ++ zs) = union (xs ++ ys ++ zs) := by
  by_cases hany : any ∈ alternativesOf ys
  · -- `any` absorbs the inner union, and so the outer one.
    have inner : any ∈ alternativesOf (xs ++ [any] ++ zs) :=
      mem_alternativesOf_iff.2 ⟨any, by simp, List.mem_singleton_self any⟩
    have outer : any ∈ alternativesOf (xs ++ ys ++ zs) := by simp [alternativesOf_append, hany]
    rw [union_of_any hany, union_of_any inner, union_of_any outer]
  · refine union_congr ?_ ?_
    · simp only [alternativesOf_append, alternativesOf_singleton, alternatives_union, if_neg hany]
      exact eraseDups_append_eraseDups _ _ _
    · have offers : offersNull (union ys) = offersNullIn ys := by
        rw [offersNull_union hany]
        by_cases none : alternativesOf ys = []
        · rw [offersNullIn_of_isNormal hne h none, Bool.true_or]
        · have some : (alternativesOf ys).eraseDups.isEmpty = false := by
            obtain ⟨s, hs⟩ := List.exists_mem_of_ne_nil _ none
            exact List.isEmpty_eq_false_iff.2 (List.ne_nil_of_mem (List.mem_eraseDups.2 hs))
          rw [some, Bool.or_false]
      simp only [offersNullIn_append, offersNullIn_singleton, offers]

/-- Members that are there already change nothing. -/
theorem union_repeated {ys zs : List TypeNode} (h : zs ⊆ ys) : union (ys ++ zs) = union ys := by
  refine union_congr ?_ ?_
  · rw [alternativesOf_append]
    refine eraseDups_append_of_subset fun s hs => ?_
    obtain ⟨t, ht, hs⟩ := mem_alternativesOf_iff.1 hs
    exact mem_alternativesOf_iff.2 ⟨t, h ht, hs⟩
  · rw [offersNullIn_append, Bool.or_eq_left_iff_imp]
    intro offers
    rw [offersNullIn_eq, List.any_eq_true] at offers ⊢
    obtain ⟨t, ht, offers⟩ := offers
    exact ⟨t, h ht, offers⟩

/-! ## Other orders of the members -/

/-- A union admits `null` iff it has `any` or `null` for an alternative, or none at all. -/
theorem admitsNull_union_iff (ts : List TypeNode) : (union ts).admitsNull = true ↔
    any ∈ alternativesOf ts ∨ offersNullIn ts = true ∨ (alternativesOf ts).eraseDups = [] := by
  by_cases hany : any ∈ alternativesOf ts
  · rw [union_of_any hany]
    exact iff_of_true rfl (Or.inl hany)
  · rw [or_iff_right hany, union_of_not_any hany]
    split
    · next offers => exact iff_of_true (admitsNull_nullable _) (Or.inl offers)
    · next offers =>
      rw [or_iff_right offers]
      by_cases none : (alternativesOf ts).eraseDups = []
      · rw [none]
        exact iff_of_true rfl rfl
      · rw [admitsNull_ofAlternatives none (isAlternative_of_mem_eraseDups hany)]
        exact iff_of_false (by simp) none

section Order
variable (h : ts.Perm ts')
include h

theorem mem_alternativesOf_perm {s : TypeNode} : s ∈ alternativesOf ts ↔ s ∈ alternativesOf ts' := by
  simp only [mem_alternativesOf_iff, h.mem_iff]

theorem perm_eraseDups_alternativesOf :
    (alternativesOf ts).eraseDups.Perm (alternativesOf ts').eraseDups := by
  refine (List.perm_ext_iff_of_nodup (nodup_eraseDups _) (nodup_eraseDups _)).2 fun s => ?_
  rw [List.mem_eraseDups, List.mem_eraseDups, mem_alternativesOf_perm h]

/-- In another order, the members have the same alternatives. -/
theorem perm_alternatives_union : (alternatives (union ts)).Perm (alternatives (union ts')) := by
  rw [alternatives_union, alternatives_union]
  by_cases hany : any ∈ alternativesOf ts
  · rw [if_pos hany, if_pos ((mem_alternativesOf_perm h).1 hany)]
  · rw [if_neg hany, if_neg fun hm => hany ((mem_alternativesOf_perm h).2 hm)]
    exact perm_eraseDups_alternativesOf h

theorem admitsNull_union_perm : (union ts).admitsNull = (union ts').admitsNull := by
  have offers : offersNullIn ts = offersNullIn ts' := by
    rw [offersNullIn_eq, offersNullIn_eq]
    exact h.any_eq
  have none : (alternativesOf ts).eraseDups = [] ↔ (alternativesOf ts').eraseDups = [] := by
    rw [← List.length_eq_zero_iff, ← List.length_eq_zero_iff, (perm_eraseDups_alternativesOf h).length_eq]
  rw [Bool.eq_iff_iff, admitsNull_union_iff, admitsNull_union_iff, mem_alternativesOf_perm h, offers, none]

end Order

/-- **Unions are flat.** The alternatives of a union are those of its members, each once, unless `any` absorbs them.
A union of normalized types among the members of another one may be replaced by its own members; members that are
there already change nothing; and another order of the members changes neither whether `null` is admitted nor which
alternatives there are. -/
theorem union_flattens :
    (∀ ts : List TypeNode, alternatives (union ts) =
      if any ∈ alternativesOf ts then [any] else (alternativesOf ts).eraseDups) ∧
    (∀ xs ys zs : List TypeNode, ys ≠ [] → (∀ t ∈ ys, t.All IsNormal) →
      union (xs ++ [union ys] ++ zs) = union (xs ++ ys ++ zs)) ∧
    (∀ ys zs : List TypeNode, zs ⊆ ys → union (ys ++ zs) = union ys) ∧
    ∀ ys ys' : List TypeNode, ys.Perm ys' → (union ys).admitsNull = (union ys').admitsNull ∧
      (alternatives (union ys)).Perm (alternatives (union ys')) :=
  ⟨alternatives_union, fun xs _ zs hne h => union_nested hne h xs zs, fun _ _ => union_repeated,
    fun _ _ h => ⟨admitsNull_union_perm h, perm_alternatives_union h⟩⟩

/-- An inner union that is `null` alone adds `null` to the outer one. -/
theorem union_flattens_null :
    (∀ t ∈ [primitive .null, primitive .null], t.All IsNormal) ∧
      union [primitive .null, primitive .null] = primitive .null ∧
      union ([named ['A']] ++ [union [primitive .null, primitive .null]] ++ [named ['B']]) =
        orNull (oneOf [named ['A'], named ['B']]) := by
  have normal : ∀ t ∈ [primitive .null, primitive .null], t.All IsNormal := by decide
  refine ⟨normal, by decide, ?_⟩
  rw [union_flattens.2.1 _ _ _ (by simp) normal]
  decide

end DeclGen.TypeNode
