import DeclGen.Proofs.TypeNode.Normalized

/-!
# How high types are

A walk over a type calls itself for the types in it, so it goes as deep as the type is high. Not every node need
count: arrays of arrays may be taken for one level, as a loop can go through them.

* `TypeNode.depth` : the number of nodes on a longest path into a type, of those that count;
* `TypeNode.height` : all nodes count; `TypeNode.levels` : arrays of arrays do not;
* `depth_nullable_le`, `depth_union_le` : what the normalizing constructors add.
-/

namespace DeclGen.TypeNode

mutual

/-- How many nodes there are on a path into the type at most, of those that count. -/
def depth (counts : TypeNode → Bool) : TypeNode → Nat
  | primitive kind => (counts (primitive kind)).toNat
  | named name => (counts (named name)).toNat
  | array t => depth counts t + (counts (array t)).toNat
  | record es => depthOfEntries counts es + (counts (record es)).toNat
  | dictionary k v => max (depth counts k) (depth counts v) + (counts (dictionary k v)).toNat
  | orNull t => depth counts t + (counts (orNull t)).toNat
  | oneOf ts => depthOf counts ts + (counts (oneOf ts)).toNat

/-- The greatest depth of the entries. -/
def depthOfEntries (counts : TypeNode → Bool) : List (RecordEntry TypeNode) → Nat
  | [] => 0
  | ⟨_, t, _⟩ :: es => max (depth counts t) (depthOfEntries counts es)

/-- The greatest depth of the types. -/
def depthOf (counts : TypeNode → Bool) : List TypeNode → Nat
  | [] => 0
  | t :: ts => max (depth counts t) (depthOf counts ts)

end

/-- The number of nodes on a longest path into the type. -/
def height (t : TypeNode) : Nat := t.depth fun _ => true

/-- Is it an array of arrays? -/
def isArrayOfArrays : TypeNode → Bool
  | array (array _) => true
  | _ => false

/-- The height of the type if arrays inside one another are one level. -/
def levels (t : TypeNode) : Nat := t.depth fun node => !node.isArrayOfArrays

variable {counts : TypeNode → Bool} {t k v : TypeNode} {ts : List TypeNode} {n : Nat}

/-! ## Single nodes -/

theorem depth_primitive_le (counts : TypeNode → Bool) (kind : Primitive) : depth counts (primitive kind) ≤ 1 :=
  Bool.toNat_le _

theorem depth_named_le (counts : TypeNode → Bool) (name : Text) : depth counts (named name) ≤ 1 := Bool.toNat_le _

theorem depth_array_le (h : depth counts t ≤ n) : depth counts (array t) ≤ n + 1 :=
  Nat.add_le_add h (Bool.toNat_le _)

theorem depth_dictionary_le (hk : depth counts k ≤ n) (hv : depth counts v ≤ n) :
    depth counts (dictionary k v) ≤ n + 1 :=
  Nat.add_le_add (Nat.max_le.2 ⟨hk, hv⟩) (Bool.toNat_le _)

theorem depth_orNull_le (h : depth counts t ≤ n) : depth counts (orNull t) ≤ n + 1 :=
  Nat.add_le_add h (Bool.toNat_le _)

theorem depthOfEntries_le_iff {es : List (RecordEntry TypeNode)} :
    depthOfEntries counts es ≤ n ↔ ∀ e ∈ es, depth counts e.type ≤ n := by
  induction es with
  | nil => simp [depthOfEntries]
  | cons e es ih => rw [depthOfEntries, Nat.max_le, ih, List.forall_mem_cons]

theorem depth_record_le {es : List (RecordEntry TypeNode)} (h : ∀ e ∈ es, depth counts e.type ≤ n) :
    depth counts (record es) ≤ n + 1 :=
  Nat.add_le_add (depthOfEntries_le_iff.2 h) (Bool.toNat_le _)

theorem depthOf_le_iff : depthOf counts ts ≤ n ↔ ∀ t ∈ ts, depth counts t ≤ n := by
  induction ts with
  | nil => simp [depthOf]
  | cons t ts ih => rw [depthOf, Nat.max_le, ih, List.forall_mem_cons]

theorem depth_oneOf_le (h : ∀ t ∈ ts, depth counts t ≤ n) : depth counts (oneOf ts) ≤ n + 1 :=
  Nat.add_le_add (depthOf_le_iff.2 h) (Bool.toNat_le _)

theorem depth_le_of_mem (h : t ∈ ts) : depth counts t ≤ depth counts (oneOf ts) :=
  Nat.le_add_right_of_le (depthOf_le_iff.1 (Nat.le_refl _) t h)

/-! ## Normalizing constructors -/

theorem depth_nullable_le (h : depth counts t ≤ n) : depth counts t.nullable ≤ n + 1 := by
  rw [nullable_eq]
  split
  · exact Nat.le_succ_of_le h
  · exact depth_orNull_le h

/-- Alternatives lie inside of the type. -/
theorem depth_le_of_mem_alternatives (t : TypeNode) : ∀ s ∈ alternatives t, depth counts s ≤ depth counts t := by
  induction t using TypeNode.induction with
  | primitive kind =>
    intro s hs
    cases kind <;> simp_all [alternatives]
  | orNull t ih =>
    intro s hs
    exact Nat.le_add_right_of_le (ih s hs)
  | oneOf ts ih =>
    intro s hs
    obtain ⟨t, ht, hst⟩ := mem_alternativesOf_iff.1 hs
    exact Nat.le_trans (ih t ht s hst) (depth_le_of_mem ht)
  | _ => simp [alternatives]

theorem depth_ofAlternatives_le (h : ∀ t ∈ ts, depth counts t ≤ n) : depth counts (ofAlternatives ts) ≤ n + 1 := by
  match ts with
  | [] => exact Nat.le_add_left_of_le (depth_primitive_le _ _)
  | [t] => exact Nat.le_succ_of_le (h t List.mem_cons_self)
  | _ :: _ :: _ => exact depth_oneOf_le h

/-- A union is at most two levels above its members: their alternatives, and `null` outside. -/
theorem depth_union_le (h : ∀ t ∈ ts, depth counts t ≤ n) : depth counts (union ts) ≤ n + 2 := by
  have flat : ∀ s ∈ (alternativesOf ts).eraseDups, depth counts s ≤ n := by
    intro s hs
    obtain ⟨t, ht, hst⟩ := mem_alternativesOf_iff.1 (List.mem_eraseDups.1 hs)
    exact Nat.le_trans (depth_le_of_mem_alternatives t s hst) (h t ht)
  have united := depth_ofAlternatives_le flat
  rw [union]
  split
  · exact Nat.le_trans (depth_primitive_le counts .any) (Nat.le_add_left 1 (n + 1))
  · split
    · exact depth_nullable_le united
    · exact Nat.le_succ_of_le united

end DeclGen.TypeNode
