import DeclGen.Proofs.TypeNode.Normalized

/-!
# The keys in a type

* `TypeNode.keys` : the keys of all records in a type;
* `keys_nullable`, `exists_mem_keys_of_union` : the normalizing constructors add none.
-/

namespace DeclGen.TypeNode

/-- The keys of a record, and none of any other type. -/
def ownKeys : TypeNode → List Text
  | record es => es.map RecordEntry.key
  | _ => []

/-- The keys of all records in a type. -/
def keys (t : TypeNode) : List Text := t.nodes.flatMap ownKeys

variable {t : TypeNode} {ts : List TypeNode} {key : Text}

@[simp] theorem keys_primitive (kind : Primitive) : (primitive kind).keys = [] := rfl

@[simp] theorem keys_named (name : Text) : (named name).keys = [] := rfl

@[simp] theorem keys_array (t : TypeNode) : (array t).keys = t.keys := rfl

@[simp] theorem keys_orNull (t : TypeNode) : (orNull t).keys = t.keys := rfl

@[simp] theorem keys_dictionary (k v : TypeNode) : (dictionary k v).keys = k.keys ++ v.keys := by
  simp [keys, nodes, ownKeys]

theorem mem_keys_record_iff {es : List (RecordEntry TypeNode)} :
    key ∈ (record es).keys ↔ ∃ e ∈ es, key = e.key ∨ key ∈ e.type.keys := by
  simp only [keys, nodes, List.flatMap_cons, ownKeys, List.mem_append, List.mem_map, List.mem_flatMap,
    mem_nodesOfEntries_iff]
  grind

theorem mem_keys_oneOf_iff : key ∈ (oneOf ts).keys ↔ ∃ t ∈ ts, key ∈ t.keys := by
  simp only [keys, nodes, List.flatMap_cons, ownKeys, List.nil_append, List.mem_flatMap, mem_nodesOf_iff]
  grind

theorem keys_nullable (t : TypeNode) : t.nullable.keys = t.keys := by
  rw [nullable_eq]
  split <;> rfl

/-- The keys in an alternative are keys in the type. -/
theorem keys_subset_of_mem_alternatives (t : TypeNode) : ∀ s ∈ alternatives t, s.keys ⊆ t.keys := by
  induction t using TypeNode.induction with
  | primitive kind =>
    intro s hs
    cases kind <;> simp_all [alternatives]
  | orNull t ih => exact ih
  | oneOf ts ih =>
    intro s hs key hk
    obtain ⟨t, ht, hst⟩ := mem_alternativesOf_iff.1 hs
    exact mem_keys_oneOf_iff.2 ⟨t, ht, ih t ht s hst hk⟩
  | _ => simp [alternatives]

theorem mem_keys_ofAlternatives_iff : key ∈ (ofAlternatives ts).keys ↔ ∃ t ∈ ts, key ∈ t.keys := by
  match ts with
  | [] => simp [ofAlternatives]
  | [t] => simp [ofAlternatives]
  | s :: t :: ts => exact mem_keys_oneOf_iff

/-- The keys in a union are keys in its members. -/
theorem exists_mem_keys_of_union (h : key ∈ (union ts).keys) : ∃ t ∈ ts, key ∈ t.keys := by
  have flat (h : key ∈ (ofAlternatives (alternativesOf ts).eraseDups).keys) : ∃ t ∈ ts, key ∈ t.keys := by
    obtain ⟨s, hs, hk⟩ := mem_keys_ofAlternatives_iff.1 h
    obtain ⟨t, ht, hst⟩ := mem_alternativesOf_iff.1 (List.mem_eraseDups.1 hs)
    exact ⟨t, ht, keys_subset_of_mem_alternatives t s hst hk⟩
  rw [union] at h
  split at h
  · exact absurd h List.not_mem_nil
  · split at h
    · rw [keys_nullable] at h
      exact flat h
    · exact flat h

end DeclGen.TypeNode
