import DeclGen.Primitive

/-!
# Types of fields

* `TypeNode` : the type that a type expression denotes; `RecordEntry` an entry of a shaped record;
* `TypeNode.nullable` and `TypeNode.union` : the constructors that keep types normalized;
* `TypeNode.admitsNull` : is `null` a value without a further wrapper?
* `TypeNode.references` : the entity references in the tree, from left to right;
* equality of types is decidable.
-/

namespace DeclGen

/-- An entry of a shaped record. -/
structure RecordEntry (τ : Type) where
  key : Text
  type : τ
  /-- May the key be absent? -/
  optional : Bool
  deriving Repr

/-- A type: what a type expression denotes. -/
inductive TypeNode where
  | primitive (kind : Primitive)
  /-- A reference to another entity, short or qualified. -/
  | named (name : Text)
  | array (item : TypeNode)
  | record (entries : List (RecordEntry TypeNode))
  | dictionary (key value : TypeNode)
  /-- The type `inner` or `null`. -/
  | orNull (inner : TypeNode)
  /-- Any one of the alternatives. -/
  | oneOf (members : List TypeNode)

namespace TypeNode

/-- The type of every value, and of every type expression that cannot be read. -/
def any : TypeNode := primitive .any

instance : Inhabited TypeNode := ⟨any⟩

/-! ## Equality -/

mutual

/-- Are two types the same? -/
def same : TypeNode → TypeNode → Bool
  | primitive p, primitive q => p = q
  | named a, named b => a = b
  | array s, array t => same s t
  | record es, record fs => sameEntries es fs
  | dictionary k v, dictionary l w => same k l && same v w
  | orNull s, orNull t => same s t
  | oneOf ss, oneOf ts => sameAll ss ts
  | _, _ => false

/-- Are two lists of entries the same? -/
def sameEntries : List (RecordEntry TypeNode) → List (RecordEntry TypeNode) → Bool
  | [], [] => true
  | ⟨k, s, o⟩ :: es, ⟨l, t, p⟩ :: fs => k = l && same s t && o = p && sameEntries es fs
  | _, _ => false

/-- Are two lists of types the same? -/
def sameAll : List TypeNode → List TypeNode → Bool
  | [], [] => true
  | s :: ss, t :: ts => same s t && sameAll ss ts
  | _, _ => false

end

mutual

theorem eq_of_same : ∀ s t : TypeNode, same s t = true → s = t
  | primitive _, t, h => by cases t <;> simp_all [same]
  | named _, t, h => by cases t <;> simp_all [same]
  | array s, t, h => by
    cases t <;> simp only [same, Bool.false_eq_true] at h
    rw [eq_of_same s _ h]
  | record es, t, h => by
    cases t <;> simp only [same, Bool.false_eq_true] at h
    rw [eq_of_sameEntries es _ h]
  | dictionary k v, t, h => by
    cases t <;> simp only [same, Bool.false_eq_true, Bool.and_eq_true] at h
    rw [eq_of_same k _ h.1, eq_of_same v _ h.2]
  | orNull s, t, h => by
    cases t <;> simp only [same, Bool.false_eq_true] at h
    rw [eq_of_same s _ h]
  | oneOf ss, t, h => by
    cases t <;> simp only [same, Bool.false_eq_true] at h
    rw [eq_of_sameAll ss _ h]

theorem eq_of_sameEntries : ∀ es fs, sameEntries es fs = true → es = fs
  | [], fs, h => by cases fs <;> simp_all [sameEntries]
  | ⟨k, s, o⟩ :: es, fs, h => by
    cases fs with
    | nil => simp [sameEntries] at h
    | cons f fs =>
      simp only [sameEntries, Bool.and_eq_true, decide_eq_true_eq] at h
      obtain ⟨⟨⟨hk, hs⟩, ho⟩, hes⟩ := h
      rw [hk, ho, eq_of_same s _ hs, eq_of_sameEntries es fs hes]

theorem eq_of_sameAll : ∀ ss ts, sameAll ss ts = true → ss = ts
  | [], ts, h => by cases ts <;> simp_all [sameAll]
  | s :: ss, ts, h => by
    cases ts with
    | nil => simp [sameAll] at h
    | cons t ts =>
      simp only [sameAll, Bool.and_eq_true] at h
      rw [eq_of_same s t h.1, eq_of_sameAll ss ts h.2]

end

mutual

theorem same_self : ∀ t : TypeNode, same t t = true
  | primitive _ => by simp [same]
  | named _ => by simp [same]
  | array s => by simp [same, same_self s]
  | record es => by simp [same, sameEntries_self es]
  | dictionary k v => by simp [same, same_self k, same_self v]
  | orNull s => by simp [same, same_self s]
  | oneOf ss => by simp [same, sameAll_self ss]

theorem sameEntries_self : ∀ es, sameEntries es es = true
  | [] => by simp [sameEntries]
  | ⟨k, s, o⟩ :: es => by simp [sameEntries, same_self s, sameEntries_self es]

theorem sameAll_self : ∀ ts, sameAll ts ts = true
  | [] => by simp [sameAll]
  | t :: ts => by simp [sameAll, same_self t, sameAll_self ts]

end

theorem same_iff (s t : TypeNode) : same s t = true ↔ s = t :=
  ⟨eq_of_same s t, fun h => h ▸ same_self s⟩

instance : DecidableEq TypeNode := fun s t => decidable_of_iff _ (same_iff s t)

/-! ## Normalizing constructors -/

/-- The type `t` or `null`: a type that already admits it stays as it is. -/
def nullable : TypeNode → TypeNode
  | orNull t => orNull t
  | primitive .any => primitive .any
  | primitive .null => primitive .null
  | t => orNull t

/-- Is `null` a value of the type, seen at its root? -/
def admitsNull : TypeNode → Bool
  | orNull _ => true
  | primitive .null => true
  | primitive .any => true
  | _ => false

mutual

/-- The alternatives of a type other than `null`, nested unions opened. -/
def alternatives : TypeNode → List TypeNode
  | primitive .null => []
  | orNull t => alternatives t
  | oneOf ts => alternativesOf ts
  | t => [t]

/-- The alternatives of all members, in order. -/
def alternativesOf : List TypeNode → List TypeNode
  | [] => []
  | t :: ts => alternatives t ++ alternativesOf ts

end

mutual

/-- Is `null` one of the alternatives of a type? -/
def offersNull : TypeNode → Bool
  | primitive .null => true
  | orNull _ => true
  | oneOf ts => offersNullIn ts
  | _ => false

/-- Is `null` one of the alternatives of a member? -/
def offersNullIn : List TypeNode → Bool
  | [] => false
  | t :: ts => offersNull t || offersNullIn ts

end

/-- One type for distinct alternatives: `null` for none, and a union for two or more. -/
def ofAlternatives : List TypeNode → TypeNode
  | [] => primitive .null
  | [t] => t
  | ts => oneOf ts

/-- The union of the members: nested unions are opened, repeated alternatives dropped, `null` is
moved to the outside, and `any` absorbs all others. -/
def union (members : List TypeNode) : TypeNode :=
  let flat := (alternativesOf members).eraseDups
  if any ∈ flat then any
  else if offersNullIn members then nullable (ofAlternatives flat)
  else ofAlternatives flat

/-! ## References -/

mutual

/-- The names of other entities in the type, from left to right. -/
def references : TypeNode → List Text
  | primitive _ => []
  | named name => [name]
  | array t => references t
  | record es => referencesOfEntries es
  | dictionary k v => references k ++ references v
  | orNull t => references t
  | oneOf ts => referencesOf ts

/-- The names in the types of the entries. -/
def referencesOfEntries : List (RecordEntry TypeNode) → List Text
  | [] => []
  | ⟨_, t, _⟩ :: es => references t ++ referencesOfEntries es

/-- The names in a list of types. -/
def referencesOf : List TypeNode → List Text
  | [] => []
  | t :: ts => references t ++ referencesOf ts

end

end TypeNode

end DeclGen
