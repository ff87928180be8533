import DeclGen.Proofs.Distinct
import DeclGen.Proofs.TypeExpr.Grammar

/-!
# Declared keys

* `again_declare` : the flag of `declare` tells whether the key was there;
* `keys_declare`, `declare_of_notMem` : a new key is added at the end, and all others keep their
  places;
* `Declares`, `declares_declareAll` : each key is declared once, at its first place and as it was
  written last;
* `entries_succ` : one round of reading entries.
-/

namespace DeclGen.TypeExpr

/-- The keys of entries. -/
def keysOf (entries : List (RecordEntry TypeNode)) : List Text := entries.map RecordEntry.key

section Keys
variable (entry : RecordEntry TypeNode) (entries : List (RecordEntry TypeNode))

theorem again_declare : (declare entry entries).2 = decide (entry.key ∈ keysOf entries) := by
  induction entries with
  | nil => rfl
  | cons e es ih =>
    by_cases h : e.key = entry.key
    · simp [declare, keysOf, h]
    · simp only [declare, if_neg h, ih, keysOf, List.map_cons, List.mem_cons]
      exact decide_eq_decide.2 (by simp [Ne.symm h])

theorem keys_declare : keysOf (declare entry entries).1 =
    if entry.key ∈ keysOf entries then keysOf entries else keysOf entries ++ [entry.key] := by
  induction entries with
  | nil => rfl
  | cons e es ih =>
    by_cases h : e.key = entry.key
    · simp [declare, keysOf, h]
    · have tail : keysOf (declare entry (e :: es)).1 = e.key :: keysOf (declare entry es).1 := by
        simp only [declare, if_neg h, keysOf, List.map_cons]
      have cons : keysOf (e :: es) = e.key :: keysOf es := rfl
      have hm : entry.key ∈ e.key :: keysOf es ↔ entry.key ∈ keysOf es := by
        simp [Ne.symm h]
      rw [tail, ih, cons]
      simp only [hm]
      split <;> rfl

theorem mem_keys_declare {key : Text} :
    key ∈ keysOf (declare entry entries).1 ↔ key = entry.key ∨ key ∈ keysOf entries := by
  rw [keys_declare]
  split
  · next h => exact ⟨Or.inr, fun hk => hk.elim (fun he => he ▸ h) id⟩
  · rw [List.mem_append, List.mem_singleton, or_comm]

theorem declare_of_notMem (h : entry.key ∉ keysOf entries) :
    (declare entry entries).1 = entries ++ [entry] := by
  induction entries with
  | nil => rfl
  | cons e es ih =>
    obtain ⟨hne, hm⟩ := not_or.1 (mt List.mem_cons.2 h)
    simp only [declare, if_neg (Ne.symm hne), ih hm, List.cons_append]

end Keys

/-! ## Declared entries -/

/-- The entries that are left of the written ones: each key once, at its first place and as it was written last. -/
structure Declares (written declared : List (RecordEntry TypeNode)) : Prop where
  keys : keysOf declared = (keysOf written).eraseDups
  distinct : (keysOf declared).Nodup
  latest : ∀ e ∈ declared, ∃ before after, written = before ++ e :: after ∧ e.key ∉ keysOf after

section Declared
variable {entry e : RecordEntry TypeNode} {entries written declared : List (RecordEntry TypeNode)}

theorem Declares.mem (h : Declares written declared) (he : e ∈ declared) : e ∈ written := by
  obtain ⟨before, after, rfl, -⟩ := h.latest e he
  exact List.mem_append_right before List.mem_cons_self

theorem mem_declare (h : e ∈ (declare entry entries).1) : e = entry ∨ e ∈ entries := by
  induction entries with
  | nil => exact Or.inl (List.mem_singleton.1 h)
  | cons d ds ih =>
    by_cases hd : d.key = entry.key
    · rw [declare, if_pos hd] at h
      rcases List.mem_cons.1 h with rfl | h
      · exact Or.inl rfl
      · exact Or.inr (List.mem_cons_of_mem _ h)
    · simp only [declare, if_neg hd] at h
      rcases List.mem_cons.1 h with rfl | h
      · exact Or.inr List.mem_cons_self
      · exact (ih h).imp_right (List.mem_cons_of_mem _)

theorem mem_declare_self (entry : RecordEntry TypeNode) (entries : List (RecordEntry TypeNode)) :
    entry ∈ (declare entry entries).1 := by
  induction entries with
  | nil => exact List.mem_singleton_self entry
  | cons e es ih =>
    rw [declare]
    split
    · exact List.mem_cons_self
    · exact List.mem_cons_of_mem _ ih

/-- One more entry takes the place of the one with its key, or stands at the end. -/
theorem Declares.declare (h : Declares written declared) (entry : RecordEntry TypeNode) :
    Declares (written ++ [entry]) (declare entry declared).1 := by
  have keys : keysOf (TypeExpr.declare entry declared).1 = (keysOf (written ++ [entry])).eraseDups := by
    rw [keys_declare, h.keys, keysOf, keysOf, List.map_append, List.map_singleton]
    simp only [List.mem_eraseDups]
    split
    · next known => exact (eraseDups_append_of_subset (by simpa using known)).symm
    · next new => exact (eraseDups_concat_of_notMem new).symm
  have distinct : (keysOf (TypeExpr.declare entry declared).1).Nodup := keys ▸ nodup_eraseDups _
  refine ⟨keys, distinct, fun e he => ?_⟩
  by_cases same : e.key = entry.key
  · -- The keys are distinct, so `entry` is the only entry with its key.
    obtain rfl := List.inj_on_of_nodup_map distinct he (mem_declare_self entry declared) same
    exact ⟨written, [], rfl, List.not_mem_nil⟩
  · have old : e ∈ declared := (mem_declare he).resolve_left fun h => same (congrArg RecordEntry.key h)
    obtain ⟨before, after, rfl, last⟩ := h.latest e old
    refine ⟨before, after ++ [entry], by simp, ?_⟩
    rw [keysOf, List.map_append, List.mem_append, not_or]
    exact ⟨last, by simpa using same⟩

theorem declares_declareAll (written : List (RecordEntry TypeNode)) :
    Declares written (declareAll [] written) := by
  induction written using List.reverseRecOn with
  | nil => exact ⟨rfl, List.nodup_nil, fun e he => absurd he List.not_mem_nil⟩
  | append_singleton written entry ih =>
    rw [declareAll, List.foldl_append]
    exact ih.declare entry

end Declared

/-! ## Reading -/

/-- One round of reading entries. -/
theorem entries_succ {L : Level} {fuel index : Nat} {declared : List (RecordEntry TypeNode)}
    {t : Text} (h : ∀ rest, Text.skipSpacing t ≠ '}' :: rest) :
    entries L (fuel + 1) index declared t = (do
      let next ← entry L index (Text.skipSpacing t)
      let redeclared := next.redeclared ++
        if (declare next.value.1 declared).2 then [next.value.1.key] else []
      match Text.skipSpacing next.rest with
      | ',' :: rest =>
        let more ← entries L fuel next.value.2 (declare next.value.1 declared).1 rest
        return { more with redeclared := redeclared ++ more.redeclared }
      | '}' :: rest => return ⟨(declare next.value.1 declared).1, redeclared, rest⟩
      | rest => .error ⟨.missingEntryEnd, rest⟩) := by
  rw [entries]
  split
  · next rest ht => exact absurd ht (h rest)
  · rfl

end DeclGen.TypeExpr
