import Mathlib.Data.List.Induction
import Mathlib.Data.List.Nodup

/-!
# Distinct elements and keys

`List.eraseDups` keeps the elements of a list in the order of their first occurrences, each of them once.

* `nodup_eraseDups`, `eraseDups_of_nodup` : no element is left twice, and a list without repetitions stays as it is;
* `eraseDups_concat_of_notMem` : a new element at the end;
* `eraseDups_append_cons_of_mem`, `eraseDups_append_of_subset`, `eraseDups_append_eraseDups` : what is repeated makes
  no difference;
* `find?_eq_some_iff_of_nodup`, `find?_eq_of_perm` : searches among distinct keys;
* `Fresh` : no element is among those seen before, and none stands twice.
-/

namespace DeclGen

/-! ## First occurrences -/

section Occurrences
variable {α : Type} [BEq α] [LawfulBEq α] {a : α} {l l' : List α}

theorem nodup_eraseDups (l : List α) : l.eraseDups.Nodup := by
  induction h : l.length using Nat.strongRecOn generalizing l with
  | ind n ih =>
    cases l with
    | nil => simp
    | cons a l =>
      rw [List.eraseDups_cons, List.nodup_cons]
      refine ⟨by simp [List.mem_eraseDups], ih _ ?_ _ rfl⟩
      have := List.length_filter_le (fun b => !b == a) l
      rw [← h, List.length_cons]
      omega

theorem eraseDups_of_nodup (h : l.Nodup) : l.eraseDups = l := by
  induction l with
  | nil => rfl
  | cons a l ih =>
    obtain ⟨hm, hn⟩ := List.nodup_cons.1 h
    have kept : l.filter (fun b => !b == a) = l := by
      refine List.filter_eq_self.2 fun b hb => ?_
      have hne : b ≠ a := fun he => hm (he ▸ hb)
      simpa using hne
    rw [List.eraseDups_cons, kept, ih hn]

/-- An element that was there before makes no difference. -/
theorem eraseDups_append_cons_of_mem (h : a ∈ l) (l' : List α) : (l ++ a :: l').eraseDups = (l ++ l').eraseDups := by
  have dropped : (a :: l').removeAll l = l'.removeAll l := List.filter_cons_of_neg (by simpa using h)
  rw [List.eraseDups_append, List.eraseDups_append, dropped]

theorem eraseDups_append_of_subset (h : l' ⊆ l) : (l ++ l').eraseDups = l.eraseDups := by
  induction l' with
  | nil => rw [List.append_nil]
  | cons a l' ih =>
    obtain ⟨ha, hl⟩ := List.cons_subset.1 h
    rw [eraseDups_append_cons_of_mem ha, ih hl]

theorem eraseDups_concat_of_notMem (h : a ∉ l) : (l ++ [a]).eraseDups = l.eraseDups ++ [a] := by
  have kept : [a].removeAll l = [a] := List.filter_cons_of_pos (by simpa using h)
  rw [List.eraseDups_append, kept, List.eraseDups_cons, List.filter_nil, List.eraseDups_nil]

/-- What stands in the middle may lose its repetitions first. -/
theorem eraseDups_append_eraseDups (l m r : List α) :
    (l ++ m.eraseDups ++ r).eraseDups = (l ++ m ++ r).eraseDups := by
  induction m using List.reverseRecOn generalizing r with
  | nil => rfl
  | append_singleton m a ih =>
    have shift (s : List α) : l ++ (s ++ [a]) ++ r = l ++ s ++ a :: r := by simp
    by_cases h : a ∈ m
    · have again : (m ++ [a]).eraseDups = m.eraseDups := eraseDups_append_of_subset (by simpa using h)
      rw [again, ih, shift, eraseDups_append_cons_of_mem (List.mem_append_right l h)]
    · rw [eraseDups_concat_of_notMem h, shift, shift, ih]

end Occurrences

/-! ## Distinct keys -/

section Keys
variable {α κ : Type} [DecidableEq κ] {key : α → κ} {l l' : List α}

/-- With distinct keys, a search by key finds the element of the key wherever it stands. -/
theorem find?_eq_some_iff_of_nodup (h : (l.map key).Nodup) {k : κ} {a : α} :
    l.find? (fun x => key x = k) = some a ↔ a ∈ l ∧ key a = k := by
  constructor
  · exact fun ha => ⟨List.mem_of_find?_eq_some ha, by simpa using List.find?_some ha⟩
  · rintro ⟨ha, rfl⟩
    have found : (l.find? fun x => key x = key a).isSome = true :=
      List.find?_isSome.2 ⟨a, ha, decide_eq_true rfl⟩
    obtain ⟨b, hb⟩ := Option.isSome_iff_exists.1 found
    have hkey : key b = key a := by simpa using List.find?_some hb
    rw [hb, List.inj_on_of_nodup_map h (List.mem_of_find?_eq_some hb) ha hkey]

theorem find?_eq_of_perm (h : (l.map key).Nodup) (perm : l.Perm l') (k : κ) :
    l.find? (fun x => key x = k) = l'.find? (fun x => key x = k) := by
  ext a
  rw [find?_eq_some_iff_of_nodup h, find?_eq_some_iff_of_nodup ((perm.map key).nodup_iff.1 h),
    perm.mem_iff]

end Keys

/-! ## Elements seen before -/

section Seen
variable {α : Type} {seen xs : List α} {x : α}

/-- None of the list is among those seen before it, and none stands in it twice. -/
def Fresh (seen xs : List α) : Prop := xs.Nodup ∧ xs.Disjoint seen

theorem fresh_nil : Fresh seen [] := ⟨List.nodup_nil, List.disjoint_nil_left seen⟩

theorem fresh_cons : Fresh seen (x :: xs) ↔ x ∉ seen ∧ Fresh (x :: seen) xs := by
  rw [Fresh, Fresh, List.nodup_cons, List.disjoint_cons_left, List.disjoint_cons_right]
  constructor
  · rintro ⟨⟨other, nodup⟩, unseen, apart⟩
    exact ⟨unseen, nodup, other, apart⟩
  · rintro ⟨unseen, nodup, other, apart⟩
    exact ⟨⟨other, nodup⟩, unseen, apart⟩

theorem fresh_iff_nodup : Fresh [] xs ↔ xs.Nodup := and_iff_left (List.disjoint_nil_right xs)

end Seen

end DeclGen
