import DeclGen.Entity.Resolved
import DeclGen.Proofs.Loader.Registry
import Mathlib.Order.Lattice.Nat

/-!
# Where the references of a registry lead

* `Registry.successors` : what the dependencies of an entity stand for;
* `Registry.reached` : the ends of the paths of a given length; `contains_of_reached` : they are registered;
* `Registry.distance` : the length of a shortest path (`distance_le`, `distance_le_distance`);
* `reached_of_closed`, `distance_of_closed` : where all paths keep to some names.

Paths may be asked to keep to some names: every name of a path but the last one satisfies `via`.
-/

namespace DeclGen.Registry
variable {r : Registry} {via : Text → Bool} {root name next : Text} {n : Nat}

/-- The names that the dependencies of an entity stand for. -/
def successors (r : Registry) (name : Text) : List Text :=
  match r.get? name with
  | none => []
  | some e => e.resolve.dependencies.entries.filterMap fun d => r.resolve d.2 e.scope

/-- The names at the ends of the paths with `n` steps that start at the root. -/
def reached (r : Registry) (via : Text → Bool) (root : Text) : Nat → List Text
  | 0 => [root]
  | n + 1 => ((r.reached via root n).filter via).flatMap r.successors

/-- The length of a shortest path from the root to the name, if there is a path. -/
noncomputable def distance (r : Registry) (via : Text → Bool) (root name : Text) : Nat :=
  sInf {n | name ∈ r.reached via root n}

/-- What the entity loaded under the name refers to. -/
theorem mem_successors_of_load {e : Entity} (h : r.loader.load name = .ok e) :
    next ∈ r.successors name ↔
      ∃ d ∈ e.resolve.dependencies.entries, r.resolve d.2 e.scope = some next := by
  simp only [successors, get?_of_load h, List.mem_filterMap]

theorem mem_reached_succ_iff : next ∈ r.reached via root (n + 1) ↔
    ∃ name ∈ r.reached via root n, via name = true ∧ next ∈ r.successors name := by
  simp only [reached, List.mem_flatMap, List.mem_filter, and_assoc]

/-- What is reached from an entity is registered. -/
theorem contains_of_reached (registered : r.contains root = true)
    (h : name ∈ r.reached via root n) : r.contains name = true := by
  cases n with
  | zero => exact List.mem_singleton.1 h ▸ registered
  | succ n =>
    obtain ⟨last, -, -, next⟩ := mem_reached_succ_iff.1 h
    rw [successors] at next
    split at next
    · exact absurd next List.not_mem_nil
    · obtain ⟨d, -, resolved⟩ := List.mem_filterMap.1 next
      obtain ⟨e, found⟩ := exists_of_resolve resolved
      rw [contains, found]
      rfl

/-- Paths that keep to fewer names are paths. -/
theorem reached_mono {via' : Text → Bool} (h : ∀ name, via name = true → via' name = true) :
    name ∈ r.reached via root n → name ∈ r.reached via' root n := by
  induction n generalizing name with
  | zero => exact id
  | succ n ih =>
    intro hm
    obtain ⟨last, hlast, hv, hs⟩ := mem_reached_succ_iff.1 hm
    exact mem_reached_succ_iff.2 ⟨last, ih hlast, h last hv, hs⟩

/-- Where successors keep to `via`, every path does. -/
theorem reached_of_closed (hroot : via root = true)
    (closed : ∀ name, via name = true → ∀ next ∈ r.successors name, via next = true) :
    name ∈ r.reached (fun _ => true) root n → via name = true ∧ name ∈ r.reached via root n := by
  induction n generalizing name with
  | zero =>
    intro hm
    obtain rfl := List.mem_singleton.1 hm
    exact ⟨hroot, hm⟩
  | succ n ih =>
    intro hm
    obtain ⟨last, hlast, -, hs⟩ := mem_reached_succ_iff.1 hm
    obtain ⟨hv, hl⟩ := ih hlast
    exact ⟨closed last hv name hs, mem_reached_succ_iff.2 ⟨last, hl, hv, hs⟩⟩

/-! ## Distances -/

theorem distance_le (h : name ∈ r.reached via root n) : r.distance via root name ≤ n :=
  Nat.sInf_le h

theorem mem_reached_distance (h : ∃ n, name ∈ r.reached via root n) :
    name ∈ r.reached via root (r.distance via root name) :=
  Nat.sInf_mem h

theorem lt_distance (h : ∃ n, name ∈ r.reached via root n)
    (hn : ∀ m ≤ n, name ∉ r.reached via root m) : n < r.distance via root name := by
  by_contra hle
  exact hn _ (not_lt.1 hle) (mem_reached_distance h)

/-- A name is no farther than another one if no path to it has to be longer. -/
theorem distance_le_distance {a b : Text} (h : ∃ n, b ∈ r.reached via root n)
    (hle : ∀ n, b ∈ r.reached via root n → ∃ m ≤ n, a ∈ r.reached via root m) :
    r.distance via root a ≤ r.distance via root b := by
  obtain ⟨m, hm, ha⟩ := hle _ (mem_reached_distance h)
  exact (distance_le ha).trans hm

/-- Where successors keep to `via`, so do shortest paths. -/
theorem distance_of_closed (hroot : via root = true)
    (closed : ∀ name, via name = true → ∀ next ∈ r.successors name, via next = true) (name : Text) :
    r.distance (fun _ => true) root name = r.distance via root name := by
  have same : ∀ n, name ∈ r.reached (fun _ => true) root n ↔ name ∈ r.reached via root n :=
    fun n => ⟨fun h => (reached_of_closed hroot closed h).2, reached_mono fun _ _ => rfl⟩
  simp only [distance, same]

end DeclGen.Registry
