import DeclGen.Proofs.Generation.Discovery

/-!
# The order of the files of a closure

The files are those of a breadth-first search that goes on from the entities that are generated. An
entity that is skipped in a collision leads nowhere, so the files stand in the order of the distances
from the root along generated entities, and not always in that of the distances in the registry.

* `Generation.BreadthFirst` : the files are those of a breadth-first search;
* `Generation.FollowsAll` : whatever a generated entity refers to is generated;
* `outputs_breadth_first` : the search, and the distances along it;
* `not_ordered_by_distance` : a skipped entity hides a shorter path.
-/

namespace DeclGen

/-- The files are those of a breadth-first search. Each file but the first has a parent before it: the
first file whose entity refers to that of the file. Parents do not decrease, and no dependency is
lost. -/
structure Generation.BreadthFirst (r : Registry) (render : Renderer) (root : Text) (g : Generation)
    (parent : Nat → Nat) : Prop where
  first : ∃ o, g.outputs[0]? = some o ∧ o.owner = root
  earlier : ∀ i, 0 < i → i < g.outputs.length → parent i < i
  found : ∀ i, 0 < i → ∀ o, g.outputs[i]? = some o → ∃ p e, g.outputs[parent i]? = some p ∧
    p.Renders r.loader render e ∧
    ∃ d ∈ e.resolve.dependencies.entries, r.resolve d.2 e.scope = some o.owner
  nearest : ∀ i, 0 < i → ∀ o, g.outputs[i]? = some o → ∀ k < parent i, ∀ p, g.outputs[k]? = some p →
    o.owner ∉ r.successors p.owner
  ordered : ∀ i j, 0 < i → i ≤ j → j < g.outputs.length → parent i ≤ parent j
  complete : ∀ o ∈ g.outputs, ∃ e, o.Renders r.loader render e ∧ Closed r.loader g e

/-- Whatever a generated entity refers to is generated. -/
def Generation.FollowsAll (r : Registry) (g : Generation) : Prop :=
  ∀ name, g.generates name = true → ∀ next ∈ r.successors name, g.generates next = true

section
variable {r : Registry} {render : Renderer} {root : Text} {g : Generation}

theorem Generation.generates_iff_mem_owners {name : Text} : g.generates name = true ↔ name ∈ g.owners :=
  decide_eq_true_iff

theorem Generation.getElem?_owners_iff {i : Nat} {name : Text} :
    g.owners[i]? = some name ↔ ∃ o, g.outputs[i]? = some o ∧ o.owner = name := by
  rw [owners, List.getElem?_map, Option.map_eq_some_iff]

/-- A closure without collisions follows all references. -/
theorem followsAll_of_no_collisions (h : generateClosure r.loader render root = .ok g)
    (hc : g.collisions = []) : g.FollowsAll r := by
  intro name hname next hnext
  obtain ⟨o, ho, rfl⟩ := Generation.generates_iff.1 hname
  obtain ⟨e, he, closed⟩ := generateClosure_closed r.loader_bounded h o ho
  obtain ⟨d, hd, hr⟩ := (Registry.mem_successors_of_load he.load).1 hnext
  rcases (closed.found d hd next hr).1 with hp | ⟨c, hm, -⟩
  · exact Generation.generates_iff.2 hp
  · rw [hc] at hm
    exact absurd hm (by simp)

/-- The discoverers of the files are their parents in a breadth-first search. -/
theorem breadthFirst_of_discovered (h : generateClosure r.loader render root = .ok g) {name : Text}
    (hs : r.Discovered name g.owners) :
    g.BreadthFirst r render name fun i => r.discoverer g.owners (g.owners[i]?.getD []) := by
  have complete := generateClosure_closed r.loader_bounded h
  have owner_of : ∀ {i : Nat} {o : Output}, g.outputs[i]? = some o → g.owners[i]? = some o.owner :=
    fun ho => Generation.getElem?_owners_iff.2 ⟨_, ho, rfl⟩
  refine ⟨?_, ?_, ?_, ?_, ?_, complete⟩
  · exact Generation.getElem?_owners_iff.1 hs.first
  · intro i hi hlt
    have hn := owner_of (List.getElem?_eq_getElem hlt)
    simpa only [hn, Option.getD_some] using hs.earlier i hi _ hn
  · intro i hi o ho
    have hn := owner_of ho
    obtain ⟨owner, howner, hsucc⟩ := hs.exists_discoverer hi hn
    obtain ⟨p, hp, rfl⟩ := Generation.getElem?_owners_iff.1 howner
    obtain ⟨e, he, -⟩ := complete p (List.mem_of_getElem? hp)
    refine ⟨p, e, ?_, he, (Registry.mem_successors_of_load he.load).1 hsucc⟩
    simpa only [hn, Option.getD_some] using hp
  · intro i hi o ho k hk p hp hsucc
    rw [owner_of ho, Option.getD_some] at hk
    exact absurd hk (not_lt.2 (Registry.discoverer_le (owner_of hp) hsucc))
  · intro i j hi hij hj
    have ha := owner_of (List.getElem?_eq_getElem (hij.trans_lt hj))
    have hb := owner_of (List.getElem?_eq_getElem hj)
    simpa only [ha, hb, Option.getD_some] using hs.ordered i j hi hij _ _ ha hb

/-- **Closures are generated breadth first.** The first file is that of the root, and the files are
those of a breadth-first search. The entity of each file is reached from the root through generated
entities, and along such paths the distances from the root do not decrease. If whatever a generated
entity refers to is generated, the distances in the registry do not decrease. -/
theorem outputs_breadth_first (h : generateClosure r.loader render root = .ok g) :
    ∃ name parent, r.resolve root [] = some name ∧ g.BreadthFirst r render name parent ∧
      (∀ o ∈ g.outputs, ∃ n, o.owner ∈ r.reached g.generates name n) ∧
      (g.outputs.Pairwise fun o p =>
        r.distance g.generates name o.owner ≤ r.distance g.generates name p.owner) ∧
      (g.FollowsAll r → g.outputs.Pairwise fun o p =>
        r.distance (fun _ => true) name o.owner ≤ r.distance (fun _ => true) name p.owner) := by
  obtain ⟨name, hn, hs⟩ := generateClosure_discovered h
  have hvia : ∀ owner, g.generates owner = true ↔ owner ∈ g.owners :=
    fun _ => Generation.generates_iff_mem_owners
  have hdist := List.pairwise_map.1 (hs.distances hvia)
  refine ⟨name, _, hn, breadthFirst_of_discovered h hs, ?_, hdist, fun hall => ?_⟩
  · intro o ho
    obtain ⟨i, hi⟩ := List.mem_iff_getElem?.1 (List.mem_map_of_mem ho : o.owner ∈ g.owners)
    exact hs.exists_reached (fun owner => (hvia owner).2) i _ hi
  · have hroot : g.generates name = true := (hvia name).2 (List.mem_of_getElem? hs.first)
    simpa only [Registry.distance_of_closed hroot hall] using hdist

end

/-- A record with a field for each of the references. -/
def Entity.ofReferences (name : Text) (references : List Text) : Entity :=
  { Entity.ofName .record name with
    fields := references.map fun reference => ⟨reference, reference, none, false, false, none⟩ }

/-- A closure with a cycle, in which two entities refer to a third one. -/
theorem outputs_breadth_first_cycle :
    ∃ (r : Registry) (g : Generation), generateClosure r.loader (fun _ => []) ['R'] = .ok g ∧
      g.owners = [['R'], ['A'], ['B'], ['C']] ∧ r.resolve ['R'] [] = some ['R'] ∧
      (∃ parent, g.BreadthFirst r (fun _ => []) ['R'] parent) ∧
      g.outputs.Pairwise fun o p =>
        r.distance (fun _ => true) ['R'] o.owner ≤ r.distance (fun _ => true) ['R'] p.owner := by
  let r : Registry := Registry.empty.extend [.ofReferences ['R'] [['A'], ['B']],
    .ofReferences ['A'] [['C']], .ofReferences ['B'] [['R'], ['C']], .ofReferences ['C'] []]
  let g : Generation := ⟨[⟨['R'], ['R'], []⟩, ⟨['A'], ['A'], []⟩, ⟨['B'], ['B'], []⟩,
    ⟨['C'], ['C'], []⟩], [], []⟩
  have hg : generateClosure r.loader (fun _ => []) ['R'] = .ok g :=
    eq_ok_of_toOption (by decide +kernel)
  have hroot : r.resolve ['R'] [] = some ['R'] := by decide +kernel
  obtain ⟨name, parent, hn, hsearch, -, -, hdist⟩ := outputs_breadth_first hg
  obtain rfl : ['R'] = name := Option.some.inj (hroot.symm.trans hn)
  exact ⟨r, g, hg, rfl, hroot, ⟨parent, hsearch⟩, hdist (followsAll_of_no_collisions hg rfl)⟩

/-- The skipped entity `B.R` refers to `N`, which is thus two steps from the root, but generated after
`F`, which is three steps from it. -/
theorem not_ordered_by_distance :
    ¬ ∀ (r : Registry) (render : Renderer) (root name : Text) (g : Generation),
      generateClosure r.loader render root = .ok g → r.resolve root [] = some name →
        g.outputs.Pairwise fun o p =>
          r.distance (fun _ => true) name o.owner ≤ r.distance (fun _ => true) name p.owner := by
  intro ordered
  let r : Registry := Registry.empty.extend [
    .ofReferences "A.R".toList ["B.R".toList, "A.M".toList], .ofReferences "B.R".toList ["A.N".toList],
    .ofReferences "A.M".toList ["A.X".toList],
    .ofReferences "A.X".toList ["A.F".toList, "A.N".toList],
    .ofReferences "A.F".toList [], .ofReferences "A.N".toList []]
  let g : Generation := ⟨[⟨['R'], "A\\R".toList, []⟩, ⟨['M'], "A\\M".toList, []⟩,
    ⟨['X'], "A\\X".toList, []⟩, ⟨['F'], "A\\F".toList, []⟩, ⟨['N'], "A\\N".toList, []⟩], [],
    [⟨['R'], "A\\R".toList, "B\\R".toList⟩]⟩
  have hg : generateClosure r.loader (fun _ => []) "A.R".toList = .ok g :=
    eq_ok_of_toOption (by decide +kernel)
  have hdist := ordered r (fun _ => []) "A.R".toList "A\\R".toList g hg (by decide +kernel)
  have near : r.distance (fun _ => true) "A\\R".toList "A\\N".toList ≤ 2 :=
    Registry.distance_le (by decide +kernel)
  have far : 2 < r.distance (fun _ => true) "A\\R".toList "A\\F".toList :=
    Registry.lt_distance ⟨3, by decide +kernel⟩ (by decide +kernel)
  have hle := List.pairwise_iff_getElem.1 hdist 3 4 (by decide) (by decide) (by decide)
  exact absurd hle (not_le.2 (near.trans_lt far))

end DeclGen
