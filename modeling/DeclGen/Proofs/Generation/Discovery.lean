import DeclGen.Proofs.Generation.Closure
import DeclGen.Proofs.Loader.Reachability

/-!
# Closures are generated breadth first

Every name but the root is queued on the turn of the first generated entity that refers to it. As the
names have their turns in the order in which they are queued, the places of these entities never
decrease along the names visited, and so along the files.

* `Closure.visited_emit` : what the turn of a generated entity queues;
* `Registry.discoverer` : the place of the first name that refers to a name;
* `Registry.Discovered` : names in the order of a search; `Discovered.exists_reached` : there are paths
  to them; `Discovered.distances` : their distances do not decrease;
* `Closure.Searched` : the search of a closure so far; `searched_kept` : turns go on with it;
* `generateClosure_discovered` : the files of a closure stand in the order of a search.
-/

namespace DeclGen

/-- The qualified names of the entities generated, in the order of their files. -/
def Generation.owners (g : Generation) : List Text := g.outputs.map Output.owner

/-- Is the entity of the name generated? -/
def Generation.generates (g : Generation) (name : Text) : Bool := name ∈ g.owners

theorem Generation.generates_iff {g : Generation} {name : Text} :
    g.generates name = true ↔ ∃ o ∈ g.outputs, o.owner = name := by
  simp [generates, owners]

namespace Closure
variable {loader : Loader} {s : State}

/-! ## What is queued -/

/-- Dependencies queue, in order, what they stand for and was not visited before. -/
theorem visited_foldl_follow (scope : Text) (ds : List (Text × Text)) : ∀ s : State,
    ∃ new, (ds.foldl (follow loader scope) s).visited = s.visited ++ new ∧
      (ds.foldl (follow loader scope) s).queue = s.queue ++ new ∧
      ∀ name ∈ new, name ∉ s.visited ∧ ∃ d ∈ ds, loader.resolve d.2 scope = some name := by
  induction ds with
  | nil => exact fun s => ⟨[], by simp, by simp, by simp⟩
  | cons d ds ih =>
    intro s
    obtain ⟨new, hv, hq, hn⟩ := ih (follow loader scope s d)
    -- What a dependency queues itself comes before what the others do.
    obtain ⟨own, hv', hq', hown⟩ : ∃ own, (follow loader scope s d).visited = s.visited ++ own ∧
        (follow loader scope s d).queue = s.queue ++ own ∧
        ∀ name ∈ own, name ∉ s.visited ∧ loader.resolve d.2 scope = some name := by
      unfold follow
      cases hr : loader.resolve d.2 scope with
      | none => exact ⟨[], by simp [hr], by simp [hr], by simp⟩
      | some name =>
        by_cases hm : name ∈ s.visited
        · exact ⟨[], by simp [hr, hm], by simp [hr, hm], by simp⟩
        · exact ⟨[name], by simp [hr, hm], by simp [hr, hm], by simp [hm]⟩
    refine ⟨own ++ new, by rw [List.foldl_cons, hv, hv', List.append_assoc],
      by rw [List.foldl_cons, hq, hq', List.append_assoc], ?_⟩
    intro name hm
    rcases List.mem_append.1 hm with hm | hm
    · obtain ⟨hnew, hr⟩ := hown name hm
      exact ⟨hnew, d, List.mem_cons_self, hr⟩
    · obtain ⟨hnew, d', hd', hr⟩ := hn name hm
      rw [hv'] at hnew
      exact ⟨fun h => hnew (List.mem_append_left _ h), d', List.mem_cons_of_mem _ hd', hr⟩

theorem visited_emit (loader : Loader) (render : Renderer) (name : Text) (e : Resolved) (s : State) :
    ∃ new, (emit loader render name e s).visited = s.visited ++ new ∧
      (emit loader render name e s).queue = s.queue ++ new ∧
      ∀ next ∈ new, next ∉ s.visited ∧
        ∃ d ∈ e.dependencies.entries, loader.resolve d.2 e.scope = some next :=
  visited_foldl_follow e.scope e.dependencies.entries s

end Closure

/-! ## Discoverers -/

namespace Registry
variable {r : Registry} {owners : List Text} {name next : Text}

/-- The place of the first owner whose entity refers to the name. -/
def discoverer (r : Registry) (owners : List Text) (name : Text) : Nat :=
  owners.findIdx fun owner => name ∈ r.successors owner

theorem exists_discoverer (h : r.discoverer owners name < owners.length) :
    ∃ owner, owners[r.discoverer owners name]? = some owner ∧ name ∈ r.successors owner := by
  refine ⟨owners[r.discoverer owners name], List.getElem?_eq_getElem h, ?_⟩
  have found := List.findIdx_getElem (w := h)
  exact of_decide_eq_true found

/-- No one refers to the name before its discoverer. -/
theorem discoverer_le {i : Nat} {owner : Text} (h : owners[i]? = some owner)
    (hn : name ∈ r.successors owner) : r.discoverer owners name ≤ i := by
  obtain ⟨hi, rfl⟩ := List.getElem?_eq_some_iff.1 h
  by_contra hlt
  have := List.not_of_lt_findIdx (not_le.1 hlt)
  exact absurd hn (of_decide_eq_false this)

/-- A name keeps its discoverer. -/
theorem discoverer_append {more : List Text} (h : r.discoverer owners name < owners.length) :
    r.discoverer (owners ++ more) name = r.discoverer owners name := by
  rw [discoverer, List.findIdx_append, ← discoverer, if_pos h]

/-- The discoverer of a name that none of the owners refers to. -/
theorem discoverer_concat (h : ∀ owner ∈ owners, name ∉ r.successors owner)
    (hn : name ∈ r.successors next) : r.discoverer (owners ++ [next]) name = owners.length := by
  have hlen : r.discoverer owners name = owners.length :=
    List.findIdx_eq_length_of_false fun owner ho => decide_eq_false (h owner ho)
  rw [discoverer, List.findIdx_append, ← discoverer, if_neg (by omega)]
  simp [List.findIdx_cons, hn]

/-- The names stand in the order of a search that starts from the root: each other name stands behind
its discoverer, in the order of the discoverers. -/
structure Discovered (r : Registry) (root : Text) (owners : List Text) : Prop where
  nodup : owners.Nodup
  first : owners[0]? = some root
  earlier : ∀ i, 0 < i → ∀ name, owners[i]? = some name → r.discoverer owners name < i
  ordered : ∀ i j, 0 < i → i ≤ j → ∀ a b, owners[i]? = some a → owners[j]? = some b →
    r.discoverer owners a ≤ r.discoverer owners b

namespace Discovered
variable {root : Text} {via : Text → Bool}

/-- The discoverer of a name other than the root, and where it stands. -/
theorem exists_discoverer (h : r.Discovered root owners) {i : Nat} (hi : 0 < i)
    (hn : owners[i]? = some name) :
    ∃ owner, owners[r.discoverer owners name]? = some owner ∧ name ∈ r.successors owner := by
  have hlt := h.earlier i hi name hn
  obtain ⟨hlen, -⟩ := List.getElem?_eq_some_iff.1 hn
  exact Registry.exists_discoverer (hlt.trans hlen)

/-- There is a path to every name of the search, and it keeps to names of the search. -/
theorem exists_reached (h : r.Discovered root owners) (hvia : ∀ owner ∈ owners, via owner = true)
    (i : Nat) : ∀ name, owners[i]? = some name → ∃ n, name ∈ r.reached via root n := by
  induction i using Nat.strong_induction_on with
  | _ i ih =>
    intro name hn
    rcases Nat.eq_zero_or_pos i with rfl | hi
    · obtain rfl : root = name := Option.some.inj (h.first.symm.trans hn)
      exact ⟨0, List.mem_singleton_self _⟩
    · obtain ⟨owner, ho, hs⟩ := h.exists_discoverer hi hn
      obtain ⟨n, hreached⟩ := ih _ (h.earlier i hi name hn) owner ho
      exact ⟨n + 1, mem_reached_succ_iff.2
        ⟨owner, hreached, hvia owner (List.mem_of_getElem? ho), hs⟩⟩

/-- To a name of the search there is a path no longer than a given one to a name behind it. The last
name but one of the given path stands behind the discoverer of the second name, so behind the
discoverer of the first name. -/
theorem exists_shorter (h : r.Discovered root owners) (hvia : ∀ name, via name = true ↔ name ∈ owners)
    (n : Nat) : ∀ {i j : Nat} {a b : Text}, i ≤ j → owners[i]? = some a → owners[j]? = some b →
      b ∈ r.reached via root n → ∃ m ≤ n, a ∈ r.reached via root m := by
  induction n with
  | zero =>
    intro i j a b hij ha hb hreached
    obtain rfl : b = root := List.mem_singleton.1 hreached
    -- The root stands in the first place only.
    obtain ⟨hj, hbj⟩ := List.getElem?_eq_some_iff.1 hb
    obtain ⟨h0, hb0⟩ := List.getElem?_eq_some_iff.1 h.first
    obtain rfl : j = 0 := (h.nodup.getElem_inj_iff).1 (hbj.trans hb0.symm)
    obtain rfl : i = 0 := Nat.le_zero.1 hij
    exact ⟨0, le_rfl, List.mem_singleton.2 (Option.some.inj (ha.symm.trans hb))⟩
  | succ n ih =>
    intro i j a b hij ha hb hreached
    rcases Nat.eq_zero_or_pos i with rfl | hi
    · obtain rfl : root = a := Option.some.inj (h.first.symm.trans ha)
      exact ⟨0, Nat.zero_le _, List.mem_singleton_self _⟩
    · obtain ⟨last, hlast, hl, hs⟩ := mem_reached_succ_iff.1 hreached
      obtain ⟨k, hk⟩ := List.mem_iff_getElem?.1 ((hvia last).1 hl)
      obtain ⟨owner, ho, hown⟩ := h.exists_discoverer hi ha
      have hle : r.discoverer owners a ≤ k :=
        (h.ordered i j hi hij a b ha hb).trans (discoverer_le hk hs)
      obtain ⟨m, hm, hreached⟩ := ih hle ho hk hlast
      exact ⟨m + 1, Nat.succ_le_succ hm, mem_reached_succ_iff.2
        ⟨owner, hreached, (hvia owner).2 (List.mem_of_getElem? ho), hown⟩⟩

/-- Along the search, distances do not decrease. -/
theorem distances (h : r.Discovered root owners) (hvia : ∀ name, via name = true ↔ name ∈ owners) :
    owners.Pairwise fun a b => r.distance via root a ≤ r.distance via root b := by
  rw [List.pairwise_iff_getElem]
  intro i j hi hj hij
  have ha := List.getElem?_eq_getElem hi
  have hb := List.getElem?_eq_getElem hj
  refine distance_le_distance (h.exists_reached (fun owner => (hvia owner).2) j _ hb) fun n hn => ?_
  exact h.exists_shorter hvia n hij.le ha hb hn

end Discovered

end Registry

/-! ## Runs -/

namespace Closure
variable {r : Registry} {render : Renderer} {root : Text} {s s' : State}

/-- The search of a closure in which the names of `done` had their turns. -/
structure Searched (r : Registry) (root : Text) (done : List Text) (s : State) : Prop where
  sublist : s.generated.owners.Sublist done
  first : done ≠ [] → s.generated.owners[0]? = some root
  visited : s.visited = root :: s.visited.tail
  discovered : ∀ name ∈ s.visited.tail,
    r.discoverer s.generated.owners name < s.generated.owners.length
  ordered : s.visited.tail.Pairwise fun a b =>
    r.discoverer s.generated.owners a ≤ r.discoverer s.generated.owners b
  earlier : ∀ i, 0 < i → ∀ name, s.generated.owners[i]? = some name →
    r.discoverer s.generated.owners name < i

theorem start_searched (root : Text) : Searched r root [] (start root) where
  sublist := List.Sublist.refl _
  first h := absurd rfl h
  visited := rfl
  discovered name hn := absurd hn (by simp [start])
  ordered := List.Pairwise.nil
  earlier i _ name hn := absurd hn (by simp [start, Generation.empty, Generation.owners])

/-- What a generated entity refers to is visited. -/
theorem Invariant.visited_of_successor {done : List Text} (h : Invariant r.loader render done s)
    {owner name : Text} (ho : owner ∈ s.generated.owners) (hn : name ∈ r.successors owner) :
    name ∈ s.visited := by
  obtain ⟨o, hm, rfl⟩ := List.mem_map.1 ho
  obtain ⟨e, he, hf⟩ := h.outputs o hm
  obtain ⟨d, hd, hr⟩ := (Registry.mem_successors_of_load he.load).1 hn
  exact hf.found d hd name hr

section Emit
variable {done queue new : List Text} {name : Text}

/-- A name that has its turn after the root was discovered before. -/
theorem Searched.discovered_next (hi : Invariant r.loader render done s) (h : Searched r root done s)
    (hq : s.queue = name :: queue) (hne : done ≠ []) :
    r.discoverer s.generated.owners name < s.generated.owners.length := by
  refine h.discovered name ?_
  rw [hi.visited, List.tail_append_of_ne_nil hne, hq]
  exact List.mem_append_right _ List.mem_cons_self

theorem Searched.first_concat (hi : Invariant r.loader render done s) (h : Searched r root done s)
    (hq : s.queue = name :: queue) : (s.generated.owners ++ [name])[0]? = some root := by
  cases done with
  | nil =>
    -- This is the first turn, so the turn of the root.
    have hvisited := hi.visited.symm.trans h.visited
    rw [List.nil_append, hq] at hvisited
    rw [List.sublist_nil.1 h.sublist, (List.cons.inj hvisited).1]
    rfl
  | cons first more =>
    have hroot := h.first (List.cons_ne_nil _ _)
    rw [List.getElem?_append_left (List.getElem?_eq_some_iff.1 hroot).1]
    exact hroot

theorem Searched.earlier_concat (hi : Invariant r.loader render done s) (h : Searched r root done s)
    (hq : s.queue = name :: queue) {i : Nat} (hpos : 0 < i) {a : Text}
    (ha : (s.generated.owners ++ [name])[i]? = some a) :
    r.discoverer (s.generated.owners ++ [name]) a < i := by
  by_cases hlt : i < s.generated.owners.length
  · rw [List.getElem?_append_left hlt] at ha
    have hearlier := h.earlier i hpos a ha
    rwa [Registry.discoverer_append (hearlier.trans hlt)]
  · obtain ⟨hle, -⟩ := List.getElem?_eq_some_iff.1 ha
    rw [List.length_append, List.length_singleton] at hle
    obtain rfl : i = s.generated.owners.length := by omega
    rw [List.getElem?_concat_length, Option.some.injEq] at ha
    obtain rfl : name = a := ha
    have hne : done ≠ [] := by
      rintro rfl
      rw [List.sublist_nil.1 h.sublist] at hpos
      exact absurd hpos (lt_irrefl 0)
    have hdiscovered := h.discovered_next hi hq hne
    rwa [Registry.discoverer_append hdiscovered]

/-- A generated entity comes after every discoverer so far, and is the discoverer of what it queues. -/
theorem Searched.ordered_concat (h : Searched r root done s)
    (fresh : ∀ a ∈ new, r.discoverer (s.generated.owners ++ [name]) a = s.generated.owners.length) :
    (∀ a ∈ s.visited.tail ++ new,
      r.discoverer (s.generated.owners ++ [name]) a < s.generated.owners.length + 1) ∧
    (s.visited.tail ++ new).Pairwise fun a b => r.discoverer (s.generated.owners ++ [name]) a ≤
      r.discoverer (s.generated.owners ++ [name]) b := by
  have old : ∀ a ∈ s.visited.tail, r.discoverer (s.generated.owners ++ [name]) a =
      r.discoverer s.generated.owners a := fun a ha => Registry.discoverer_append (h.discovered a ha)
  constructor
  · intro a ha
    rcases List.mem_append.1 ha with ha | ha
    · rw [old a ha]
      exact Nat.lt_succ_of_lt (h.discovered a ha)
    · rw [fresh a ha]
      exact Nat.lt_succ_self _
  · rw [List.pairwise_append]
    refine ⟨h.ordered.imp_of_mem fun ha hb hle => ?_, ?_, fun a ha b hb => ?_⟩
    · rwa [old _ ha, old _ hb]
    · exact List.pairwise_of_forall_mem_list fun a ha b hb => by rw [fresh a ha, fresh b hb]
    · rw [old a ha, fresh b hb]
      exact (h.discovered a ha).le

theorem emit_searched {e : Entity} (hi : Invariant r.loader render done s)
    (h : Searched r root done s) (hq : s.queue = name :: queue) (hl : r.loader.load name = .ok e) :
    Searched r root (done ++ [name]) (emit r.loader render name e.resolve { s with queue }) := by
  obtain ⟨new, hv, -, hnew⟩ := visited_emit r.loader render name e.resolve { s with queue }
  have howners : (emit r.loader render name e.resolve { s with queue }).generated.owners =
      s.generated.owners ++ [name] := by
    rw [Generation.owners, outputs_emit, List.map_append]
    rfl
  generalize emit r.loader render name e.resolve { s with queue } = s' at hv howners ⊢
  have htail : s'.visited.tail = s.visited.tail ++ new := by
    rw [hv, h.visited]
    rfl
  -- What is queued now was not referred to before.
  have fresh : ∀ a ∈ new, r.discoverer (s.generated.owners ++ [name]) a = s.generated.owners.length := by
    intro a ha
    obtain ⟨hnot, hd⟩ := hnew a ha
    refine Registry.discoverer_concat (fun owner ho hs => hnot (hi.visited_of_successor ho hs)) ?_
    exact (Registry.mem_successors_of_load hl).2 hd
  obtain ⟨discovered, ordered⟩ := h.ordered_concat fresh
  have hlen : (s.generated.owners ++ [name]).length = s.generated.owners.length + 1 := by simp
  exact {
    sublist := by
      rw [howners]
      exact h.sublist.append_right [name]
    first := fun _ => by
      rw [howners]
      exact h.first_concat hi hq
    visited := by
      rw [htail, hv]
      exact congrArg (· ++ new) h.visited
    discovered := by
      rwa [howners, htail, hlen]
    ordered := by
      rwa [howners, htail]
    earlier := fun i hpos a ha => by
      rw [howners] at ha ⊢
      exact h.earlier_concat hi hq hpos ha }

end Emit

theorem searched_kept : Kept r.loader render (Searched r root) := by
  intro done queue name s s' hi h hq hv
  rcases visit_cases hv with ⟨kept, hk, rfl⟩ | ⟨-, e, hl, rfl⟩
  · refine ⟨h.sublist.trans (List.sublist_append_left done [name]), fun _ => h.first ?_, h.visited,
      h.discovered, h.ordered, h.earlier⟩
    -- What is kept had its turn.
    rintro rfl
    have howner : kept.owner ∈ s.generated.owners :=
      List.mem_map_of_mem (List.mem_of_find?_eq_some hk)
    rw [List.sublist_nil.1 h.sublist] at howner
    exact absurd howner (by simp)
  · exact emit_searched hi h hq hl

/-- At the end, the owners stand in the order of the search. -/
theorem Searched.discovered_owners {done : List Text} (hi : Invariant r.loader render done s)
    (h : Searched r root done s) (hne : done ≠ []) : r.Discovered root s.generated.owners := by
  have hfirst := h.first hne
  have hsub : s.generated.owners.Sublist s.visited := by
    rw [hi.visited]
    exact h.sublist.trans (List.sublist_append_left done s.queue)
  refine ⟨hsub.nodup hi.nodup, hfirst, h.earlier, ?_⟩
  -- The owners behind the root are some of the names visited after the root.
  obtain ⟨rest, howners⟩ : ∃ rest, s.generated.owners = root :: rest := by
    cases ho : s.generated.owners with
    | nil => rw [ho] at hfirst; exact absurd hfirst (by simp)
    | cons a rest => rw [ho] at hfirst; exact ⟨rest, by rw [Option.some.inj hfirst]⟩
  have hrest : rest.Sublist s.visited.tail := by
    rw [howners, h.visited] at hsub
    exact List.cons_sublist_cons.1 hsub
  have hpair := List.pairwise_iff_getElem.1 (h.ordered.sublist hrest)
  intro i j hpos hij a b ha hb
  obtain ⟨i, rfl⟩ := Nat.exists_eq_succ_of_ne_zero hpos.ne'
  obtain ⟨j, rfl⟩ := Nat.exists_eq_succ_of_ne_zero (hpos.trans_le hij).ne'
  rw [howners, List.getElem?_cons_succ] at ha hb
  obtain ⟨hi', rfl⟩ := List.getElem?_eq_some_iff.1 ha
  obtain ⟨hj', rfl⟩ := List.getElem?_eq_some_iff.1 hb
  rcases Nat.eq_or_lt_of_le (Nat.succ_le_succ_iff.1 hij) with rfl | hlt
  · exact le_rfl
  · exact hpair i j hi' hj' hlt

end Closure

/-! ## Closures -/

/-- The owners of the files of a closure stand in the order of a search from its root. -/
theorem generateClosure_discovered {r : Registry} {render : Renderer} {root : Text} {g : Generation}
    (h : generateClosure r.loader render root = .ok g) :
    ∃ name, r.resolve root [] = some name ∧ r.Discovered name g.owners := by
  obtain ⟨name, names, s, hn, turns, empty, rfl⟩ := generateClosure_turns r.loader_bounded h
  obtain ⟨hi, hs⟩ := turns.keeps Closure.searched_kept (Closure.start_invariant ⟨root, [], hn⟩)
    (Closure.start_searched name)
  refine ⟨name, hn, hs.discovered_owners hi ?_⟩
  rintro hnil
  have hvisited := hi.visited.symm.trans hs.visited
  rw [hnil, empty] at hvisited
  exact absurd hvisited (by simp)

end DeclGen
