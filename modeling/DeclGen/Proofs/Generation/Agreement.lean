import DeclGen.Proofs.Generation.BreadthFirst
import DeclGen.Proofs.Generation.Exactness

/-!
# Closures and single entities

The two ways to generate an entity load it differently: a closure finds it from the entity that refers
to it, alone it is found by its name from outside every scope. Registered under normal forms, a name
that a reference stands for stands for itself there.

* `generateOne_ok` : the file of one entity;
* `Closure.visit_error` : a turn fails if its entity cannot be loaded;
* `Closure.reached_kept` : what is visited is reached from the root;
* `closure_agrees` : a closure consists of the files of single entities, or fails as one of the
  entities reached does.
-/

namespace DeclGen

theorem generateOne_ok {loader : Loader} {render : Renderer} {root name : Text} {e : Entity}
    (hn : loader.resolve root [] = some name) (hl : loader.load name = .ok e) :
    generateOne loader render root = .ok (render e.resolve) := by
  simp only [generateOne, resolveRoot, hn, loadResolved, hl, ok_bind]
  rfl

namespace Closure
variable {r : Registry} {render : Renderer} {root : Text}

theorem visit_error {loader : Loader} {name : Text} {s : State} {error : GenerationError}
    (h : visit loader render name s = .error error) :
    ∃ cause, loader.load name = .error cause ∧ error = .load cause := by
  unfold visit at h
  split at h
  · exact absurd h (by simp)
  · cases hl : loader.load name with
    | error cause =>
      simp only [loadResolved, hl, error_bind] at h
      exact ⟨cause, rfl, (Except.error.inj h).symm⟩
    | ok e =>
      simp only [loadResolved, hl, ok_bind] at h
      exact absurd h (by simp [pure, Except.pure])

/-- Every name visited is reached from the root. -/
theorem reached_kept : Kept r.loader render fun _ s =>
    ∀ name ∈ s.visited, ∃ n, name ∈ r.reached (fun _ => true) root n := by
  intro done queue name s s' hi h hq hv
  rcases visit_cases hv with ⟨kept, -, rfl⟩ | ⟨-, e, hl, rfl⟩
  · exact h
  · intro next hm
    obtain ⟨new, hvisited, -, hnew⟩ := visited_emit r.loader render name e.resolve { s with queue }
    rw [hvisited] at hm
    rcases List.mem_append.1 hm with hm | hm
    · exact h next hm
    · obtain ⟨n, hreached⟩ := h name (hi.mem_visited hq)
      obtain ⟨-, hd⟩ := hnew next hm
      exact ⟨n + 1, Registry.mem_reached_succ_iff.2
        ⟨name, hreached, rfl, (Registry.mem_successors_of_load hl).2 hd⟩⟩

end Closure

/-- A closure fails if its root stands for nothing, or as loading an entity does that is reached from
the root. -/
theorem generateClosure_error {r : Registry} {render : Renderer} {root : Text} {error : GenerationError}
    (h : generateClosure r.loader render root = .error error) :
    (r.resolve root [] = none ∧ error = .notFound root) ∨
    ∃ start name n cause, r.resolve root [] = some start ∧
      name ∈ r.reached (fun _ => true) start n ∧ r.load name = .error cause ∧ error = .load cause := by
  cases hn : r.resolve root [] with
  | none =>
    rw [generateClosure_unresolved hn] at h
    exact Or.inl ⟨rfl, (Except.error.inj h).symm⟩
  | some start =>
    obtain ⟨names, s, outcome, turns, stop, ho⟩ := generateClosure_stops render r.loader_bounded hn
    rw [h] at ho
    cases stop with
    | done => exact absurd ho (by simp [Except.map])
    | @failed name queue cause next fails =>
      obtain rfl : error = cause := Except.error.inj ho
      obtain ⟨cause, hl, rfl⟩ := Closure.visit_error fails
      have reached : ∀ name ∈ (Closure.start start).visited,
          ∃ n, name ∈ r.reached (fun _ => true) start n := fun name hm => ⟨0, hm⟩
      obtain ⟨hi, hreached⟩ :=
        turns.keeps Closure.reached_kept (Closure.start_invariant ⟨root, [], hn⟩) reached
      obtain ⟨n, hn⟩ := hreached name (hi.mem_visited next)
      exact Or.inr ⟨start, name, n, cause, rfl, hn, hl, rfl⟩

/-- **Closures agree with single entities.** Where names are registered in normal form, each file of a
closure is found under the short name of its owner and is the file of its owner alone, and the first
one is that of the root alone. A closure fails if its root stands for nothing, or as loading an entity
does that is reached from the root. -/
theorem closure_agrees {r : Registry} (render : Renderer) (root : Text)
    (hnormal : ∀ e ∈ r.entities, Name.normalize e.qualifiedName = e.qualifiedName) :
    (∀ g, generateClosure r.loader render root = .ok g →
      (∀ o ∈ g.outputs, o.shortName = Name.short o.owner ∧ g.output? o.shortName = some o ∧
        generateOne r.loader render o.owner = .ok o.text) ∧
      ∃ o more, g.outputs = o :: more ∧ generateOne r.loader render root = .ok o.text) ∧
    ∀ error, generateClosure r.loader render root = .error error →
      (r.resolve root [] = none ∧ error = .notFound root) ∨
      ∃ start name n cause, r.resolve root [] = some start ∧
        name ∈ r.reached (fun _ => true) start n ∧ r.load name = .error cause ∧ error = .load cause := by
  refine ⟨fun g h => ⟨fun o ho => ?_, ?_⟩, fun error h => generateClosure_error h⟩
  · obtain ⟨s, rfl, inv, noted⟩ := generateClosure_noted r.loader_bounded h
    obtain ⟨e, he, -⟩ := inv.outputs o ho
    obtain ⟨hmem, hname⟩ := Registry.mem_of_get? (Registry.get?_of_load he.load)
    have hself : r.loader.resolve o.owner [] = some o.owner := by
      refine Registry.resolve_self ?_ ?_
      · rw [← hname]
        exact Registry.contains_of_mem hmem
      · rw [← hname]
        exact hnormal e hmem
    exact ⟨he.shortName, output?_of_mem noted ho, by rw [generateOne_ok hself he.load, he.text]⟩
  · obtain ⟨o, more, houts, hroot, -⟩ := generateClosure_first r.loader_bounded h
    have ho : o ∈ g.outputs := by
      rw [houts]
      exact List.mem_cons_self
    obtain ⟨e, he, -⟩ := generateClosure_closed r.loader_bounded h o ho
    exact ⟨o, more, houts, by rw [generateOne_ok hroot he.load, he.text]⟩

/-- The closure of `A` succeeds. That of `C` fails, as its entity refers to `D`, which has a field
without a name. -/
theorem closure_agrees_nameless_field :
    ∃ (r : Registry) (g : Generation) (cause : LoadError),
      generateClosure r.loader Resolved.qualifiedName ['A'] = .ok g ∧
      g.outputs.map Output.text = [['A'], ['B']] ∧
      (∀ o ∈ g.outputs, generateOne r.loader Resolved.qualifiedName o.owner = .ok o.text) ∧
      generateClosure r.loader Resolved.qualifiedName ['C'] = .error (.load cause) ∧
      ∃ start name n, r.resolve ['C'] [] = some start ∧ name ∈ r.reached (fun _ => true) start n ∧
        r.load name = .error cause := by
  let r : Registry := Registry.empty.extend [.ofReferences ['A'] [['B']],
    .ofReferences ['B'] [['A']], .ofReferences ['C'] [['D']], .ofReferences ['D'] [[]]]
  let g : Generation := ⟨[⟨['A'], ['A'], ['A']⟩, ⟨['B'], ['B'], ['B']⟩], [], []⟩
  have hg : generateClosure r.loader Resolved.qualifiedName ['A'] = .ok g :=
    eq_ok_of_toOption (by decide +kernel)
  have hfail : (generateClosure r.loader Resolved.qualifiedName ['C']).toOption = none := by
    decide +kernel
  have hnormal : ∀ e ∈ r.entities, Name.normalize e.qualifiedName = e.qualifiedName := by
    decide +kernel
  obtain ⟨single, -⟩ := closure_agrees Resolved.qualifiedName ['A'] hnormal
  obtain ⟨-, fails⟩ := closure_agrees Resolved.qualifiedName ['C'] hnormal
  cases hd : generateClosure r.loader Resolved.qualifiedName ['C'] with
  | ok g' =>
    rw [hd] at hfail
    exact absurd hfail (by simp [Except.toOption])
  | error error =>
    rcases fails error hd with ⟨hnone, -⟩ | ⟨start, name, n, cause, hn, hreached, hl, rfl⟩
    · exact absurd hnone (by decide +kernel)
    · exact ⟨r, g, cause, hg, rfl, fun o ho => ((single g hg).1 o ho).2.2, hd, start, name, n, hn,
        hreached, hl⟩

end DeclGen
