import DeclGen.Proofs.Generation.Discovery
import DeclGen.Proofs.Generation.Notes

/-!
# Closures come to an end

What entered the queue are the names that had their turns and those that still are in it. They do not
repeat, and all are names of the registry, so there are no more turns than entities, whatever cycles
the references form. Each turn yields one thing: a file, or the record of a collision.

* `Closure.Yields`, `Closure.Turn.yields` : what a turn yields;
* `Closure.Settled` : what turns have yielded so far;
* `Closure.Progress` : what holds after any number of turns;
* `generateClosure_terminates` : there are only so many turns, and the closure is what the last of
  them leaves.
-/

namespace DeclGen

namespace Closure
variable {loader : Loader} {render : Renderer} {name : Text} {s s' : State}

/-! ## What a turn does -/

/-- A turn takes the first name out of the queue and puts names at its end. -/
theorem Turn.queue (h : Turn loader render name s s') :
    ∃ rest new, s.queue = name :: rest ∧ s'.queue = rest ++ new := by
  obtain ⟨rest, hq, hv⟩ := h
  rcases visit_cases hv with ⟨kept, -, rfl⟩ | ⟨-, e, -, rfl⟩
  · exact ⟨rest, [], hq, (List.append_nil rest).symm⟩
  · obtain ⟨new, -, hqueue, -⟩ := visited_emit loader render name e.resolve { s with queue := rest }
    exact ⟨rest, new, hq, hqueue⟩

/-- What the turn of a name yields: its file, along with the collisions inside its entity, or the
record that it is skipped for the file with its short name. -/
inductive Yields (loader : Loader) (render : Renderer) (name : Text) (g g' : Generation) : Prop
  | file {e : Entity} {shadows : List Collision} (free : g.output? (Name.short name) = none)
    (load : loader.load name = .ok e)
    (outputs : g'.outputs = g.outputs ++ [⟨Name.short name, name, render e.resolve⟩])
    (collisions : g'.collisions = g.collisions ++ shadows)
    (shadowed : ∀ c ∈ shadows, e.Shadows loader c)
  | collision {kept : Output} (taken : g.output? (Name.short name) = some kept)
    (outputs : g'.outputs = g.outputs)
    (collisions : g'.collisions = g.collisions ++ [⟨Name.short name, kept.owner, name⟩])

theorem foldl_noteShadowed (loader : Loader) (e : Resolved) (written : List Text) : ∀ cs : List Collision,
    ∃ shadows, written.foldl (noteShadowed loader e) cs = cs ++ shadows ∧
      ∀ c ∈ shadows, ∃ w ∈ written, shadowing loader e w = some c := by
  induction written with
  | nil => exact fun cs => ⟨[], by simp, by simp⟩
  | cons w written ih =>
    intro cs
    obtain ⟨shadows, hs, hm⟩ := ih (noteShadowed loader e cs w)
    obtain ⟨own, hown, hw⟩ : ∃ own, noteShadowed loader e cs w = cs ++ own ∧
        ∀ c ∈ own, shadowing loader e w = some c := by
      unfold noteShadowed
      split
      · exact ⟨[], by simp, by simp⟩
      · next c hc =>
        unfold addNew
        split
        · exact ⟨[], by simp, by simp⟩
        · exact ⟨[c], rfl, fun d hd => by rw [hc, List.mem_singleton.1 hd]⟩
    refine ⟨own ++ shadows, by rw [List.foldl_cons, hs, hown, List.append_assoc], fun c hc => ?_⟩
    rcases List.mem_append.1 hc with hc | hc
    · exact ⟨w, List.mem_cons_self, hw c hc⟩
    · obtain ⟨v, hv, hc⟩ := hm c hc
      exact ⟨v, List.mem_cons_of_mem _ hv, hc⟩

theorem emit_yields {e : Entity} (hfree : s.generated.output? (Name.short name) = none)
    (hl : loader.load name = .ok e) :
    Yields loader render name s.generated (emit loader render name e.resolve s).generated := by
  have hf : Follows loader e.resolve.scope e.resolve.dependencies.entries s _ := follows_foldl _ _ _
  obtain ⟨shadows, hs, hm⟩ := foldl_noteShadowed loader e.resolve e.resolve.dependencies.shadowed
    s.generated.collisions
  have collisions : (emit loader render name e.resolve s).generated.collisions =
      s.generated.collisions ++ shadows := by
    simp only [emit, hf.collisions, hs]
  exact .file hfree hl (outputs_emit name e.resolve s) collisions hm

theorem Turn.yields (h : Turn loader render name s s') :
    Yields loader render name s.generated s'.generated := by
  obtain ⟨queue, -, hv⟩ := h
  rcases visit_cases hv with ⟨kept, hk, rfl⟩ | ⟨hfree, e, hl, rfl⟩
  · exact .collision hk rfl rfl
  · exact emit_yields (s := { s with queue }) hfree hl

/-- The names of `done` are those of the files and of the entities skipped for them. -/
def Settled (done : List Text) (g : Generation) : Prop :=
  ∃ pushed : List Collision, pushed.Sublist g.collisions ∧ (∀ c ∈ pushed, c.Fits g.outputs) ∧
    (g.owners ++ pushed.map Collision.skipped).Perm done

theorem Yields.settled {done : List Text} {g g' : Generation} (h : Yields loader render name g g')
    (hs : Settled done g) (hnew : name ∉ done) : Settled (done ++ [name]) g' := by
  obtain ⟨pushed, hsub, hfits, hperm⟩ := hs
  cases h with
  | @file e shadows free load outputs collisions shadowed =>
    have howners : g'.owners = g.owners ++ [name] := by
      rw [Generation.owners, outputs, List.map_append]
      rfl
    refine ⟨pushed, ?_, fun c hc => ?_, ?_⟩
    · rw [collisions]
      exact hsub.trans (List.sublist_append_left _ _)
    · obtain ⟨⟨o, ho, hkept⟩, hskip, hne⟩ := hfits c hc
      rw [outputs]
      exact ⟨⟨o, List.mem_append_left _ ho, hkept⟩, hskip, hne⟩
    · rw [howners, List.append_assoc]
      refine (List.Perm.append_left g.owners List.perm_append_comm).trans ?_
      rw [← List.append_assoc]
      exact hperm.append_right [name]
  | @collision kept taken outputs collisions =>
    have hkept : kept ∈ g.outputs := List.mem_of_find?_eq_some taken
    have hshort : kept.shortName = Name.short name := by simpa using List.find?_some taken
    refine ⟨pushed ++ [⟨Name.short name, kept.owner, name⟩], ?_, fun c hc => ?_, ?_⟩
    · rw [collisions]
      exact hsub.append_right _
    · rw [outputs]
      rcases List.mem_append.1 hc with hc | hc
      · exact hfits c hc
      · obtain rfl := List.mem_singleton.1 hc
        -- The owner of a file had its turn.
        have howner : kept.owner ∈ done :=
          hperm.subset (List.mem_append_left _ (List.mem_map_of_mem hkept))
        exact ⟨⟨kept, hkept, hshort, rfl⟩, rfl, fun he : kept.owner = name => hnew (he ▸ howner)⟩
    · rw [Generation.owners, outputs, List.map_append, ← List.append_assoc]
      exact hperm.append_right [name]

theorem settled_kept : Kept loader render fun done s => Settled done s.generated := by
  intro done queue name s s' hi hs hq hv
  have turn : Turn loader render name s s' := ⟨queue, hq, hv⟩
  exact turn.yields.settled hs (hi.not_mem_done hq)

/-! ## After any number of turns -/

/-- The names of `names` had their turns. They and those in the queue, which are all that entered it,
do not repeat, and the registry has them. Short names of files do not repeat, and each turn yielded
one thing. -/
structure Progress (r : Registry) (names : List Text) (s : State) : Prop where
  once : (names ++ s.queue).Nodup
  registered : ∀ name ∈ names ++ s.queue, r.contains name = true
  bounded : (names ++ s.queue).length ≤ r.entities.length
  distinct : (s.generated.outputs.map Output.shortName).Nodup
  settled : Settled names s.generated

theorem Turns.progress {r : Registry} {root : Text} {names : List Text} {s : State}
    (hn : r.loader.Answers root) (h : Turns r.loader render names (start root) s) :
    Progress r names s := by
  have settled : Settled [] (start root).generated := ⟨[], List.nil_sublist _, by simp, List.Perm.nil⟩
  have hi := h.invariant (start_invariant hn)
  obtain ⟨-, noted⟩ := h.keeps noted_kept (start_invariant hn) (start_noted root)
  obtain ⟨-, hs⟩ := h.keeps settled_kept (start_invariant hn) settled
  rw [List.nil_append] at hi hs
  have once := hi.nodup
  have answers := hi.answers
  rw [hi.visited] at once answers
  refine ⟨once, fun name hm => ?_, r.loader_bounded _ once answers, noted.distinct, hs⟩
  obtain ⟨reference, scope, hr⟩ := answers name hm
  obtain ⟨e, he⟩ := Registry.exists_of_resolve hr
  exact Option.isSome_iff_exists.2 ⟨e, he⟩

end Closure

/-- **Closures come to an end.** Unless the root stands for nothing, the closure is what turns leave
after which none follows: the queue is empty, or the turn of its first name fails. Names enter the
queue once and are names of the registry, so there are no more turns than entities. Each turn yields a
file or the record of a collision, and keeps the files that are there. -/
theorem generateClosure_terminates (r : Registry) (render : Renderer) (root : Text) :
    (r.resolve root [] = none ∧ generateClosure r.loader render root = .error (.notFound root)) ∨
    ∃ name, r.resolve root [] = some name ∧
      (∀ names s, Closure.Turns r.loader render names (Closure.start name) s →
        Closure.Progress r names s ∧
        ∀ next s', Closure.Turn r.loader render next s s' →
          (∃ rest new, s.queue = next :: rest ∧ s'.queue = rest ++ new) ∧
          Closure.Yields r.loader render next s.generated s'.generated ∧
          s.generated.outputs <+: s'.generated.outputs) ∧
      ∃ names s outcome, Closure.Turns r.loader render names (Closure.start name) s ∧
        Closure.Stops r.loader render s outcome ∧
        generateClosure r.loader render root = outcome.map Closure.State.generated := by
  cases hn : r.resolve root [] with
  | none => exact Or.inl ⟨rfl, generateClosure_unresolved hn⟩
  | some name =>
    refine Or.inr ⟨name, rfl, fun names s turns => ?_, generateClosure_stops render r.loader_bounded hn⟩
    exact ⟨turns.progress ⟨root, [], hn⟩,
      fun next s' turn => ⟨turn.queue, turn.yields, turn.outputs_prefix⟩⟩

end DeclGen
