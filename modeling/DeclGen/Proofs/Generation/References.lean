import DeclGen.Proofs.Entity.Dependencies
import DeclGen.Proofs.Generation.Closure

/-!
# No reference of a closure is lost

A reference of a generated entity is recorded among its dependencies, where it is followed, or lost
its short name to another one; then a collision is noted, unless the two stand for one entity.

* `accounts_of_reference` : what a reference stands for is generated or skipped in a collision;
* `holds_of_dependency` : a dependency has an output, or is noted as unresolved.
-/

namespace DeclGen
variable {r : Registry} {g : Generation} {e : Entity}

/-- The collision of a shadowed reference, if it stands for an entity. -/
theorem shadowing_eq {loader : Loader} {e : Resolved} {written kept name : Text}
    (hk : e.dependencies.get? (Name.short written) = some kept)
    (hn : loader.resolve written e.scope = some name) :
    Closure.shadowing loader e written =
      if (loader.resolve kept e.scope).getD kept = name then none
      else some ⟨Name.short written, (loader.resolve kept e.scope).getD kept, name⟩ := by
  simp only [Closure.shadowing, hn, hk, Option.getD_some]

/-- A shadowed reference has a collision, unless it stands for what the entry stands for. -/
theorem accounts_of_shadowed (hc : Closed r.loader g e) {written name : Text}
    (hw : written ∈ e.resolve.dependencies.shadowed) (hn : r.resolve written e.scope = some name) :
    g.Accounts name := by
  have good := e.good_dependencies
  obtain ⟨kept, hk⟩ := good.shadowed written hw
  have hentry := Dependencies.mem_of_get? hk
  have hs := @shadowing_eq r.loader e.resolve written kept name hk hn
  have collided : (r.resolve kept e.scope).getD kept ≠ name → g.Accounts name := by
    intro hne
    exact Or.inr ⟨_, hc.shadowed written hw _ (hs.trans (if_neg hne)), rfl⟩
  cases hr : r.resolve kept e.scope with
  | some other =>
    by_cases he : other = name
    · exact he ▸ (hc.found _ hentry other hr).1
    · refine collided ?_
      rwa [hr, Option.getD_some]
  | none =>
    -- The entry stands for nothing, so it is no name that the registry gives.
    refine collided ?_
    rw [hr, Option.getD_none]
    rintro rfl
    obtain ⟨d, hd⟩ := Registry.exists_of_resolve hn
    obtain ⟨found, hf⟩ := Registry.resolve_isSome (good.entries _ hentry).1 hd e.scope
    rw [hr] at hf
    exact absurd hf (by simp)

/-- What a reference of a generated entity stands for is generated or skipped in a collision. -/
theorem accounts_of_reference (hc : Closed r.loader g e) {f : ResolvedField} (hf : f ∈ e.resolve.fields)
    {reference : Text} (hr : reference ∈ f.type.references) (hb : isBuiltin reference = false)
    (hs : e.isSelf reference = false) {name : Text} (hn : r.resolve reference e.scope = some name) :
    g.Accounts name := by
  have hd : e.dependsOn reference = true := by rw [Entity.dependsOn, hb, hs]; rfl
  rcases Entity.records_of_mem_fields hf hr hd with he | hw
  · exact (hc.found _ he name hn).1
  · exact accounts_of_shadowed hc hw hn

/-- A dependency has an output under its short name, or is noted as unresolved. -/
theorem holds_of_dependency (hw : r.WellNamed) (hc : Closed r.loader g e) {d : Text × Text}
    (hd : d ∈ e.resolve.dependencies.entries) : g.Holds d.1 ∨ d.1 ∈ g.unresolved := by
  obtain ⟨href, hshort⟩ := e.good_dependencies.entries d hd
  cases hr : r.resolve d.2 e.scope with
  | none => exact Or.inr (hc.missed d hd hr)
  | some name =>
    have hn := Registry.short_of_resolve hw href hr
    rw [hshort, ← hn]
    exact Or.inl (hc.found d hd name hr).2

end DeclGen
