import DeclGen.Proofs.Generation.Notes
import DeclGen.Proofs.Generation.References

/-!
# Which notes of a closure are true

An entity records one reference for each short name, the first. The others are shadowed: a shadowed
reference that stands for nothing is not noted, and the collision of one that stands for an entity
is that with the first reference, whether or not the latter is generated later.

* `unresolved_iff_first` : what is noted as unresolved, and which references are passed over;
* `Generation.Tells` : a collision is true;
* `collision_told_iff` : which collisions are true, and what explains the others.
-/

namespace DeclGen

/-! ## Unresolved references -/

/-- A field of the entity refers to the name, which is neither builtin nor the entity itself. -/
def Entity.RefersTo (e : Entity) (name : Text) : Prop :=
  ∃ f ∈ e.resolve.fields, name ∈ f.type.references ∧ isBuiltin name = false ∧ e.isSelf name = false

theorem Entity.refersTo_iff {e : Entity} {name : Text} :
    e.RefersTo name ↔ name ∈ e.dependencyReferences := by
  simp [Entity.RefersTo, Entity.mem_dependencyReferences_iff, Entity.dependsOn]

theorem Entity.misses_iff {loader : Loader} {e : Entity} {short : Text} :
    e.Misses loader short ↔
      ∃ name, e.first? short = some name ∧ loader.resolve name e.scope = none := by
  simp only [Entity.Misses, Entity.mem_entries_iff]

/-- **Which references are noted as unresolved.** A short name is noted, and noted once, if in a
generated entity the first reference with it stands for nothing. So every note is true, and a
reference that stands for nothing is passed over only if the first one with its short name stands for
an entity. -/
theorem unresolved_iff_first {r : Registry} {render : Renderer} {root : Text} {g : Generation}
    (h : generateClosure r.loader render root = .ok g) :
    g.unresolved.Nodup ∧
    (∀ short, short ∈ g.unresolved ↔ ∃ e, g.Renders r.loader render e ∧
      ∃ name, e.first? short = some name ∧ r.resolve name e.scope = none) ∧
    (∀ short ∈ g.unresolved, ∃ e, g.Renders r.loader render e ∧
      ∃ name, e.RefersTo name ∧ Name.short name = short ∧ r.resolve name e.scope = none) ∧
    ∀ e, g.Renders r.loader render e → ∀ name, e.RefersTo name → r.resolve name e.scope = none →
      Name.short name ∈ g.unresolved ∨
        ∃ first found, e.first? (Name.short name) = some first ∧ e.RefersTo first ∧
          r.resolve first e.scope = some found := by
  obtain ⟨s, rfl, -, noted⟩ := generateClosure_noted r.loader_bounded h
  have exact : ∀ short, short ∈ s.generated.unresolved ↔
      ∃ e, s.generated.Renders r.loader render e ∧
        ∃ name, e.first? short = some name ∧ r.resolve name e.scope = none := by
    intro short
    rw [noted.unresolved short]
    simp only [Entity.misses_iff]
    rfl
  refine ⟨noted.once, exact, ?_, ?_⟩
  · intro short hs
    obtain ⟨e, he, name, hf, hn⟩ := (exact short).1 hs
    obtain ⟨hm, hshort⟩ := Entity.first?_eq_some hf
    exact ⟨e, he, name, Entity.refersTo_iff.2 hm, hshort, hn⟩
  · intro e he name hname _
    obtain ⟨first, hf⟩ := Entity.exists_first? (Entity.refersTo_iff.1 hname)
    cases hr : r.resolve first e.scope with
    | none => exact Or.inl ((exact _).2 ⟨e, he, first, hf, hr⟩)
    | some found =>
      refine Or.inr ⟨first, found, hf, ?_, hr⟩
      exact Entity.refersTo_iff.2 (Entity.first?_eq_some hf).1

/-- Behind a reference with the same short name, one that stands for nothing is passed over. -/
theorem shadowed_reference_passed_over :
    ∃ (r : Registry) (g : Generation) (e : Entity) (name : Text),
      generateClosure r.loader (fun _ => []) ['R'] = .ok g ∧
      g.Renders r.loader (fun _ => []) e ∧ e.RefersTo name ∧ r.resolve name e.scope = none ∧
      Name.short name ∉ g.unresolved ∧
      ∃ first found, e.first? (Name.short name) = some first ∧ r.resolve first e.scope = some found := by
  let e : Entity := { Entity.ofName .record ['R'] with
    fields := [⟨['a'], "A.I".toList, none, false, false, none⟩,
      ⟨['b'], "B.I".toList, none, false, false, none⟩] }
  let i : Entity := .ofName .record "A.I".toList
  let r : Registry := Registry.empty.extend [e, i]
  have hg : generateClosure r.loader (fun _ => []) ['R'] =
      .ok ⟨[⟨['R'], ['R'], []⟩, ⟨['I'], "A\\I".toList, []⟩], [], []⟩ :=
    eq_ok_of_toOption (by decide +kernel)
  have he : Generation.Renders r.loader (fun _ => [])
      ⟨[⟨['R'], ['R'], []⟩, ⟨['I'], "A\\I".toList, []⟩], [], []⟩ e :=
    ⟨⟨['R'], ['R'], []⟩, by simp, eq_ok_of_toOption (by decide +kernel), by decide, rfl⟩
  have hname : e.RefersTo "B\\I".toList := Entity.refersTo_iff.2 (by decide +kernel)
  have hnone : r.resolve "B\\I".toList e.scope = none := by decide +kernel
  obtain ⟨-, -, -, passed⟩ := unresolved_iff_first hg
  rcases passed e he _ hname hnone with hu | ⟨first, found, hf, -, hr⟩
  · exact absurd hu (by simp)
  · exact ⟨r, _, e, _, hg, he, hname, hnone, by simp, first, found, hf, hr⟩

/-! ## Collisions -/

/-- The collision is true: the output under its short name is the file of the entity that it calls
kept, and there is no file of the entity that it calls skipped. -/
structure Generation.Tells (r : Registry) (render : Renderer) (g : Generation) (c : Collision) : Prop where
  kept : ∃ o e, g.output? c.shortName = some o ∧ o.owner = c.kept ∧ r.get? c.kept = some e ∧
    o.text = render e.resolve
  skipped : ∀ o ∈ g.outputs, o.owner ≠ c.skipped

/-- What the collision of a shadowed reference says: it is one with the first reference. -/
theorem Entity.Shadows.spec {r : Registry} {e : Entity} {c : Collision} (h : e.Shadows r.loader c) :
    ∃ first written, e.first? c.shortName = some first ∧ Name.IsReference first ∧
      Name.short first = c.shortName ∧ c.kept = (r.resolve first e.scope).getD first ∧
      Name.IsReference written ∧ Name.short written = c.shortName ∧
      r.resolve written e.scope = some c.skipped ∧ c.kept ≠ c.skipped := by
  obtain ⟨written, hw, hc⟩ := h
  obtain ⟨first, hget⟩ := e.good_dependencies.shadowed written hw
  have hentry := Dependencies.mem_of_get? hget
  obtain ⟨href, hshort⟩ := e.good_dependencies.entries _ hentry
  cases hr : r.resolve written e.scope with
  | none =>
    have hn : r.loader.resolve written e.resolve.scope = none := hr
    simp only [Closure.shadowing, hn] at hc
    exact absurd hc (by simp)
  | some skipped =>
    have hs := @shadowing_eq r.loader e.resolve written first skipped hget hr
    rw [hs] at hc
    split at hc
    · exact absurd hc (by simp)
    · next hne =>
      obtain rfl := Option.some.inj hc
      exact ⟨first, written, Entity.mem_entries_iff.1 hentry, href, hshort.symm, rfl,
        Entity.isReference_of_mem_shadowed hw, rfl, hr, hne⟩

section Collisions
variable {r : Registry} {render : Renderer} {s : Closure.State} {e : Entity} {c : Collision}

theorem output?_of_mem {o : Output} (noted : Closure.Noted r.loader render s.visited s)
    (ho : o ∈ s.generated.outputs) : s.generated.output? o.shortName = some o := by
  have found : (s.generated.output? o.shortName).isSome = true := by
    rw [Generation.output?, List.find?_isSome]
    exact ⟨o, ho, by simp⟩
  obtain ⟨p, hp⟩ := Option.isSome_iff_exists.1 found
  have hps : p.shortName = o.shortName := by simpa using List.find?_some hp
  rw [hp, noted.eq_of_shortName (List.mem_of_find?_eq_some hp) ho hps]

/-- A collision of an output and another name is true. -/
theorem tells_of_fits (inv : Closure.Invariant r.loader render s.visited s)
    (noted : Closure.Noted r.loader render s.visited s) (hc : c.Fits s.generated.outputs) :
    s.generated.Tells r render c := by
  obtain ⟨⟨o, ho, hs, hown⟩, hskip, hne⟩ := hc
  obtain ⟨e, he, -⟩ := inv.outputs o ho
  have hget := Registry.get?_of_load he.load
  refine ⟨⟨o, e, hs ▸ output?_of_mem noted ho, hown, hown ▸ hget, he.text⟩, ?_⟩
  intro p hp howner
  obtain ⟨d, hd, -⟩ := inv.outputs p hp
  have hps : p.shortName = o.shortName := by rw [hd.shortName, howner, hskip, hs]
  rw [noted.eq_of_shortName hp ho hps, hown] at howner
  exact hne howner

/-- A collision in a closure is true, or that of a shadowed reference. -/
theorem tells_or_shadows (inv : Closure.Invariant r.loader render s.visited s)
    (noted : Closure.Noted r.loader render s.visited s) (hc : c ∈ s.generated.collisions) :
    s.generated.Tells r render c ∨ ∃ e, s.generated.Renders r.loader render e ∧ e.Shadows r.loader c := by
  rcases (noted.collisions c).1 hc with ⟨-, hfits⟩ | hshadow
  · exact Or.inl (tells_of_fits inv noted hfits)
  · exact Or.inr hshadow

/-- The collision of a shadowed reference is true if what it calls kept is generated. -/
theorem tells_of_shadows (inv : Closure.Invariant r.loader render s.visited s)
    (noted : Closure.Noted r.loader render s.visited s) (hw : r.WellNamed) (hc : e.Shadows r.loader c)
    {o : Output} (ho : o ∈ s.generated.outputs) (hown : o.owner = c.kept) :
    s.generated.Tells r render c := by
  obtain ⟨first, written, -, href, hfirst, hkept, hwritten, hshort, hr, hne⟩ := hc.spec
  have hskip : Name.short c.skipped = c.shortName := by
    rw [Registry.short_of_resolve hw hwritten hr, hshort]
  have hkeptName : Name.short c.kept = c.shortName := by
    rw [hkept, ← hfirst]
    cases hf : r.resolve first e.scope with
    | none => rfl
    | some name => exact Registry.short_of_resolve hw href hf
  obtain ⟨d, hd, -⟩ := inv.outputs o ho
  have hs : o.shortName = c.shortName := by rw [hd.shortName, hown, hkeptName]
  exact tells_of_fits inv noted ⟨⟨o, ho, hs, hown⟩, hskip, hne⟩

/-- If what the collision of a shadowed reference calls kept is not generated, it stands for nothing,
or a true collision tells that it was skipped. -/
theorem exists_true_collision (inv : Closure.Invariant r.loader render s.visited s)
    (noted : Closure.Noted r.loader render s.visited s) (hw : r.WellNamed)
    (he : s.generated.Renders r.loader render e) (hc : e.Shadows r.loader c)
    (hlost : ∀ o ∈ s.generated.outputs, o.owner ≠ c.kept) :
    (r.get? c.kept = none ∧ c.shortName ∈ s.generated.unresolved) ∨
      ∃ d ∈ s.generated.collisions, d.skipped = c.kept ∧ d.shortName = c.shortName ∧
        s.generated.Tells r render d := by
  obtain ⟨first, written, hfirst, href, hshort, hkept, -⟩ := hc.spec
  have hentry := Entity.mem_entries_iff.2 hfirst
  cases hr : r.resolve first e.scope with
  | none =>
    left
    rw [hr, Option.getD_none] at hkept
    refine ⟨?_, (noted.unresolved _).2 ⟨e, he, first, hentry, hr⟩⟩
    cases hg : r.get? c.kept with
    | none => rfl
    | some d =>
      rw [hkept] at hg
      obtain ⟨name, hn⟩ := Registry.resolve_isSome href hg e.scope
      rw [hr] at hn
      exact absurd hn (by simp)
  | some name =>
    right
    rw [hr, Option.getD_some] at hkept
    obtain ⟨o, ho, ho'⟩ := he
    obtain ⟨e', he', hf⟩ := inv.outputs o ho
    obtain rfl : e' = e := Except.ok.inj (he'.load.symm.trans ho'.load)
    -- What the first reference stands for had its turn, when its short name was taken.
    have hv : name ∈ s.visited := hf.found _ hentry name hr
    obtain ⟨-, p, hp, hps⟩ := inv.accounts name hv
    have hfits : Collision.Fits s.generated.outputs ⟨p.shortName, p.owner, name⟩ :=
      ⟨⟨p, hp, rfl, rfl⟩, hps.symm, fun hn => hlost p hp (hn.trans hkept.symm)⟩
    refine ⟨_, (noted.collisions _).2 (Or.inl ⟨hv, hfits⟩), hkept.symm, ?_, tells_of_fits inv noted hfits⟩
    show p.shortName = c.shortName
    rw [hps, Registry.short_of_resolve hw href hr, hshort]

end Collisions

/-- **Which collisions are true.** A collision is true, or it is that of a shadowed reference of a
generated entity. Where entities are named by the last segments of their names, a collision is true
if what it calls kept is generated; otherwise that stands for nothing and is noted as unresolved, or
another collision, a true one, tells that it was skipped. -/
theorem collision_told_iff {r : Registry} {render : Renderer} {root : Text} {g : Generation}
    (h : generateClosure r.loader render root = .ok g) {c : Collision} (hc : c ∈ g.collisions) :
    (g.Tells r render c ∨ ∃ e, g.Renders r.loader render e ∧ e.Shadows r.loader c) ∧
    (r.WellNamed →
      (g.Tells r render c ↔ ∃ o ∈ g.outputs, o.owner = c.kept) ∧
      (g.Tells r render c ∨ (r.get? c.kept = none ∧ c.shortName ∈ g.unresolved) ∨
        ∃ d ∈ g.collisions, d.skipped = c.kept ∧ d.shortName = c.shortName ∧ g.Tells r render d)) := by
  obtain ⟨s, rfl, inv, noted⟩ := generateClosure_noted r.loader_bounded h
  have cases := tells_or_shadows inv noted hc
  refine ⟨cases, fun hw => ?_⟩
  have told : s.generated.Tells r render c ↔ ∃ o ∈ s.generated.outputs, o.owner = c.kept := by
    constructor
    · rintro ⟨⟨o, -, ho, hown, -⟩, -⟩
      exact ⟨o, List.mem_of_find?_eq_some ho, hown⟩
    · rintro ⟨o, ho, hown⟩
      rcases cases with ht | ⟨e, -, hs⟩
      · exact ht
      · exact tells_of_shadows inv noted hw hs ho hown
  refine ⟨told, ?_⟩
  rcases cases with ht | ⟨e, he, hs⟩
  · exact Or.inl ht
  · by_cases hkept : ∃ o ∈ s.generated.outputs, o.owner = c.kept
    · exact Or.inl (told.2 hkept)
    · refine Or.inr (exists_true_collision inv noted hw he hs ?_)
      exact fun o ho hown => hkept ⟨o, ho, hown⟩

/-- Of two collisions of one short name, the one of the shadowed reference calls the generated entity
skipped; the other one tells the truth. -/
theorem generated_entity_called_skipped :
    ∃ (r : Registry) (g : Generation) (c : Collision),
      generateClosure r.loader (fun _ => []) ['R'] = .ok g ∧ c ∈ g.collisions ∧
      (∃ o ∈ g.outputs, o.owner = c.skipped) ∧ ¬ g.Tells r (fun _ => []) c ∧
      ∃ d ∈ g.collisions, d.skipped = c.kept ∧ g.Tells r (fun _ => []) d := by
  let root : Entity := { Entity.ofName .record ['R'] with
    fields := [⟨['i'], "B.I".toList, none, false, false, none⟩,
      ⟨['h'], ['H'], none, false, false, none⟩] }
  let holder : Entity := { Entity.ofName .record ['H'] with
    fields := [⟨['a'], "A.I".toList, none, false, false, none⟩,
      ⟨['b'], "B.I".toList, none, false, false, none⟩] }
  let a : Entity := .ofName .record "A.I".toList
  let b : Entity := .ofName .record "B.I".toList
  let r : Registry := Registry.empty.extend [root, holder, a, b]
  let c : Collision := ⟨['I'], "A\\I".toList, "B\\I".toList⟩
  let g : Generation := ⟨[⟨['R'], ['R'], []⟩, ⟨['I'], "B\\I".toList, []⟩, ⟨['H'], ['H'], []⟩], [],
    [c, ⟨['I'], "B\\I".toList, "A\\I".toList⟩]⟩
  have hg : generateClosure r.loader (fun _ => []) ['R'] = .ok g :=
    eq_ok_of_toOption (by decide +kernel)
  have hw : r.WellNamed := by
    refine Registry.wellNamed_extend fun e he => ?_
    simp only [List.mem_cons, List.not_mem_nil, or_false] at he
    rcases he with rfl | rfl | rfl | rfl <;> rfl
  have hc : c ∈ g.collisions := List.mem_cons_self
  have hb : ∃ o ∈ g.outputs, o.owner = c.skipped := ⟨⟨['I'], "B\\I".toList, []⟩, by simp [g], rfl⟩
  have hfalse : ¬ g.Tells r (fun _ => []) c := by
    obtain ⟨o, ho, hown⟩ := hb
    exact fun ht => ht.skipped o ho hown
  obtain ⟨-, told⟩ := collision_told_iff hg hc
  rcases (told hw).2 with ht | ⟨-, hu⟩ | ⟨d, hd, hskip, -, ht⟩
  · exact absurd ht hfalse
  · exact absurd hu (by simp [g])
  · exact ⟨r, g, c, hg, hc, hb, hfalse, d, hd, hskip, ht⟩

end DeclGen
