import DeclGen.Proofs.Entity.Dependencies
import DeclGen.Proofs.Generation.Closure
import Mathlib.Data.List.Nodup

/-!
# What a closure notes

A reference is noted as unresolved if a generated entity has it for an entry and it stands for
nothing there. A collision is noted for two reasons: a name had its turn when its short name was
taken, or a generated entity has a shadowed reference. There are no other notes.

* `Generation.Renders` : an entity is generated;
* `Entity.Misses` : an entry of an entity stands for nothing;
* `Collision.Fits`, `Entity.Shadows` : the two kinds of collisions;
* `Noted` : the notes are exact; `generateClosure_noted` : they are at the end of a closure.
-/

namespace DeclGen

/-- The entity is generated. -/
def Generation.Renders (loader : Loader) (render : Renderer) (g : Generation) (e : Entity) : Prop :=
  ∃ o ∈ g.outputs, o.Renders loader render e

/-- An entry of the entity with the short name stands for nothing. -/
def Entity.Misses (loader : Loader) (e : Entity) (short : Text) : Prop :=
  ∃ written, (short, written) ∈ e.resolve.dependencies.entries ∧
    loader.resolve written e.scope = none

/-- The collision is the one of a shadowed reference of the entity. -/
def Entity.Shadows (loader : Loader) (e : Entity) (c : Collision) : Prop :=
  ∃ written ∈ e.resolve.dependencies.shadowed, Closure.shadowing loader e.resolve written = some c

/-- The collision is that of an output and of another name with the same short name. -/
structure Collision.Fits (outputs : List Output) (c : Collision) : Prop where
  kept : ∃ o ∈ outputs, o.shortName = c.shortName ∧ o.owner = c.kept
  skipped : Name.short c.skipped = c.shortName
  ne : c.kept ≠ c.skipped

namespace Closure
variable {loader : Loader} {render : Renderer} {s s' : State}

/-! ## Turns -/

theorem mem_unresolved_foldl_follow_iff {scope short : Text} {ds : List (Text × Text)} :
    short ∈ (ds.foldl (follow loader scope) s).generated.unresolved ↔
      short ∈ s.generated.unresolved ∨
        ∃ written, (short, written) ∈ ds ∧ loader.resolve written scope = none := by
  induction ds generalizing s with
  | nil => simp
  | cons d ds ih =>
    have hd : short ∈ (follow loader scope s d).generated.unresolved ↔
        short ∈ s.generated.unresolved ∨ d.1 = short ∧ loader.resolve d.2 scope = none := by
      unfold follow
      cases hr : loader.resolve d.2 scope with
      | none => simp [mem_addNew_iff, hr, eq_comm]
      | some name => by_cases hv : name ∈ s.visited <;> simp [hr, hv]
    rw [List.foldl_cons, ih, hd, or_assoc]
    refine or_congr_right ?_
    constructor
    · rintro (⟨rfl, hn⟩ | ⟨written, hm, hn⟩)
      · exact ⟨d.2, List.mem_cons_self, hn⟩
      · exact ⟨written, List.mem_cons_of_mem _ hm, hn⟩
    · rintro ⟨written, hm, hn⟩
      rcases List.mem_cons.1 hm with rfl | hm
      · exact Or.inl ⟨rfl, hn⟩
      · exact Or.inr ⟨written, hm, hn⟩

theorem nodup_addNew {α : Type} [DecidableEq α] {xs : List α} (x : α) (h : xs.Nodup) :
    (addNew xs x).Nodup := by
  unfold addNew
  split
  · exact h
  · next hx =>
    rw [List.nodup_append]
    refine ⟨h, by simp, ?_⟩
    rintro a ha b hb rfl
    exact hx (List.mem_singleton.1 hb ▸ ha)

theorem nodup_unresolved_foldl_follow {scope : Text} (ds : List (Text × Text))
    (h : s.generated.unresolved.Nodup) :
    (ds.foldl (follow loader scope) s).generated.unresolved.Nodup := by
  induction ds generalizing s with
  | nil => exact h
  | cons d ds ih =>
    refine ih ?_
    unfold follow
    cases hr : loader.resolve d.2 scope with
    | none => simpa [hr] using nodup_addNew d.1 h
    | some name => by_cases hv : name ∈ s.visited <;> simpa [hr, hv] using h

section Emit
variable (name : Text) (e : Resolved)

theorem mem_unresolved_emit_iff {short : Text} :
    short ∈ (emit loader render name e s).generated.unresolved ↔
      short ∈ s.generated.unresolved ∨
        ∃ written, (short, written) ∈ e.dependencies.entries ∧ loader.resolve written e.scope = none :=
  mem_unresolved_foldl_follow_iff

theorem mem_collisions_emit_iff {c : Collision} :
    c ∈ (emit loader render name e s).generated.collisions ↔
      c ∈ s.generated.collisions ∨
        ∃ written ∈ e.dependencies.shadowed, shadowing loader e written = some c := by
  have hf : Follows loader e.scope e.dependencies.entries s _ := follows_foldl _ _ _
  rw [← hf.collisions]
  exact mem_foldl_noteShadowed_iff

end Emit

/-! ## Runs -/

/-- The notes of a closure in which the names of `done` had their turns. -/
structure Noted (loader : Loader) (render : Renderer) (done : List Text) (s : State) : Prop where
  owners : ∀ o ∈ s.generated.outputs, o.owner ∈ done
  distinct : (s.generated.outputs.map Output.shortName).Nodup
  once : s.generated.unresolved.Nodup
  unresolved : ∀ short, short ∈ s.generated.unresolved ↔
    ∃ e, s.generated.Renders loader render e ∧ e.Misses loader short
  collisions : ∀ c, c ∈ s.generated.collisions ↔
    (c.skipped ∈ done ∧ c.Fits s.generated.outputs) ∨
      ∃ e, s.generated.Renders loader render e ∧ e.Shadows loader c

theorem start_noted (name : Text) : Noted loader render [] (start name) where
  owners o ho := absurd ho (by simp [start, Generation.empty])
  distinct := by simp [start, Generation.empty]
  once := by simp [start, Generation.empty]
  unresolved short := by simp [start, Generation.empty, Generation.Renders]
  collisions c := by simp [start, Generation.empty, Generation.Renders]

/-- A name that is about to have its turn had none before. -/
theorem Invariant.not_mem_done {done queue : List Text} {name : Text}
    (h : Invariant loader render done s) (hq : s.queue = name :: queue) : name ∉ done := by
  have hn := h.nodup
  rw [h.visited, hq, List.nodup_append] at hn
  exact fun hm => hn.2.2 name hm name List.mem_cons_self rfl

theorem Noted.eq_of_shortName {done : List Text} (h : Noted loader render done s) {o p : Output}
    (ho : o ∈ s.generated.outputs) (hp : p ∈ s.generated.outputs) (hs : o.shortName = p.shortName) :
    o = p :=
  List.inj_on_of_nodup_map h.distinct ho hp hs

theorem skip_noted {done queue : List Text} {name : Text} {kept : Output}
    (h : Noted loader render done s) (hnew : name ∉ done)
    (hk : s.generated.output? (Name.short name) = some kept) :
    Noted loader render (done ++ [name]) { s with
      queue
      generated := { s.generated with collisions :=
        s.generated.collisions ++ [⟨Name.short name, kept.owner, name⟩] } } := by
  have hm : kept ∈ s.generated.outputs := List.mem_of_find?_eq_some hk
  have hs : kept.shortName = Name.short name := by simpa using List.find?_some hk
  refine ⟨fun o ho => List.mem_append_left _ (h.owners o ho), h.distinct, h.once, h.unresolved, ?_⟩
  intro c
  show c ∈ s.generated.collisions ++ [⟨Name.short name, kept.owner, name⟩] ↔
    (c.skipped ∈ done ++ [name] ∧ c.Fits s.generated.outputs) ∨
      ∃ e, s.generated.Renders loader render e ∧ e.Shadows loader c
  rw [List.mem_append, List.mem_singleton, List.mem_append, List.mem_singleton, h.collisions c]
  constructor
  · rintro ((⟨hd, hc⟩ | he) | rfl)
    · exact Or.inl ⟨Or.inl hd, hc⟩
    · exact Or.inr he
    · refine Or.inl ⟨Or.inr rfl, ⟨kept, hm, hs, rfl⟩, rfl, ?_⟩
      have howner := h.owners kept hm
      rintro (rfl : kept.owner = name)
      exact hnew howner
  · rintro (⟨hd | hd, hc⟩ | he)
    · exact Or.inl (Or.inl ⟨hd, hc⟩)
    · -- The output that was kept is the only one of this short name.
      obtain ⟨o, ho, hos, hown⟩ := hc.kept
      have hshort : c.shortName = Name.short name := by rw [← hc.skipped, hd]
      have hok : o = kept := h.eq_of_shortName ho hm (by rw [hos, hs, hshort])
      right
      obtain ⟨short, k, skipped⟩ := c
      simp only at hshort hown hd
      rw [hshort, ← hown, hd, hok]
    · exact Or.inl (Or.inr he)

theorem emit_noted {done queue : List Text} {name : Text} {e : Entity}
    (h : Noted loader render done s) (hi : Invariant loader render done s)
    (hfree : s.generated.output? (Name.short name) = none) (hl : loader.load name = .ok e) :
    Noted loader render (done ++ [name]) (emit loader render name e.resolve { s with queue }) := by
  let o : Output := ⟨Name.short name, name, render e.resolve⟩
  have houts : (emit loader render name e.resolve { s with queue }).generated.outputs =
      s.generated.outputs ++ [o] := outputs_emit name e.resolve { s with queue }
  have hunused : ∀ p ∈ s.generated.outputs, p.shortName ≠ Name.short name := by
    intro p hp hs
    have := List.find?_eq_none.1 hfree p hp
    simp [hs] at this
  have hrenders : ∀ d, (emit loader render name e.resolve { s with queue }).generated.Renders loader render d ↔
      s.generated.Renders loader render d ∨ d = e := by
    intro d
    unfold Generation.Renders
    rw [houts]
    constructor
    · rintro ⟨p, hp, hd⟩
      rcases List.mem_append.1 hp with hp | hp
      · exact Or.inl ⟨p, hp, hd⟩
      · obtain rfl := List.mem_singleton.1 hp
        exact Or.inr (Except.ok.inj (hd.load.symm.trans hl))
    · rintro (⟨p, hp, hd⟩ | rfl)
      · exact ⟨p, List.mem_append_left _ hp, hd⟩
      · exact ⟨o, List.mem_append_right _ List.mem_cons_self, hl, rfl, rfl⟩
  refine ⟨?_, ?_, nodup_unresolved_foldl_follow _ h.once, ?_, ?_⟩
  · intro p hp
    rw [houts] at hp
    rcases List.mem_append.1 hp with hp | hp
    · exact List.mem_append_left _ (h.owners p hp)
    · rw [List.mem_singleton.1 hp]
      exact List.mem_append_right _ List.mem_cons_self
  · rw [houts, List.map_append, List.nodup_append]
    refine ⟨h.distinct, by simp, ?_⟩
    intro short hs other ho
    obtain ⟨p, hp, rfl⟩ := List.mem_map.1 hs
    rw [List.map_singleton, List.mem_singleton] at ho
    rw [ho]
    exact hunused p hp
  · intro short
    simp only [hrenders, mem_unresolved_emit_iff, h.unresolved short, or_and_right, exists_or, exists_eq_left]
    rfl
  · intro c
    have hfits : (c.skipped ∈ done ++ [name] ∧
        c.Fits (emit loader render name e.resolve { s with queue }).generated.outputs) ↔
          c.skipped ∈ done ∧ c.Fits s.generated.outputs := by
      constructor
      · rintro ⟨hd, ⟨p, hp, hps, hown⟩, hskip, hne⟩
        rw [houts] at hp
        rcases List.mem_append.1 hp with hp | hp
        · rcases List.mem_append.1 hd with hd | hd
          · exact ⟨hd, ⟨p, hp, hps, hown⟩, hskip, hne⟩
          · -- No output has the short name of the one whose turn it is.
            refine absurd ?_ (hunused p hp)
            rw [hps, ← hskip, List.mem_singleton.1 hd]
        · obtain rfl := List.mem_singleton.1 hp
          rcases List.mem_append.1 hd with hd | hd
          · -- What had its turn has an output of its short name.
            obtain ⟨q, hq, hqs⟩ := (hi.accounts _ hd).2
            exact absurd (hqs.trans (hskip.trans hps.symm)) (hunused q hq)
          · exact absurd (hown.symm.trans (List.mem_singleton.1 hd).symm) hne
      · rintro ⟨hd, ⟨p, hp, hps, hown⟩, hskip, hne⟩
        refine ⟨List.mem_append_left _ hd, ⟨p, ?_, hps, hown⟩, hskip, hne⟩
        rw [houts]
        exact List.mem_append_left _ hp
    simp only [hfits, hrenders, mem_collisions_emit_iff, h.collisions c, or_and_right, exists_or,
      exists_eq_left, or_assoc]
    rfl

theorem noted_kept : Kept loader render (Noted loader render) := by
  intro done queue name s s' hi h hq hv
  rcases visit_cases hv with ⟨kept, hk, rfl⟩ | ⟨hfree, e, hl, rfl⟩
  · exact skip_noted (s := s) h (hi.not_mem_done hq) hk
  · exact emit_noted h hi hfree hl

end Closure

/-- The notes of a closure are exact. -/
theorem generateClosure_noted {loader : Loader} {render : Renderer} {root : Text} {g : Generation}
    (hb : loader.Bounded) (h : generateClosure loader render root = .ok g) :
    ∃ s, s.generated = g ∧ Closure.Invariant loader render s.visited s ∧
      Closure.Noted loader render s.visited s := by
  obtain ⟨s, hs, -, hi, hn⟩ :=
    generateClosure_final Closure.noted_kept (fun name _ => Closure.start_noted name) hb h
  exact ⟨s, hs, hi, hn⟩

end DeclGen
