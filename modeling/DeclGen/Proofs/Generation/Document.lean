import DeclGen.Proofs.Document.Names
import DeclGen.Proofs.Entity.Validation
import DeclGen.Proofs.Generation.References
import DeclGen.Proofs.TypeScript.Imports
import Mathlib.Data.List.Nodup

/-!
# What a document generates

The closures of the entities of a document are merged: of the files with one short name the first
is kept, whatever entity it belongs to, while collisions are only those that the closures note.

* `output?_foldl_merge`, `mem_unresolved_foldl_merge_iff`, `mem_collisions_foldl_merge_iff` : what is
  in merged generations;
* `closureOf`, `generateDocument_eq_ok` : the closures of a document;
* `references_generated` : no reference is lost;
* `reports_iff` : which entities disappear without a trace.
-/

namespace DeclGen

/-! ## Merging -/

theorem output?_addOutput (outputs : List Output) (o : Output) (short : Text) :
    (addOutput outputs o).find? (·.shortName = short) =
      (outputs.find? (·.shortName = short)).or ([o].find? (·.shortName = short)) := by
  unfold addOutput
  split
  · next h =>
    by_cases ho : o.shortName = short
    · obtain ⟨p, hp, hs⟩ := List.any_eq_true.1 h
      have found : (outputs.find? (·.shortName = short)).isSome = true := by
        rw [List.find?_isSome]
        exact ⟨p, hp, by simpa [ho] using hs⟩
      rw [Option.or_of_isSome found]
    · simp [ho]
  · rw [List.find?_append]

theorem output?_foldl_addOutput (added outputs : List Output) (short : Text) :
    (added.foldl addOutput outputs).find? (·.shortName = short) =
      (outputs.find? (·.shortName = short)).or (added.find? (·.shortName = short)) := by
  induction added generalizing outputs with
  | nil => simp
  | cons o added ih =>
    rw [List.foldl_cons, ih, output?_addOutput, Option.or_assoc, ← List.find?_append]
    rfl

namespace Generation

/-- Of two files with one short name, the first is kept. -/
theorem output?_merge (g h : Generation) (short : Text) :
    (g.merge h).output? short = (g.output? short).or (h.output? short) :=
  output?_foldl_addOutput h.outputs g.outputs short

theorem output?_foldl_merge (cs : List Generation) (g : Generation) (short : Text) :
    (cs.foldl merge g).output? short = (g.output? short).or (cs.findSome? (·.output? short)) := by
  induction cs generalizing g with
  | nil => simp
  | cons c cs ih =>
    rw [List.foldl_cons, ih, output?_merge, Option.or_assoc, List.findSome?_cons]
    cases c.output? short <;> rfl

end Generation

theorem mem_foldl_addNew_iff {α : Type} [DecidableEq α] {xs ys : List α} {x : α} :
    x ∈ ys.foldl addNew xs ↔ x ∈ xs ∨ x ∈ ys := by
  induction ys generalizing xs with
  | nil => simp
  | cons y ys ih => rw [List.foldl_cons, ih, mem_addNew_iff, List.mem_cons, or_assoc]

theorem mem_of_mem_foldl_addOutput {added outputs : List Output} {o : Output}
    (h : o ∈ added.foldl addOutput outputs) : o ∈ outputs ∨ o ∈ added := by
  induction added generalizing outputs with
  | nil => exact Or.inl h
  | cons p added ih =>
    rcases ih h with ho | ho
    · unfold addOutput at ho
      split at ho
      · exact Or.inl ho
      · rcases List.mem_append.1 ho with ho | ho
        · exact Or.inl ho
        · exact Or.inr (List.mem_cons.2 (Or.inl (List.mem_singleton.1 ho)))
    · exact Or.inr (List.mem_cons_of_mem _ ho)

namespace Generation
variable {cs : List Generation} {g : Generation}

theorem mem_outputs_foldl_merge {o : Output} (h : o ∈ (cs.foldl merge g).outputs) :
    o ∈ g.outputs ∨ ∃ c ∈ cs, o ∈ c.outputs := by
  induction cs generalizing g with
  | nil => exact Or.inl h
  | cons c cs ih =>
    rcases ih h with ho | ⟨d, hd, ho⟩
    · rcases mem_of_mem_foldl_addOutput ho with ho | ho
      · exact Or.inl ho
      · exact Or.inr ⟨c, List.mem_cons_self, ho⟩
    · exact Or.inr ⟨d, List.mem_cons_of_mem _ hd, ho⟩

/-- A list that merging joins holds what the lists of the merged generations hold. -/
theorem mem_foldl_merge_iff {α : Type} {part : Generation → List α} {x : α}
    (joined : ∀ g h, x ∈ part (g.merge h) ↔ x ∈ part g ∨ x ∈ part h) :
    x ∈ part (cs.foldl merge g) ↔ x ∈ part g ∨ ∃ c ∈ cs, x ∈ part c := by
  induction cs generalizing g with
  | nil => simp
  | cons c cs ih =>
    rw [List.foldl_cons, ih, joined, or_assoc]
    simp only [List.mem_cons, exists_eq_or_imp]

theorem mem_unresolved_foldl_merge_iff {short : Text} :
    short ∈ (cs.foldl merge g).unresolved ↔ short ∈ g.unresolved ∨ ∃ c ∈ cs, short ∈ c.unresolved :=
  mem_foldl_merge_iff fun _ _ => mem_foldl_addNew_iff

theorem mem_collisions_foldl_merge_iff {k : Collision} :
    k ∈ (cs.foldl merge g).collisions ↔ k ∈ g.collisions ∨ ∃ c ∈ cs, k ∈ c.collisions :=
  mem_foldl_merge_iff fun _ _ => mem_foldl_addNew_iff

theorem output?_isSome_iff {short : Text} : (g.output? short).isSome = true ↔ g.Holds short := by
  simp [output?, Holds]

theorem holds_foldl_merge_iff {short : Text} :
    (cs.foldl merge g).Holds short ↔ g.Holds short ∨ ∃ c ∈ cs, c.Holds short := by
  simp only [← output?_isSome_iff, output?_foldl_merge, Option.isSome_or, Bool.or_eq_true,
    List.findSome?_isSome_iff]

end Generation

/-! ## The closures of a document -/

theorem generateAll_eq_ok {loader : Loader} {render : Renderer} {names : List Text} :
    ∀ {start g : Generation},
      names.foldlM (fun g name => do return g.merge (← generateClosure loader render name)) start = .ok g →
        ∃ cs, names.mapM (generateClosure loader render) = .ok cs ∧ g = cs.foldl Generation.merge start := by
  induction names with
  | nil =>
    intro start g h
    exact ⟨[], rfl, (Except.ok.inj h).symm⟩
  | cons name names ih =>
    intro start g h
    rw [List.foldlM_cons] at h
    obtain ⟨merged, hm, h⟩ := bind_eq_ok_iff.1 h
    obtain ⟨c, hc, hm⟩ := bind_eq_ok_iff.1 hm
    obtain rfl := Except.ok.inj hm
    obtain ⟨cs, hcs, rfl⟩ := ih h
    refine ⟨c :: cs, ?_, rfl⟩
    rw [List.mapM_cons, hc, hcs]
    rfl

/-- The closure of an entity of a document. -/
def closureOf (es : List Entity) (e : Entity) : Except GenerationError Generation :=
  generateClosure (Registry.empty.extend es).loader (TypeScript.render .default) e.qualifiedName

/-- What is generated for a document is merged from the closures of its entities, whose qualified
names are distinct. -/
theorem generateDocument_eq_ok {t : Text} {g : Generation} (h : generateDocument t = .ok g) :
    ∃ es cs, Document.parse t = .ok es ∧ (es.map Entity.qualifiedName).Nodup ∧
      es.mapM (closureOf es) = .ok cs ∧ g = cs.foldl Generation.merge .empty := by
  unfold generateDocument at h
  split at h
  · exact absurd h (by simp)
  · next es hes =>
    split at h
    · exact absurd h (by simp)
    · next hv =>
      obtain ⟨cs, hcs, hg⟩ := generateAll_eq_ok h
      rw [List.mapM_map] at hcs
      exact ⟨es, cs, hes, (validateAll_eq_ok_iff.1 hv).2, hcs, hg⟩

/-- The references of what a document generates are not lost. -/
theorem holds_of_imports {t : Text} {g : Generation} (h : generateDocument t = .ok g) {o : Output}
    (ho : o ∈ g.outputs) {name : Text} (hi : TypeScript.Imports .default o.text name) :
    g.Holds name ∨ name ∈ g.unresolved := by
  obtain ⟨es, cs, hes, -, hcs, rfl⟩ := generateDocument_eq_ok h
  rcases Generation.mem_outputs_foldl_merge ho with ho | ⟨c, hc, ho⟩
  · exact absurd ho (by simp [Generation.empty])
  · obtain ⟨root, -, hroot⟩ := exists_of_mem_mapM hcs c hc
    have hw := Registry.wellNamed_extend (Document.parse_wellNamed hes)
    obtain ⟨e, he, hclosed⟩ := generateClosure_closed (Registry.loader_bounded _) hroot o ho
    rw [he.text] at hi
    have hname := (List.mem_filter.1 (TypeScript.imports_render_iff.1 hi)).1
    obtain ⟨d, hd, rfl⟩ := List.mem_map.1 hname
    rcases holds_of_dependency hw hclosed hd with hh | hu
    · exact Or.inl (Generation.holds_foldl_merge_iff.2 (Or.inr ⟨c, hc, hh⟩))
    · exact Or.inr (Generation.mem_unresolved_foldl_merge_iff.2 (Or.inr ⟨c, hc, hu⟩))

/-- The entity's own file stands under its short name, or a collision tells that it was skipped. -/
def Generation.Reports (g : Generation) (e : Entity) : Prop :=
  (∃ o, g.output? e.shortName = some o ∧ o.owner = e.qualifiedName ∧
      o.text = TypeScript.render .default e.resolve) ∨
    ∃ k ∈ g.collisions, k.skipped = e.qualifiedName

section Documents
variable {t : Text} {es : List Entity} {cs : List Generation} {e : Entity}

/-- The closure of an entity has its file. -/
theorem exists_own_output (hes : Document.parse t = .ok es) (hcs : es.mapM (closureOf es) = .ok cs)
    (he : e ∈ es) (hn : Name.normalize e.qualifiedName = e.qualifiedName) :
    ∃ c ∈ cs, ∃ o, c.output? e.shortName = some o ∧ o.owner = e.qualifiedName := by
  obtain ⟨c, hc, hclosure⟩ := exists_of_mapM hcs e he
  have hm : (Registry.empty.extend es).contains e.qualifiedName = true :=
    Registry.contains_extend (Or.inr (List.mem_map_of_mem he))
  obtain ⟨o, ho, hown⟩ := generateClosure_root (Registry.loader_bounded _) (Registry.resolve_self hm hn) hclosure
  rw [← Document.parse_wellNamed hes e he] at ho
  exact ⟨c, hc, o, ho, hown⟩

/-- The files of closures are those of entities of the document, under their short names. -/
theorem exists_owner (hes : Document.parse t = .ok es) (hcs : es.mapM (closureOf es) = .ok cs)
    {c : Generation} (hc : c ∈ cs) {o : Output} (ho : o ∈ c.outputs) :
    ∃ d ∈ es, d.qualifiedName = o.owner ∧ d.shortName = o.shortName ∧
      o.text = TypeScript.render .default d.resolve := by
  obtain ⟨root, -, hroot⟩ := exists_of_mem_mapM hcs c hc
  obtain ⟨d, hd, -⟩ := generateClosure_closed (Registry.loader_bounded _) hroot o ho
  obtain ⟨hmem, hq⟩ := Registry.mem_of_get? (Registry.get?_of_load hd.load)
  have hm : d ∈ es := (Registry.mem_extend hmem).resolve_left (by simp [Registry.empty])
  refine ⟨d, hm, hq, ?_, hd.text⟩
  rw [Document.parse_wellNamed hes d hm, hq, hd.shortName]

theorem output?_merged (cs : List Generation) (short : Text) :
    (cs.foldl Generation.merge .empty).output? short = cs.findSome? (·.output? short) :=
  Generation.output?_foldl_merge cs .empty short

/-- What stands under a short name is the file of an entity of the document with that name. -/
theorem exists_owner_of_output? (hes : Document.parse t = .ok es)
    (hcs : es.mapM (closureOf es) = .ok cs) {short : Text} {o : Output}
    (ho : cs.findSome? (·.output? short) = some o) :
    ∃ d ∈ es, d.qualifiedName = o.owner ∧ d.shortName = short ∧
      o.text = TypeScript.render .default d.resolve := by
  obtain ⟨c, hc, hout⟩ := List.exists_of_findSome?_eq_some ho
  obtain ⟨d, hd, hq, hs, htext⟩ := exists_owner hes hcs hc (List.mem_of_find?_eq_some hout)
  have hshort : o.shortName = short := by simpa using List.find?_some hout
  exact ⟨d, hd, hq, hs.trans hshort, htext⟩

/-- An entity is reported if the first closure with a file of its short name has its file, or a
closure notes a collision that skips it. -/
theorem reports_merged_iff (hes : Document.parse t = .ok es)
    (hnames : (es.map Entity.qualifiedName).Nodup) (hcs : es.mapM (closureOf es) = .ok cs)
    (he : e ∈ es) : (cs.foldl Generation.merge .empty).Reports e ↔
      (∃ o, cs.findSome? (·.output? e.shortName) = some o ∧ o.owner = e.qualifiedName) ∨
        ∃ c ∈ cs, ∃ k ∈ c.collisions, k.skipped = e.qualifiedName := by
  unfold Generation.Reports
  rw [output?_merged]
  refine or_congr ?_ ?_
  · constructor
    · rintro ⟨o, ho, hown, -⟩
      exact ⟨o, ho, hown⟩
    · rintro ⟨o, ho, hown⟩
      obtain ⟨d, hd, hq, -, htext⟩ := exists_owner_of_output? hes hcs ho
      obtain rfl := List.inj_on_of_nodup_map hnames hd he (hq.trans hown)
      exact ⟨o, ho, hown, htext⟩
  · simp only [Generation.mem_collisions_foldl_merge_iff]
    constructor
    · rintro ⟨k, hk | ⟨c, hc, hk⟩, hs⟩
      · exact absurd hk (by simp [Generation.empty])
      · exact ⟨c, hc, k, hk, hs⟩
    · rintro ⟨c, hc, k, hk, hs⟩
      exact ⟨k, Or.inr ⟨c, hc, hk⟩, hs⟩

/-- An entity that is not reported lost its short name to another one, which is. -/
theorem exists_other_of_lost (hes : Document.parse t = .ok es)
    (hnames : (es.map Entity.qualifiedName).Nodup) (hcs : es.mapM (closureOf es) = .ok cs)
    (he : e ∈ es) (hn : Name.normalize e.qualifiedName = e.qualifiedName)
    (hlost : ¬ (cs.foldl Generation.merge .empty).Reports e) :
    ∃ d ∈ es, d.qualifiedName ≠ e.qualifiedName ∧ d.shortName = e.shortName ∧
      (cs.foldl Generation.merge .empty).Reports d := by
  -- The entity's own closure has a file of this short name, so there is a first one.
  obtain ⟨c, hc, o, ho, -⟩ := exists_own_output hes hcs he hn
  have found : (cs.findSome? (·.output? e.shortName)).isSome = true :=
    List.findSome?_isSome_iff.2 ⟨c, hc, by rw [ho]; rfl⟩
  obtain ⟨first, hfirst⟩ := Option.isSome_iff_exists.1 found
  obtain ⟨d, hd, hq, hs, htext⟩ := exists_owner_of_output? hes hcs hfirst
  refine ⟨d, hd, ?_, hs, Or.inl ⟨first, ?_, hq.symm, htext⟩⟩
  · intro hsame
    rw [reports_merged_iff hes hnames hcs he] at hlost
    exact hlost (Or.inl ⟨first, hfirst, hq.symm.trans hsame⟩)
  · rw [output?_merged, hs, hfirst]

end Documents

/-- **Which entities disappear.** An entity is reported unless the first closure with a file of its
short name has that of another entity, and no closure notes a collision that skips it. One that is
not reported lost its short name to another entity, which is reported. -/
theorem reports_iff {t : Text} {g : Generation} (h : generateDocument t = .ok g) :
    ∃ es cs, Document.parse t = .ok es ∧ es.mapM (closureOf es) = .ok cs ∧ ∀ e ∈ es,
      (g.Reports e ↔
        (∃ o, cs.findSome? (·.output? e.shortName) = some o ∧ o.owner = e.qualifiedName) ∨
          ∃ c ∈ cs, ∃ k ∈ c.collisions, k.skipped = e.qualifiedName) ∧
      (Name.normalize e.qualifiedName = e.qualifiedName → ¬ g.Reports e →
        ∃ d ∈ es, d.qualifiedName ≠ e.qualifiedName ∧ d.shortName = e.shortName ∧ g.Reports d) := by
  obtain ⟨es, cs, hes, hnames, hcs, rfl⟩ := generateDocument_eq_ok h
  refine ⟨es, cs, hes, hcs, fun e he => ⟨reports_merged_iff hes hnames hcs he, ?_⟩⟩
  intro hn hlost
  exact exists_other_of_lost hes hnames hcs he hn hlost

/-- Of two entities with one short name that do not refer to each other, the second disappears. -/
theorem second_namesake_lost :
    ∃ t g es e, generateDocument t = .ok g ∧ Document.parse t = .ok es ∧ e ∈ es ∧ ¬ g.Reports e ∧
      ∃ d ∈ es, d.qualifiedName ≠ e.qualifiedName ∧ d.shortName = e.shortName := by
  let t : Text := "<entity name='A.X'/><entity name='B.X'/>".toList
  let a : Entity := .ofName .record "A.X".toList
  let b : Entity := .ofName .record "B.X".toList
  let o : Output := ⟨['X'], a.qualifiedName, "export interface X \x7b\n\x7d\n".toList⟩
  have hg : generateDocument t = .ok ⟨[o], [], []⟩ := eq_ok_of_toOption (by decide +kernel)
  have hes : Document.parse t = .ok [a, b] := eq_ok_of_toOption (by decide +kernel)
  have hlost : ¬ Generation.Reports ⟨[o], [], []⟩ b := by
    rintro (⟨p, hp, hown, -⟩ | ⟨k, hk, -⟩)
    · have hm : p ∈ [o] := List.mem_of_find?_eq_some hp
      rw [List.mem_singleton.1 hm] at hown
      exact absurd hown (by decide +kernel)
    · exact absurd hk (by simp)
  obtain ⟨es, cs, hes', -, he⟩ := reports_iff hg
  obtain rfl : [a, b] = es := Except.ok.inj (hes.symm.trans hes')
  obtain ⟨d, hd, hne, hs, -⟩ := (he b (by simp)).2 (by decide +kernel) hlost
  exact ⟨t, _, _, b, hg, hes, by simp, hlost, d, hd, hne, hs⟩

end DeclGen
