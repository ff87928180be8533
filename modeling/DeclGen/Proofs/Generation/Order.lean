import DeclGen.Proofs.Generation.Agreement
import DeclGen.Proofs.Generation.Document
import DeclGen.Proofs.Loader.Order

/-!
# What does not depend on the order of the entities

A closure asks a registry only what references stand for and what entities are, so it is the same for
every order of the registry. The closures of a document are merged in the order of its entities. Where
their short names are distinct, a file of a short name can only be that of the one entity with this name,
so every closure that has the file has the same, and it does not matter which one is merged first.

* `closure_of_same_entities` : closures over registries with the same entities;
* `Entity.file`, `output?_of_distinct` : the files of a document with distinct short names;
* `nodup_shortNames_foldl_merge` : merging keeps the short names of files distinct;
* `exists_generateDocument` : a document is generated if its entities are valid and their closures are;
* `files_of_distinct_names` : one file for each entity, in whatever order they stand.
-/

namespace DeclGen

/-- **The order of insertion does not matter.** Two registries with the same set of entities resolve
every reference in every scope alike, and the closures of every root have the same outcome. -/
theorem closure_of_same_entities {es es' : List Entity}
    (same : ∀ e, e ∈ (Registry.empty.extend es).entities ↔ e ∈ (Registry.empty.extend es').entities) :
    (∀ reference scope, (Registry.empty.extend es).resolve reference scope =
      (Registry.empty.extend es').resolve reference scope) ∧
    ∀ render root, generateClosure (Registry.empty.extend es).loader render root =
      generateClosure (Registry.empty.extend es').loader render root := by
  have h := Registry.rearranges_of_mem_iff (Registry.nodup_names_ofList es)
    (Registry.nodup_names_ofList es') same
  refine ⟨h.resolve_eq, fun render root => ?_⟩
  rw [h.loader_eq]

/-- Registries in opposite orders, one of them after a replacement: a reference that only its short
name resolves, one that is ambiguous, and one that loses its short name. -/
theorem closure_of_same_entities_reversed :
    ∃ es es' : List Entity, ∃ g,
      (Registry.empty.extend es).entities ≠ (Registry.empty.extend es').entities ∧
      (Registry.empty.extend es').resolve ['U'] ['P'] = some "C\\U".toList ∧
      generateClosure (Registry.empty.extend es).loader Resolved.qualifiedName ['R'] = .ok g ∧
      generateClosure (Registry.empty.extend es').loader Resolved.qualifiedName ['R'] = .ok g ∧
      g.owners = ["P\\R".toList, "C\\U".toList] ∧ g.unresolved = [['I']] ∧ g.collisions.length = 1 := by
  let root : Entity := .ofReferences "P.R".toList [['I'], "A.I".toList, ['U']]
  let a : Entity := .ofReferences "A.I".toList []
  let b : Entity := .ofReferences "B.I".toList []
  let u : Entity := .ofReferences "C.U".toList [['R']]
  let es : List Entity := [root, a, b, u]
  let es' : List Entity := [u, .ofReferences "A.I".toList [['R']], b, a, root]
  let g : Generation := ⟨[⟨['R'], "P\\R".toList, "P\\R".toList⟩, ⟨['U'], "C\\U".toList, "C\\U".toList⟩],
    [['I']], [⟨['I'], ['I'], "A\\I".toList⟩]⟩
  have same : (Registry.empty.extend es).entities.Perm (Registry.empty.extend es').entities := by
    decide +kernel
  obtain ⟨resolves, closures⟩ := closure_of_same_entities fun e => same.mem_iff
  have hg : generateClosure (Registry.empty.extend es).loader Resolved.qualifiedName ['R'] = .ok g :=
    eq_ok_of_toOption (by decide +kernel)
  refine ⟨es, es', g, by decide +kernel, ?_, hg, ?_, rfl, rfl, rfl⟩
  · rw [← resolves]
    decide +kernel
  · rw [← closures, hg]

/-! ## Files with distinct short names -/

theorem nodup_shortNames_addOutput {outputs : List Output} (h : (outputs.map Output.shortName).Nodup)
    (o : Output) : ((addOutput outputs o).map Output.shortName).Nodup := by
  unfold addOutput
  split
  · exact h
  · next absent =>
    rw [List.map_append, List.map_singleton, List.nodup_append]
    refine ⟨h, by simp, ?_⟩
    rintro short hs _ hm rfl
    obtain ⟨p, hp, hs⟩ := List.mem_map.1 hs
    exact absent (List.any_eq_true.2 ⟨p, hp, decide_eq_true (hs.trans (List.mem_singleton.1 hm))⟩)

theorem nodup_shortNames_foldl_addOutput (added : List Output) : ∀ {outputs : List Output},
    (outputs.map Output.shortName).Nodup →
      ((added.foldl addOutput outputs).map Output.shortName).Nodup := by
  induction added with
  | nil => exact id
  | cons o added ih => exact fun h => ih (nodup_shortNames_addOutput h o)

theorem Generation.nodup_shortNames_foldl_merge (cs : List Generation) : ∀ {g : Generation},
    (g.outputs.map Output.shortName).Nodup →
      ((cs.foldl merge g).outputs.map Output.shortName).Nodup := by
  induction cs with
  | nil => exact id
  | cons c cs ih => exact fun h => ih (nodup_shortNames_foldl_addOutput c.outputs h)

theorem Generation.mem_shortNames_iff {g : Generation} {short : Text} :
    short ∈ g.outputs.map Output.shortName ↔ (g.output? short).isSome = true := by
  rw [output?_isSome_iff]
  exact List.mem_map

/-- The file of an entity. -/
def Entity.file (e : Entity) : Output :=
  ⟨e.shortName, e.qualifiedName, TypeScript.render .default e.resolve⟩

section Documents
variable {t : Text} {es : List Entity} {cs : List Generation}

/-- Where short names are distinct, what stands under one is the file of the entity it names. -/
theorem output?_of_distinct (hes : Document.parse t = .ok es) (hcs : es.mapM (closureOf es) = .ok cs)
    (shorts : (es.map Entity.shortName).Nodup)
    (normal : ∀ e ∈ es, Name.normalize e.qualifiedName = e.qualifiedName) (short : Text) :
    (cs.foldl Generation.merge .empty).output? short =
      (es.find? (·.shortName = short)).map Entity.file := by
  rw [output?_merged]
  ext o
  rw [Option.map_eq_some_iff]
  constructor
  · intro ho
    obtain ⟨e, he, hq, hs, htext⟩ := exists_owner_of_output? hes hcs ho
    obtain ⟨c, -, hout⟩ := List.exists_of_findSome?_eq_some ho
    have hshort : o.shortName = short := by simpa using List.find?_some hout
    refine ⟨e, (find?_eq_some_iff_of_nodup shorts).2 ⟨he, hs⟩, ?_⟩
    obtain ⟨oshort, oowner, otext⟩ := o
    obtain rfl : oshort = short := hshort
    obtain rfl : e.qualifiedName = oowner := hq
    obtain rfl : otext = _ := htext
    rw [Entity.file, hs]
  · rintro ⟨e, hfind, rfl⟩
    obtain ⟨he, rfl⟩ := (find?_eq_some_iff_of_nodup shorts).1 hfind
    -- The entity's own closure has its file, so there is a first closure with a file of this name.
    obtain ⟨c, hc, own, hown, -⟩ := exists_own_output hes hcs he (normal e he)
    have found : (cs.findSome? (·.output? e.shortName)).isSome = true :=
      List.findSome?_isSome_iff.2 ⟨c, hc, by rw [hown]; rfl⟩
    obtain ⟨first, hfirst⟩ := Option.isSome_iff_exists.1 found
    obtain ⟨d, hd, hq, hs, htext⟩ := exists_owner_of_output? hes hcs hfirst
    obtain rfl := List.inj_on_of_nodup_map shorts hd he hs
    obtain ⟨c', -, hout⟩ := List.exists_of_findSome?_eq_some hfirst
    have hshort : first.shortName = d.shortName := by simpa using List.find?_some hout
    rw [hfirst, Entity.file, hq, ← hshort, ← htext]

/-- A document is generated if its entities are valid and each of their closures is generated. -/
theorem exists_generateDocument (hes : Document.parse t = .ok es) (hv : validateAll es = .ok ())
    (closures : ∀ e ∈ es, ∃ c, closureOf es e = .ok c) : ∃ g, generateDocument t = .ok g := by
  have go : ∀ (roots : List Entity) (start : Generation), (∀ e ∈ roots, ∃ c, closureOf es e = .ok c) →
      ∃ g, (roots.map Entity.qualifiedName).foldlM (fun g name => do
        return g.merge (← generateClosure (Registry.empty.extend es).loader
          (TypeScript.render .default) name)) start = .ok g := by
    intro roots
    induction roots with
    | nil => exact fun start _ => ⟨start, rfl⟩
    | cons e roots ih =>
      intro start hroots
      rw [List.forall_mem_cons] at hroots
      obtain ⟨⟨c, hc⟩, hroots⟩ := hroots
      rw [closureOf] at hc
      obtain ⟨g, hg⟩ := ih (start.merge c) hroots
      refine ⟨g, ?_⟩
      rw [List.map_cons, List.foldlM_cons, hc]
      exact hg
  obtain ⟨g, hg⟩ := go es .empty closures
  refine ⟨g, ?_⟩
  simp only [generateDocument, hes, hv]
  exact hg

theorem validateAll_of_generateDocument {g : Generation} (h : generateDocument t = .ok g)
    (hes : Document.parse t = .ok es) : validateAll es = .ok () := by
  simp only [generateDocument, hes] at h
  split at h
  · exact absurd h (by simp)
  · assumption

end Documents

/-- **One file for each entity.** In what is generated for a document whose entities have distinct short
names and normal names, there is one file for each entity: it stands under the entity's short name and
is the one generated for its name alone. A document with the same entities in another order has the
same files. -/
theorem files_of_distinct_names {t : Text} {g : Generation} {es : List Entity}
    (h : generateDocument t = .ok g) (hes : Document.parse t = .ok es)
    (shorts : (es.map Entity.shortName).Nodup)
    (normal : ∀ e ∈ es, Name.normalize e.qualifiedName = e.qualifiedName) :
    (g.outputs.map Output.shortName).Perm (es.map Entity.shortName) ∧
    (∀ e ∈ es, ∃ text, g.output? e.shortName = some ⟨e.shortName, e.qualifiedName, text⟩ ∧
      generateOne (Registry.empty.extend es).loader (TypeScript.render .default) e.qualifiedName =
        .ok text) ∧
    ∀ t' es', Document.parse t' = .ok es' → es'.Perm es → ∃ g', generateDocument t' = .ok g' ∧
      ∀ short, g'.output? short = g.output? short := by
  have hv := validateAll_of_generateDocument h hes
  obtain ⟨valid, hnames⟩ := validateAll_eq_ok_iff.1 hv
  obtain ⟨es₁, cs, hes₁, -, hcs, rfl⟩ := generateDocument_eq_ok h
  obtain rfl : es = es₁ := Except.ok.inj (hes.symm.trans hes₁)
  have files := output?_of_distinct hes hcs shorts normal
  refine ⟨?_, fun e he => ?_, fun t' es' hes' perm => ?_⟩
  · have once := Generation.nodup_shortNames_foldl_merge cs (g := .empty) List.nodup_nil
    refine (List.perm_ext_iff_of_nodup once shorts).2 fun short => ?_
    rw [Generation.mem_shortNames_iff, files, Option.isSome_map, List.find?_isSome]
    simp
  · refine ⟨TypeScript.render .default e.resolve, ?_, ?_⟩
    · rw [files, (find?_eq_some_iff_of_nodup shorts).2 ⟨he, rfl⟩]
      rfl
    · have hmem : e ∈ (Registry.empty.extend es).entities := by rwa [Registry.entities_ofList hnames]
      have hget : (Registry.empty.extend es).get? e.qualifiedName = some e :=
        (find?_eq_some_iff_of_nodup (Registry.nodup_names_ofList es)).2 ⟨hmem, rfl⟩
      refine generateOne_ok (Registry.resolve_self (Registry.contains_of_mem hmem) (normal e he)) ?_
      simp only [Registry.loader, Registry.load, hget, valid e he]
  · -- The closures of the other document are those of this one.
    have hloader := (Registry.rearranges_of_perm hnames perm.symm).loader_eq
    have closures : ∀ e ∈ es', ∃ c, closureOf es' e = .ok c := by
      intro e he
      obtain ⟨c, -, hc⟩ := exists_of_mapM hcs e (perm.subset he)
      rw [closureOf, hloader] at hc
      exact ⟨c, hc⟩
    have hv' : validateAll es' = .ok () := by
      rw [validateAll_eq_ok_iff]
      exact ⟨fun e he => valid e (perm.subset he),
        (perm.map Entity.qualifiedName).nodup_iff.2 hnames⟩
    obtain ⟨g', hg'⟩ := exists_generateDocument hes' hv' closures
    refine ⟨g', hg', fun short => ?_⟩
    obtain ⟨es₂, cs', hes₂, -, hcs', rfl⟩ := generateDocument_eq_ok hg'
    obtain rfl : es' = es₂ := Except.ok.inj (hes'.symm.trans hes₂)
    have shorts' := (perm.map Entity.shortName).nodup_iff.2 shorts
    rw [files, output?_of_distinct hes' hcs' shorts' fun e he => normal e (perm.subset he),
      find?_eq_of_perm shorts' perm]

/-- Two entities that refer to each other, and one more, in two orders: the files come in two orders. -/
theorem files_of_distinct_names_cycle :
    ∃ t t' g g', generateDocument t = .ok g ∧ generateDocument t' = .ok g' ∧
      g.outputs.map Output.shortName = [['A'], ['B'], ['C']] ∧
      g'.outputs.map Output.shortName = [['C'], ['B'], ['A']] ∧
      (∀ short, g'.output? short = g.output? short) ∧
      ∃ es, Document.parse t = .ok es ∧ ∀ e ∈ es, ∃ text,
        g.output? e.shortName = some ⟨e.shortName, e.qualifiedName, text⟩ ∧
        generateOne (Registry.empty.extend es).loader (TypeScript.render .default) e.qualifiedName =
          .ok text := by
  let t : Text := ("<entity name='N.A'><field name='b' type='B'/></entity>" ++
    "<entity name='N.B'><field name='a' type='A'/></entity><entity name='N.C'/>").toList
  let t' : Text := ("<entity name='N.C'/><entity name='N.B'><field name='a' type='A'/></entity>" ++
    "<entity name='N.A'><field name='b' type='B'/></entity>").toList
  let a : Entity := (Entity.ofName .record "N.A".toList).addField ⟨['b'], ['B'], none, false, false, none⟩
  let b : Entity := (Entity.ofName .record "N.B".toList).addField ⟨['a'], ['A'], none, false, false, none⟩
  let c : Entity := .ofName .record "N.C".toList
  have hes : Document.parse t = .ok [a, b, c] := eq_ok_of_toOption (by decide +kernel)
  have hes' : Document.parse t' = .ok [c, b, a] := eq_ok_of_toOption (by decide +kernel)
  have hg : generateDocument t = .ok ⟨[a.file, b.file, c.file], [], []⟩ :=
    eq_ok_of_toOption (by decide +kernel)
  have hg' : generateDocument t' = .ok ⟨[c.file, b.file, a.file], [], []⟩ :=
    eq_ok_of_toOption (by decide +kernel)
  obtain ⟨-, single, order⟩ := files_of_distinct_names hg hes (by decide +kernel) (by decide +kernel)
  obtain ⟨g', hother, same⟩ := order t' [c, b, a] hes' (by decide +kernel)
  obtain rfl := Except.ok.inj (hother.symm.trans hg')
  exact ⟨t, t', _, _, hg, hg', by decide +kernel, by decide +kernel, same, _, hes, single⟩

end DeclGen
