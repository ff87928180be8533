import DeclGen.Proofs.CommandLine.Progress
import DeclGen.Proofs.Generation.Document
import DeclGen.Proofs.Loader.Order

/-!
# A run on a document

What is generated for a document is merged from the closures of its entities, of the files with one short
name the first. A run on the file of the document goes through the names of a registry, which has them in
the order of the document as they are distinct; so it attempts the files of the same closures in the same
order, and of those with one short name it writes the first, too.

* `Generation.files`, `files_foldl_merge` : the files of merged closures;
* `attempts_of_closures`, `failures_of_closures` : what a run on these closures attempts;
* `prepare_document` : the names that the run goes through;
* `run_document` : the run writes what is generated for the document.
-/

namespace DeclGen

/-! ## Merged closures -/

section Merging
open CommandLine

/-- The file of an output, with its short name. -/
def Output.file (o : Output) : Text × Text := (o.shortName, o.text)

/-- The files that are generated, with their short names. -/
def Generation.files (g : Generation) : List (Text × Text) := g.outputs.map Output.file

theorem map_addOutput (outputs : List Output) (o : Output) :
    (addOutput outputs o).map Output.file = addFile (outputs.map Output.file) o.file := by
  have taken : outputs.any (·.shortName = o.shortName) = true ↔
      o.file.1 ∈ (outputs.map Output.file).map Prod.fst := by
    simp [Output.file]
  unfold addOutput addFile
  by_cases h : outputs.any (·.shortName = o.shortName) = true
  · rw [if_pos h, if_pos (taken.1 h)]
  · rw [if_neg h, if_neg (taken.not.1 h), List.map_append]
    rfl

theorem files_merge (g h : Generation) : (g.merge h).files = h.files.foldl addFile g.files := by
  unfold Generation.files
  rw [List.foldl_map]
  exact (List.foldl_hom (List.map Output.file) fun outputs o => (map_addOutput outputs o).symm).symm

/-- Of the files of merged closures, the first of each short name is kept. -/
theorem files_foldl_merge (cs : List Generation) :
    (cs.foldl Generation.merge .empty).files = firstFiles (cs.flatMap Generation.files) := by
  induction cs using List.reverseRecOn with
  | nil => rfl
  | append_singleton cs c ih =>
    rw [List.foldl_append, List.flatMap_append, firstFiles, List.foldl_append]
    show (Generation.merge _ c).files = _
    rw [files_merge, ih, firstFiles, List.flatMap_singleton]

end Merging

namespace CommandLine

/-! ## The attempts of a run -/

section Attempts
variable {loader : Loader} {args : Arguments} (dependencies : args.noDependencies = false)
include dependencies

theorem filesOf_of_closure {name : Text} {c : Generation}
    (h : generateClosure loader args.render name = .ok c) : args.filesOf loader name = .ok c.files := by
  rw [Arguments.filesOf, filesOf, dependencies, h]
  rfl

theorem attempts_of_closures {names : List Text} : ∀ {cs : List Generation},
    names.mapM (generateClosure loader args.render) = .ok cs →
      (attempts loader args names).map Prod.snd = cs.flatMap Generation.files ∧
        names.filterMap (generationFailure? loader args) = [] := by
  induction names with
  | nil =>
    intro cs h
    obtain rfl := Except.ok.inj h
    exact ⟨rfl, rfl⟩
  | cons name names ih =>
    intro cs h
    rw [List.mapM_cons] at h
    obtain ⟨c, hc, h⟩ := bind_eq_ok_iff.1 h
    obtain ⟨more, hm, h⟩ := bind_eq_ok_iff.1 h
    obtain rfl := Except.ok.inj h
    obtain ⟨files, none⟩ := ih hm
    have hf := filesOf_of_closure dependencies hc
    constructor
    · rw [attempts_cons, List.map_append, files, attemptsOf_ok hf, List.map_map, List.flatMap_cons]
      exact congrArg (· ++ _) (List.map_id c.files)
    · rw [List.filterMap_cons, generationFailure?_ok hf, none]

end Attempts

/-! ## The names of a run -/

section Names
variable {args : Arguments} {fs : FileSystem} {t : Text} {es : List Entity}

theorem ofPath_document (source : fs.readText args.source = .ok t) (hes : Document.parse t = .ok es) :
    Registry.ofPath fs args.source = .ok (Registry.empty.extend es) := by
  have file := FileSystem.readText_eq_ok_iff_entry.1 source
  have single : fs.isDirectory args.source = false := by
    rw [FileSystem.isDirectory, file]
    rfl
  simp only [Registry.ofPath, single, Registry.addFile, readDocument, source, hes]
  rfl

/-- A run on the file of a document goes through its entities, in their order. -/
theorem prepare_document (base : args.base = none) (source : fs.readText args.source = .ok t)
    (hes : Document.parse t = .ok es) (distinct : (es.map Entity.qualifiedName).Nodup) :
    prepare args fs = .ok ((Registry.empty.extend es).loader, es.map Entity.qualifiedName) := by
  have file := FileSystem.readText_eq_ok_iff_entry.1 source
  have there : fs.contains args.source = true := by
    rw [FileSystem.contains, file]
    rfl
  have names : (Registry.empty.extend es).names = es.map Entity.qualifiedName := by
    rw [Registry.names, Registry.entities_ofList distinct]
  simp only [prepare, base, there, ofPath_document source hes, names]
  rfl

end Names

/-- **The command line and the library generate the same.** Where a document can be generated and no short
name has a slash, a run on its file that is asked neither for a base directory nor to leave out dependencies
or to add extensions generates every entity. Unless a file cannot be written, it has no failures, writes one
file for each output, in their order, as an entry of the output directory and with its text, and changes no
other file. -/
theorem run_document {t : Text} {g : Generation} (h : generateDocument t = .ok g)
    (slash : ∀ o ∈ g.outputs, '/' ∉ o.shortName) {args : Arguments} (base : args.base = none)
    (dependencies : args.noDependencies = false) (extension : args.extension = false) {fs : FileSystem}
    (source : fs.readText args.source = .ok t) (made : (fs.createDirectories args.output).2 = .ok ()) :
    ∃ after summary, run args fs = (after, .ok summary) ∧
      (∀ f ∈ summary.failures, f.cause.isWrite = true) ∧
      (summary.AllWritten →
        summary.failures = [] ∧
        summary.written = g.outputs.map (fun o => outputPath args.output o.shortName) ∧
        (summary.written.map Path.components).Nodup ∧
        (∀ o ∈ g.outputs,
          Path.IsChild args.output (o.shortName ++ ".ts".toList) (outputPath args.output o.shortName) ∧
          after.readText (outputPath args.output o.shortName) = .ok o.text) ∧
        ∀ place, after.root.contentAt place ≠ fs.root.contentAt place →
          ∃ o ∈ g.outputs, after.locate (outputPath args.output o.shortName) = .ok place) := by
  obtain ⟨es, cs, hes, distinct, hcs, rfl⟩ := generateDocument_eq_ok h
  -- The run: its names, and their closures.
  obtain ⟨grows, same⟩ := FileSystem.createDirectories_spec fs args.output
  have hp := prepare_document base (same.readText grows source) hes distinct
  have render : args.render = TypeScript.render .default := by
    rw [Arguments.render, extension]
    rfl
  have closures : (es.map Entity.qualifiedName).mapM
      (generateClosure (Registry.empty.extend es).loader args.render) = .ok cs := by
    rw [List.mapM_map, render]
    exact hcs
  obtain ⟨attempted, none⟩ := attempts_of_closures dependencies closures
  refine ⟨_, _, run_of_prepare made hp, fun f hf => ?_, fun written => ?_⟩
  · have generated := generationFailures_processNames (Registry.empty.extend es).loader args
      (es.map Entity.qualifiedName) (fs.createDirectories args.output).1
    rw [none] at generated
    simpa using List.filter_eq_nil_iff.1 generated f hf
  · -- What is written: the files that are generated.
    have covers := covers_firstFiles written
    rw [attempted, ← files_foldl_merge, Generation.files] at covers
    have hslash : ∀ f ∈ (cs.foldl Generation.merge .empty).outputs.map Output.file, '/' ∉ f.1 :=
      List.forall_mem_map.2 slash
    have hwritten := covers.written
    rw [List.map_map] at hwritten
    refine ⟨(failures_of_allWritten written).trans none, hwritten, covers.nodup_components hslash,
      fun o ho => ⟨isChild_outputPath_iff.2 (slash o ho), ?_⟩, fun place hne => ?_⟩
    · exact covers.readText hslash o.file (List.mem_map_of_mem ho)
    · obtain ⟨path, hpath, hl⟩ := covers.changed.2 place ((same place).symm ▸ hne)
      rw [hwritten] at hpath
      obtain ⟨o, ho, rfl⟩ := List.mem_map.1 hpath
      exact ⟨o, ho, hl⟩

/-- A document with two namesakes, one of which refers to a third entity. -/
theorem run_document_namesakes :
    ∃ (t : Text) (x y : Output) (args : Arguments) (fs after : FileSystem) (summary : Summary),
      generateDocument t = .ok ⟨[x, y], [], []⟩ ∧ fs.readText args.source = .ok t ∧
      run args fs = (after, .ok summary) ∧ summary.failures = [] ∧
      summary.written = ["o/X.ts".toList, "o/Y.ts".toList] ∧
      after.readText "o/X.ts".toList = .ok x.text ∧ after.readText "o/Y.ts".toList = .ok y.text := by
  let t : Text := ("<entities><entity name='A.X'><field name='y' type='Y'/></entity>" ++
    "<entity name='B.X'/><entity name='A.Y'/></entities>").toList
  let x : Output :=
    ⟨['X'], "A\\X".toList, "import \x7b Y \x7d from './Y';\n\nexport interface X \x7b\n  y: Y;\n\x7d\n".toList⟩
  let y : Output := ⟨['Y'], "A\\Y".toList, "export interface Y \x7b\n\x7d\n".toList⟩
  let args : Arguments := ⟨['d'], ['o'], false, false, none, none, []⟩
  let fs : FileSystem := ⟨.directory [(['d'], .file (.text t)), (['o'], .empty)], []⟩
  have hg : generateDocument t = .ok ⟨[x, y], [], []⟩ := eq_ok_of_toOption (by decide +kernel)
  have source : fs.readText args.source = .ok t := eq_ok_of_toOption (by decide +kernel)
  obtain ⟨after, summary, hr, -, rest⟩ := run_document hg (by decide +kernel) rfl rfl rfl source
    (eq_ok_of_toOption (by decide +kernel))
  have told : (run args fs).2 = .ok ⟨["o/X.ts".toList, "o/Y.ts".toList], []⟩ :=
    eq_ok_of_toOption (by decide +kernel)
  have hs : ⟨["o/X.ts".toList, "o/Y.ts".toList], []⟩ = summary :=
    Except.ok.inj (told.symm.trans (congrArg Prod.snd hr))
  obtain ⟨failures, -, -, texts, -⟩ := rest (by rw [← hs]; exact fun f hf => absurd hf (by simp))
  refine ⟨t, x, y, args, fs, after, summary, hg, source, hr, failures, by rw [← hs], ?_, ?_⟩
  · exact (texts x (by simp)).2
  · exact (texts y (by simp)).2

end CommandLine

end DeclGen
