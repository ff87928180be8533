import DeclGen.CommandLine.Run
import DeclGen.Proofs.File.Below
import DeclGen.Proofs.File.Writing
import Mathlib.Data.List.Induction
import Mathlib.Data.List.Nodup

/-!
# How a run comes along

The files of the entities that can be generated are attempted one after the other, and of those with one
short name only the first is written. An entity that cannot be generated adds a failure and nothing else,
so the run is that of the attempts, with these failures put in.

* `addFile`, `firstFiles` : of the files with one short name, the first;
* `attempts`, `firstText`, `generationFailure?` : what the entities of a run give;
* `Summary.AllWritten`, `Progress.settled` : failures to generate and failures to write;
* `settled_processNames`, `generationFailures_processNames` : a run is that of its attempts, and the
  failures to generate are those of its entities;
* `Progress.Covers`, `exists_covers`, `covers_firstFiles` : what is written of the files attempted;
  `Covers.changed` : nothing else changes;
* `Covers.readText`, `Covers.nodup_components` : files whose short names have no slash are found as they
  were written, under different paths;
* `run_cases`, `run_of_prepare` : whole runs.
-/

namespace DeclGen.CommandLine

/-! ## The first file of each short name -/

/-- Adds a file, unless there is one of its short name. -/
def addFile (files : List (Text × Text)) (f : Text × Text) : List (Text × Text) :=
  if f.1 ∈ files.map Prod.fst then files else files ++ [f]

/-- Of the files with one short name, the first. -/
def firstFiles (files : List (Text × Text)) : List (Text × Text) := files.foldl addFile []

section Files
variable {files : List (Text × Text)} {f : Text × Text}

theorem isSome_lookup_iff {short : Text} :
    (files.lookup short).isSome = true ↔ short ∈ files.map Prod.fst := by
  induction files with
  | nil => simp
  | cons f files ih =>
    rw [List.lookup_cons, List.map_cons, List.mem_cons]
    by_cases hs : short = f.1
    · simp [hs]
    · rw [beq_eq_false_iff_ne.2 hs]
      simp [hs, ih]

theorem firstFiles_append_singleton (files : List (Text × Text)) (f : Text × Text) :
    firstFiles (files ++ [f]) = addFile (firstFiles files) f := by
  rw [firstFiles, List.foldl_append]
  rfl

theorem mem_of_mem_addFile {g : Text × Text} (h : g ∈ addFile files f) : g ∈ files ∨ g = f := by
  unfold addFile at h
  split at h
  · exact Or.inl h
  · exact (List.mem_append.1 h).imp_right List.mem_singleton.1

theorem nodup_addFile (h : (files.map Prod.fst).Nodup) : ((addFile files f).map Prod.fst).Nodup := by
  unfold addFile
  split
  · exact h
  · next absent =>
    rw [List.map_append, List.map_singleton, List.nodup_append]
    refine ⟨h, by simp, ?_⟩
    rintro short hs _ hf rfl
    exact absent (List.mem_singleton.1 hf ▸ hs)

theorem lookup_addFile (short : Text) :
    (addFile files f).lookup short = (files.lookup short).or ([f].lookup short) := by
  unfold addFile
  split
  · next present =>
    by_cases hs : short = f.1
    · rw [Option.or_of_isSome (isSome_lookup_iff.2 (hs ▸ present))]
    · rw [List.lookup_cons, beq_eq_false_iff_ne.2 hs]
      simp
  · rw [List.lookup_append]

theorem nodup_firstFiles (files : List (Text × Text)) : ((firstFiles files).map Prod.fst).Nodup := by
  induction files using List.reverseRecOn with
  | nil => exact List.nodup_nil
  | append_singleton files f ih =>
    rw [firstFiles_append_singleton]
    exact nodup_addFile ih

theorem mem_of_mem_firstFiles (h : f ∈ firstFiles files) : f ∈ files := by
  induction files using List.reverseRecOn with
  | nil => exact h
  | append_singleton files g ih =>
    rw [firstFiles_append_singleton] at h
    rcases mem_of_mem_addFile h with h | rfl
    · exact List.mem_append_left _ (ih h)
    · exact List.mem_append_right _ List.mem_cons_self

/-- Dropping later files of a short name changes no look-up. -/
theorem lookup_firstFiles (files : List (Text × Text)) (short : Text) :
    (firstFiles files).lookup short = files.lookup short := by
  induction files using List.reverseRecOn with
  | nil => rfl
  | append_singleton files f ih =>
    rw [firstFiles_append_singleton, lookup_addFile, ih, List.lookup_append]

end Files

/-! ## What the entities give -/

/-- The renderer that the arguments ask for. -/
def Arguments.render (args : Arguments) : Renderer :=
  TypeScript.render { TypeScript.Options.default with extension := args.extension }

/-- The files of an entity that the arguments ask for, by short name. -/
def Arguments.filesOf (args : Arguments) (loader : Loader) (name : Text) :
    Except GenerationError (List (Text × Text)) :=
  CommandLine.filesOf loader args.render args.noDependencies name

section Names
variable (loader : Loader) (args : Arguments)

/-- The files of an entity, none if it cannot be generated, with the name of the entity. -/
def attemptsOf (name : Text) : List (Text × Text × Text) :=
  match args.filesOf loader name with
  | .ok files => files.map fun f => (name, f)
  | .error _ => []

/-- All files that a run may write, with the entities for which they are generated. -/
def attempts (names : List Text) : List (Text × Text × Text) := names.flatMap (attemptsOf loader args)

/-- The failure of an entity that cannot be generated. -/
def generationFailure? (name : Text) : Option Failure :=
  match args.filesOf loader name with
  | .ok _ => none
  | .error error => some ⟨name, .generation error⟩

/-- The text of a short name: that of the first entity which can be generated and has a file of it. -/
def firstText (names : List Text) (short : Text) : Option Text :=
  names.findSome? fun name => (args.filesOf loader name).toOption.bind (·.lookup short)

variable {loader args} {name : Text} {files : List (Text × Text)} {error : GenerationError}

theorem attemptsOf_ok (h : args.filesOf loader name = .ok files) :
    attemptsOf loader args name = files.map fun f => (name, f) := by
  rw [attemptsOf, h]

theorem attemptsOf_error (h : args.filesOf loader name = .error error) :
    attemptsOf loader args name = [] := by
  rw [attemptsOf, h]

theorem generationFailure?_ok (h : args.filesOf loader name = .ok files) :
    generationFailure? loader args name = none := by
  rw [generationFailure?, h]

theorem generationFailure?_error (h : args.filesOf loader name = .error error) :
    generationFailure? loader args name = some ⟨name, .generation error⟩ := by
  rw [generationFailure?, h]

theorem attempts_cons (names : List Text) :
    attempts loader args (name :: names) = attemptsOf loader args name ++ attempts loader args names :=
  List.flatMap_cons

theorem exists_of_mem_attempts {names : List Text} {f : Text × Text}
    (h : f ∈ (attempts loader args names).map Prod.snd) :
    ∃ name ∈ names, ∃ files, args.filesOf loader name = .ok files ∧ f ∈ files := by
  obtain ⟨a, ha, rfl⟩ := List.mem_map.1 h
  obtain ⟨name, hn, ha⟩ := List.mem_flatMap.1 ha
  unfold attemptsOf at ha
  split at ha
  · next files hf =>
    obtain ⟨f, hm, rfl⟩ := List.mem_map.1 ha
    exact ⟨name, hn, files, hf, hm⟩
  · exact absurd ha List.not_mem_nil

theorem lookup_attempts (loader : Loader) (args : Arguments) (names : List Text) (short : Text) :
    ((attempts loader args names).map Prod.snd).lookup short = firstText loader args names short := by
  induction names with
  | nil => rfl
  | cons name names ih =>
    have first : ((attemptsOf loader args name).map Prod.snd).lookup short =
        (args.filesOf loader name).toOption.bind (·.lookup short) := by
      unfold attemptsOf
      cases args.filesOf loader name with
      | error error => rfl
      | ok files =>
        show (((files.map fun f => (name, f)).map Prod.snd).lookup short) = files.lookup short
        rw [List.map_map]
        exact congrArg (List.lookup short) (List.map_id files)
    rw [attempts_cons, List.map_append, List.lookup_append, first, ih, firstText, firstText,
      List.findSome?_cons]
    cases (args.filesOf loader name).toOption.bind (·.lookup short) <;> rfl

end Names

/-! ## Failures -/

/-- Is it a file that could not be written? -/
def FailureCause.isWrite : FailureCause → Bool
  | generation _ => false
  | write _ _ => true

/-- No file failed to be written. -/
def Summary.AllWritten (s : Summary) : Prop := ∀ f ∈ s.failures, f.cause.isWrite = false

/-- The failures of entities that could not be generated. -/
def Progress.generationFailures (p : Progress) : List Failure :=
  p.summary.failures.filter fun f => !f.cause.isWrite

/-- The state of a run without the failures of entities that could not be generated. -/
def Progress.settled (p : Progress) : Progress :=
  { p with summary := { p.summary with failures := p.summary.failures.filter (·.cause.isWrite) } }

/-- Writes a file for an entity. -/
def write (output : Text) (p : Progress) (a : Text × Text × Text) : Progress :=
  writeOutput output a.1 p a.2

section Steps
variable {output name : Text} {p : Progress} {f : Text × Text}

theorem writeOutput_processed (h : f.1 ∈ p.processed) : writeOutput output name p f = p := by
  simp [writeOutput, h]

theorem writeOutput_error {error : FileError} (h : f.1 ∉ p.processed)
    (hw : p.files.writeText (outputPath output f.1) f.2 = .error error) :
    writeOutput output name p f = Progress.fail { p with processed := f.1 :: p.processed } name
      (.write (outputPath output f.1) error) := by
  simp [writeOutput, h, hw]

theorem writeOutput_ok {files : FileSystem} (h : f.1 ∉ p.processed)
    (hw : p.files.writeText (outputPath output f.1) f.2 = .ok files) :
    writeOutput output name p f = ⟨files, f.1 :: p.processed,
      { p.summary with written := p.summary.written ++ [outputPath output f.1] }⟩ := by
  simp [writeOutput, h, hw]

@[simp] theorem settled_fail_generation (error : GenerationError) :
    (p.fail name (.generation error)).settled = p.settled := by
  simp [Progress.settled, Progress.fail, FailureCause.isWrite]

@[simp] theorem settled_fail_write (path : Text) (error : FileError) :
    (p.fail name (.write path error)).settled = p.settled.fail name (.write path error) := by
  simp [Progress.settled, Progress.fail, FailureCause.isWrite]

@[simp] theorem generationFailures_fail_generation (error : GenerationError) :
    (p.fail name (.generation error)).generationFailures =
      p.generationFailures ++ [⟨name, .generation error⟩] := by
  simp [Progress.generationFailures, Progress.fail, FailureCause.isWrite]

@[simp] theorem generationFailures_fail_write (path : Text) (error : FileError) :
    (p.fail name (.write path error)).generationFailures = p.generationFailures := by
  simp [Progress.generationFailures, Progress.fail, FailureCause.isWrite]

theorem settled_writeOutput (output name : Text) (p : Progress) (f : Text × Text) :
    (writeOutput output name p f).settled = writeOutput output name p.settled f := by
  by_cases h : f.1 ∈ p.processed
  · rw [writeOutput_processed h, writeOutput_processed (show f.1 ∈ p.settled.processed from h)]
  · have h' : f.1 ∉ p.settled.processed := h
    cases hw : p.files.writeText (outputPath output f.1) f.2 with
    | error error =>
      rw [writeOutput_error h hw, writeOutput_error h' hw, settled_fail_write]
      rfl
    | ok files =>
      rw [writeOutput_ok h hw, writeOutput_ok h' hw]
      rfl

theorem generationFailures_writeOutput (output name : Text) (p : Progress) (f : Text × Text) :
    (writeOutput output name p f).generationFailures = p.generationFailures := by
  by_cases h : f.1 ∈ p.processed
  · rw [writeOutput_processed h]
  · cases hw : p.files.writeText (outputPath output f.1) f.2 with
    | error error =>
      rw [writeOutput_error h hw, generationFailures_fail_write]
      rfl
    | ok files =>
      rw [writeOutput_ok h hw]
      rfl

end Steps

section Runs
variable {loader : Loader} {args : Arguments} {name : Text} {files : List (Text × Text)}

theorem processName_ok (h : args.filesOf loader name = .ok files) (p : Progress) :
    processName loader args p name = files.foldl (writeOutput args.output name) p := by
  have h : CommandLine.filesOf loader args.render args.noDependencies name = .ok files := h
  simp only [processName, Arguments.render] at h ⊢
  rw [h]

theorem processName_error {error : GenerationError} (h : args.filesOf loader name = .error error)
    (p : Progress) : processName loader args p name = p.fail name (.generation error) := by
  have h : CommandLine.filesOf loader args.render args.noDependencies name = .error error := h
  simp only [processName, Arguments.render] at h ⊢
  rw [h]

/-- Up to failures to generate, the turn of an entity is that of its attempts. -/
theorem settled_processName (loader : Loader) (args : Arguments) (p : Progress) (name : Text) :
    (processName loader args p name).settled =
      (attemptsOf loader args name).foldl (write args.output) p.settled := by
  cases h : args.filesOf loader name with
  | error error => rw [processName_error h, attemptsOf_error h, settled_fail_generation, List.foldl_nil]
  | ok files =>
    rw [processName_ok h, attemptsOf_ok h, List.foldl_map]
    exact (List.foldl_hom Progress.settled fun p f => (settled_writeOutput args.output name p f).symm).symm

theorem generationFailures_processName (loader : Loader) (args : Arguments) (p : Progress) (name : Text) :
    (processName loader args p name).generationFailures =
      p.generationFailures ++ (generationFailure? loader args name).toList := by
  cases h : args.filesOf loader name with
  | error error =>
    rw [processName_error h, generationFailure?_error h, generationFailures_fail_generation]
    rfl
  | ok files =>
    rw [processName_ok h, generationFailure?_ok h, Option.toList_none, List.append_nil]
    clear h
    induction files generalizing p with
    | nil => rfl
    | cons f files ih => rw [List.foldl_cons, ih, generationFailures_writeOutput]

/-- Up to failures to generate, a run is that of its attempts. -/
theorem settled_processNames (loader : Loader) (args : Arguments) (names : List Text) (fs : FileSystem) :
    (processNames loader args names fs).settled =
      (attempts loader args names).foldl (write args.output) ⟨fs, [], ⟨[], []⟩⟩ := by
  have go : ∀ p : Progress, (names.foldl (processName loader args) p).settled =
      (attempts loader args names).foldl (write args.output) p.settled := by
    induction names with
    | nil => exact fun _ => rfl
    | cons name names ih =>
      intro p
      rw [List.foldl_cons, ih, settled_processName, attempts_cons, List.foldl_append]
  exact go _

/-- The failures to generate are those of the entities, in their order. -/
theorem generationFailures_processNames (loader : Loader) (args : Arguments) (names : List Text)
    (fs : FileSystem) : (processNames loader args names fs).generationFailures =
      names.filterMap (generationFailure? loader args) := by
  have go : ∀ p : Progress, (names.foldl (processName loader args) p).generationFailures =
      p.generationFailures ++ names.filterMap (generationFailure? loader args) := by
    induction names with
    | nil => exact fun _ => (List.append_nil _).symm
    | cons name names ih =>
      intro p
      rw [List.foldl_cons, ih, generationFailures_processName, List.append_assoc, List.filterMap_cons]
      cases generationFailure? loader args name <;> rfl
  exact go _

/-- Where all files are written, the failures are those of entities that cannot be generated. -/
theorem failures_of_allWritten {names : List Text} {fs : FileSystem}
    (h : (processNames loader args names fs).summary.AllWritten) :
    (processNames loader args names fs).summary.failures =
      names.filterMap (generationFailure? loader args) := by
  rw [← generationFailures_processNames loader args names fs, Progress.generationFailures]
  refine (List.filter_eq_self.2 fun f hf => ?_).symm
  rw [h f hf]
  rfl

theorem settled_failures_of_allWritten {p : Progress} (h : p.summary.AllWritten) :
    p.settled.summary.failures = [] :=
  List.filter_eq_nil_iff.2 fun f hf => by simp [h f hf]

end Runs

/-! ## What is written -/

/-- Of the files `done` that were attempted, `files` were written, starting from `start`. -/
structure Progress.Covers (output : Text) (start : FileSystem) (done files : List (Text × Text))
    (p : Progress) : Prop where
  written : p.summary.written = files.map fun f => outputPath output f.1
  writes : start.writeAll (files.map fun f => (outputPath output f.1, f.2)) = .ok p.files
  processed : ∀ short, short ∈ p.processed ↔ short ∈ (firstFiles done).map Prod.fst
  first : files.Sublist (firstFiles done)
  complete : p.summary.failures = [] → files = firstFiles done

section Covering
variable {output name : Text} {start : FileSystem} {done files : List (Text × Text)} {p : Progress}

/-- One more file is attempted. -/
theorem Progress.Covers.step (h : p.Covers output start done files) (name : Text) (f : Text × Text) :
    ∃ files', (writeOutput output name p f).Covers output start (done ++ [f]) files' := by
  by_cases seen : f.1 ∈ p.processed
  · have same : firstFiles (done ++ [f]) = firstFiles done := by
      rw [firstFiles_append_singleton, addFile, if_pos ((h.processed f.1).1 seen)]
    rw [writeOutput_processed seen]
    exact ⟨files, h.written, h.writes, same ▸ h.processed, same ▸ h.first, same ▸ h.complete⟩
  · have more : firstFiles (done ++ [f]) = firstFiles done ++ [f] := by
      rw [firstFiles_append_singleton, addFile, if_neg fun hf => seen ((h.processed f.1).2 hf)]
    have processed : ∀ short, short ∈ f.1 :: p.processed ↔
        short ∈ (firstFiles (done ++ [f])).map Prod.fst := by
      intro short
      rw [more, List.map_append, List.mem_append, List.mem_cons, h.processed, or_comm]
      simp
    cases hw : p.files.writeText (outputPath output f.1) f.2 with
    | error error =>
      rw [writeOutput_error seen hw]
      refine ⟨files, h.written, h.writes, processed, ?_, fun none => ?_⟩
      · exact more ▸ h.first.trans (List.sublist_append_left _ _)
      · exact absurd none (by simp [Progress.fail])
    | ok after =>
      rw [writeOutput_ok seen hw]
      refine ⟨files ++ [f], ?_, ?_, processed, ?_, fun none => ?_⟩
      · rw [h.written, List.map_append]
        rfl
      · rw [List.map_append, List.map_singleton, FileSystem.writeAll_append_singleton h.writes]
        exact hw
      · exact more ▸ h.first.append (List.Sublist.refl _)
      · rw [more, h.complete none]

/-- What a run writes of the files attempted. -/
theorem exists_covers (loader : Loader) (args : Arguments) (names : List Text) (fs : FileSystem) :
    ∃ files, (processNames loader args names fs).settled.Covers args.output fs
      ((attempts loader args names).map Prod.snd) files := by
  rw [settled_processNames]
  induction attempts loader args names using List.reverseRecOn with
  | nil =>
    exact ⟨[], rfl, rfl, fun _ => by simp [firstFiles], List.Sublist.refl _, fun _ => rfl⟩
  | append_singleton as a ih =>
    obtain ⟨files, h⟩ := ih
    rw [List.foldl_append, List.map_append]
    exact h.step a.1 a.2

/-- Where all files are written, they are the first of each short name. -/
theorem covers_firstFiles {loader : Loader} {args : Arguments} {names : List Text} {fs : FileSystem}
    (written : (processNames loader args names fs).summary.AllWritten) :
    (processNames loader args names fs).settled.Covers args.output fs
      ((attempts loader args names).map Prod.snd) (firstFiles ((attempts loader args names).map Prod.snd)) := by
  obtain ⟨files, covers⟩ := exists_covers loader args names fs
  obtain rfl := covers.complete (settled_failures_of_allWritten written)
  exact covers

theorem Progress.Covers.distinct (h : p.Covers output start done files) : (files.map Prod.fst).Nodup :=
  (h.first.map Prod.fst).nodup (nodup_firstFiles done)

/-- What changes are the files that are told as written, and each of them is found. -/
theorem Progress.Covers.changed (h : p.Covers output start done files) :
    (∀ path ∈ p.summary.written, ∃ place, p.files.locate path = .ok place) ∧
    ∀ place, p.files.root.contentAt place ≠ start.root.contentAt place →
      ∃ path ∈ p.summary.written, p.files.locate path = .ok place := by
  obtain ⟨-, located, frame⟩ := FileSystem.writeAll_spec h.writes
  have paths : p.summary.written = (files.map fun f => (outputPath output f.1, f.2)).map Prod.fst := by
    rw [h.written, List.map_map]
    rfl
  rw [paths]
  refine ⟨fun path hp => ?_, fun place hne => ?_⟩
  · obtain ⟨f, hf, rfl⟩ := List.mem_map.1 hp
    exact located f hf
  · obtain ⟨f, hf, hl⟩ := frame place hne
    exact ⟨f.1, List.mem_map_of_mem hf, hl⟩

/-! ## Files in the output directory -/

theorem isName_file (short : Text) : Path.IsName (short ++ ".ts".toList) := by
  have long {segment : Text} (h : short ++ ".ts".toList = segment) : 3 ≤ segment.length := by
    rw [← h]
    simp
  exact ⟨fun h => absurd (long h) (by decide), fun h => absurd (long h) (by decide),
    fun h => absurd (long h) (by decide)⟩

theorem slash_mem_file_iff {short : Text} : '/' ∈ short ++ ".ts".toList ↔ '/' ∈ short := by simp

/-- The file of a short name is a child of the output directory iff the name has no slash. -/
theorem isChild_outputPath_iff {short : Text} :
    Path.IsChild output (short ++ ".ts".toList) (outputPath output short) ↔ '/' ∉ short := by
  rw [outputPath, Path.isChild_join_iff (isName_file short), slash_mem_file_iff]

/-- Short names without slashes stand under different paths. -/
theorem Progress.Covers.nodup_components (h : p.Covers output start done files)
    (slash : ∀ f ∈ files, '/' ∉ f.1) : (p.summary.written.map Path.components).Nodup := by
  have hcomponents : p.summary.written.map Path.components =
      (files.map Prod.fst).map fun short => Path.components output ++ [.name (short ++ ".ts".toList)] := by
    rw [h.written, List.map_map, List.map_map]
    exact List.map_congr_left fun f hf => isChild_outputPath_iff.2 (slash f hf)
  rw [hcomponents]
  refine h.distinct.map fun short short' hs => ?_
  simpa using hs

/-- Files whose short names have no slash are found as they were written. -/
theorem Progress.Covers.readText (h : p.Covers output start done files)
    (slash : ∀ f ∈ files, '/' ∉ f.1) :
    ∀ f ∈ files, p.files.readText (outputPath output f.1) = .ok f.2 := by
  have found := FileSystem.readText_of_writeAll h.writes
  rw [List.pairwise_map] at found
  intro f hf
  refine found ?_ _ (List.mem_map_of_mem hf)
  -- The places are entries of one directory, whose names are those of the files.
  refine (List.pairwise_map.1 h.distinct).imp_of_mem fun {f g} hf hg hne place hl hl' => hne ?_
  have place_of {short : Text} (hs : '/' ∉ short) (hl : p.files.locate (outputPath output short) = .ok place) :
      ∃ here, p.files.locate (Path.orHere output) = .ok here ∧ place = here ++ [short ++ ".ts".toList] :=
    FileSystem.locate_child (isName_file short) (slash_mem_file_iff.not.2 hs) hl
  obtain ⟨here, hh, rfl⟩ := place_of (slash f hf) hl
  obtain ⟨here', hh', hp⟩ := place_of (slash g hg) hl'
  obtain rfl := Except.ok.inj (hh.symm.trans hh')
  simpa using hp

end Covering

/-! ## Whole runs -/

section Whole
variable {args : Arguments} {fs : FileSystem} {loader : Loader} {names : List Text}

/-- Where the output directory is there and the source is found, a run is that of the entities. -/
theorem run_of_prepare (made : (fs.createDirectories args.output).2 = .ok ())
    (hp : prepare args (fs.createDirectories args.output).1 = .ok (loader, names)) :
    run args fs =
      ((processNames loader args names (fs.createDirectories args.output).1).files,
        .ok (processNames loader args names (fs.createDirectories args.output).1).summary) := by
  rcases h : fs.createDirectories args.output with ⟨created, outcome⟩
  rw [h] at made hp
  obtain rfl : outcome = .ok () := made
  simp only [run, h, hp]

/-- A run ends early, or is that of the entities. -/
theorem run_cases (args : Arguments) (fs : FileSystem) :
    (∃ error, run args fs = ((fs.createDirectories args.output).1, .error error)) ∨
      ∃ loader names, (fs.createDirectories args.output).2 = .ok () ∧
        prepare args (fs.createDirectories args.output).1 = .ok (loader, names) := by
  rcases h : fs.createDirectories args.output with ⟨created, error | ⟨⟨⟩⟩⟩
  · exact Or.inl ⟨_, by simp only [run, h]; rfl⟩
  · cases hp : prepare args created with
    | error error => exact Or.inl ⟨error, by simp only [run, h, hp]⟩
    | ok found => exact Or.inr ⟨found.1, found.2, rfl, rfl⟩

end Whole

end DeclGen.CommandLine
