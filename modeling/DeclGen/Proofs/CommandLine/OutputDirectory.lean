import DeclGen.Proofs.CommandLine.Progress
import DeclGen.Proofs.Generation.Closure

/-!
# Where a run writes

A short name has neither dots nor backslashes, but it may have slashes, which are characters like any
other in names and separate the segments of paths. So a file is an entry of the output directory only if
its short name has no slash. With slashes it stands further below, as nothing in a short name leads up; a
short name that starts with a slash is an absolute path, to which the output directory means nothing.

* `exists_entity_of_filesOf`, `Arguments.Produces` : the short names of the files that are generated;
* `Lands`, `lands_of_locate` : where the file of a short name stands;
* `run_writes` : all that a run writes.
-/

namespace DeclGen.CommandLine

section Names
variable {loader : Loader} {args : Arguments} {name : Text} {files : List (Text × Text)} {f : Text × Text}

/-- The files of an entity stand under the short names of entities. -/
theorem exists_entity_of_filesOf (h : args.filesOf loader name = .ok files) (hf : f ∈ files) :
    ∃ entity, f.1 = Name.short entity := by
  unfold Arguments.filesOf filesOf at h
  split at h
  · obtain ⟨text, -, h⟩ := bind_eq_ok_iff.1 h
    obtain rfl := Except.ok.inj h
    exact ⟨name, by rw [List.mem_singleton.1 hf]⟩
  · obtain ⟨g, hg, h⟩ := bind_eq_ok_iff.1 h
    obtain rfl := Except.ok.inj h
    obtain ⟨o, ho, rfl⟩ := List.mem_map.1 hf
    exact ⟨o.owner, generateClosure_named hg o ho⟩

/-- An entity that the run goes through has a file of this short name. -/
def Arguments.Produces (args : Arguments) (fs : FileSystem) (short : Text) : Prop :=
  ∃ loader names, prepare args (fs.createDirectories args.output).1 = .ok (loader, names) ∧
    ∃ name ∈ names, ∃ files, args.filesOf loader name = .ok files ∧ short ∈ files.map Prod.fst

end Names

/-! ## Short names in paths -/

section Paths
variable {fs : FileSystem} {output short entity : Text} {place : List Text}

/-- The extension is added to the last segment. -/
theorem exists_last_segment (short : Text) : ∃ front last, Path.segments short = front ++ [last] ∧
    Path.segments (short ++ ".ts".toList) = front ++ [last ++ ".ts".toList] :=
  Text.split_append short (by simp)

theorem up_notMem_segments (dots : '.' ∉ short) : ['.', '.'] ∉ Path.segments (short ++ ".ts".toList) := by
  obtain ⟨front, last, hs, hf⟩ := exists_last_segment short
  rw [hf, List.mem_append, not_or]
  constructor
  · intro up
    have inside : ['.', '.'] ∈ Path.segments short := by
      rw [hs]
      exact List.mem_append_left _ up
    exact dots (Text.mem_of_mem_split inside List.mem_cons_self)
  · rw [List.mem_singleton]
    exact Ne.symm (isName_file last).2.2

theorem names_file_ne_nil (short : Text) : Path.names (short ++ ".ts".toList) ≠ [] := by
  obtain ⟨front, last, -, hf⟩ := exists_last_segment short
  have last : last ++ ".ts".toList ∈ Path.names (short ++ ".ts".toList) := by
    rw [Path.names, hf, List.mem_filter]
    exact ⟨List.mem_append_right _ List.mem_cons_self, decide_eq_true (isName_file last)⟩
  exact List.ne_nil_of_mem last

/-- The file of the short name stands at `place`. -/
structure Lands (fs : FileSystem) (output short : Text) (place : List Text) : Prop where
  located : fs.locate (outputPath output short) = .ok place
  /-- Its path is that of an entry of the output directory iff the name has no slash. -/
  child_iff : Path.IsChild output (short ++ ".ts".toList) (outputPath output short) ↔ '/' ∉ short
  entry : '/' ∉ short →
    ∃ here, fs.locate (Path.orHere output) = .ok here ∧ place = here ++ [short ++ ".ts".toList]
  below : Path.isAbsolute short = false →
    ∃ here names, fs.locate (Path.orHere output) = .ok here ∧ names ≠ [] ∧ place = here ++ names
  /-- An absolute path leaves the output directory. -/
  absolute : Path.isAbsolute short = true → outputPath output short = short ++ ".ts".toList

theorem isAbsolute_file (short : Text) : Path.isAbsolute (short ++ ".ts".toList) = Path.isAbsolute short := by
  cases short with
  | nil => decide
  | cons c short => rfl

theorem lands_of_locate (h : fs.locate (outputPath output (Name.short entity)) = .ok place) :
    Lands fs output (Name.short entity) place where
  located := h
  child_iff := isChild_outputPath_iff
  entry slash := FileSystem.locate_child (isName_file _) (slash_mem_file_iff.not.2 slash) h
  below relative := by
    have dots : '.' ∉ Name.short entity := fun dot =>
      absurd (Name.isSeparator_of_mem_short _ dot) (by decide)
    obtain ⟨here, hl, hp⟩ :=
      FileSystem.locate_below ((isAbsolute_file _).trans relative) (up_notMem_segments dots) h
    exact ⟨here, _, hl, names_file_ne_nil _, hp⟩
  absolute absolute := by
    rw [outputPath, Path.join, isAbsolute_file, absolute]
    rfl

end Paths

/-- **Where a run writes.** The files that a run creates or overwrites are those that it tells as written;
if it ends early, there are none. Each of them is the file of a short name that was generated. It is an
entry of the output directory if this name has no slash, and its path is that of such an entry only then;
it stands below the output directory unless the name is an absolute path. -/
theorem run_writes (args : Arguments) (fs : FileSystem) :
    let after := (run args fs).1
    (∀ place, after.root.contentAt place ≠ fs.root.contentAt place →
      ∃ summary, (run args fs).2 = .ok summary ∧
        ∃ path ∈ summary.written, after.locate path = .ok place) ∧
    ∀ summary, (run args fs).2 = .ok summary → ∀ path ∈ summary.written,
      ∃ entity place, path = outputPath args.output (Name.short entity) ∧
        args.Produces fs (Name.short entity) ∧ Lands after args.output (Name.short entity) place := by
  intro after
  have same : (fs.createDirectories args.output).1.root.contentAt = fs.root.contentAt :=
    funext (FileSystem.createDirectories_spec fs args.output).2
  rcases run_cases args fs with ⟨error, hr⟩ | ⟨loader, names, made, hp⟩
  · have hafter : after = (fs.createDirectories args.output).1 := congrArg Prod.fst hr
    rw [hafter, same, hr]
    exact ⟨fun place hne => absurd rfl hne, fun summary hs => absurd hs (by simp)⟩
  · have hr := run_of_prepare made hp
    have hafter : after = _ := congrArg Prod.fst hr
    obtain ⟨files, covers⟩ := exists_covers loader args names (fs.createDirectories args.output).1
    obtain ⟨located, changed⟩ := covers.changed
    rw [hafter, hr, ← same]
    refine ⟨fun place hne => ⟨_, rfl, changed place hne⟩, fun summary hs path hpath => ?_⟩
    obtain rfl := Except.ok.inj hs
    obtain ⟨place, hl⟩ := located path hpath
    have hw : path ∈ files.map fun f => outputPath args.output f.1 := covers.written ▸ hpath
    obtain ⟨f, hf, rfl⟩ := List.mem_map.1 hw
    obtain ⟨name, hn, generated, hg, hm⟩ :=
      exists_of_mem_attempts (mem_of_mem_firstFiles (covers.first.subset hf))
    obtain ⟨entity, he⟩ := exists_entity_of_filesOf hg hm
    rw [he] at hl ⊢
    refine ⟨entity, place, rfl, ⟨loader, names, hp, name, hn, generated, hg, ?_⟩, lands_of_locate hl⟩
    exact he ▸ List.mem_map_of_mem hm

/-- Three entities of a document: one whose short name is a name, one with a slash inside, and one that
starts with a slash. -/
theorem run_writes_slashes :
    ∃ (args : Arguments) (fs : FileSystem) (summary : Summary), (run args fs).2 = .ok summary ∧
      summary.written = ["o/A.ts".toList, "o/a/b.ts".toList, "/w/c.ts".toList] ∧
      (∀ path ∈ summary.written, ∃ entity place, path = outputPath args.output (Name.short entity) ∧
        args.Produces fs (Name.short entity) ∧
        Lands (run args fs).1 args.output (Name.short entity) place) ∧
      Path.IsChild args.output "A.ts".toList "o/A.ts".toList ∧
      (¬ ∃ name, Path.IsChild args.output name "o/a/b.ts".toList) ∧
      (¬ ∃ name, Path.IsChild args.output name "/w/c.ts".toList) ∧
      (run args fs).1.locate "/w/c.ts".toList = .ok [['w'], "c.ts".toList] := by
  let t : Text := "<entities><entity name='A'/><entity name='a/b'/><entity name='/w/c'/></entities>".toList
  let args : Arguments := ⟨['d'], ['o'], false, false, none, none, []⟩
  let fs : FileSystem :=
    ⟨.directory [(['d'], .file (.text t)), (['o'], .directory [(['a'], .empty)]), (['w'], .empty)], []⟩
  let written : List Text := ["o/A.ts".toList, "o/a/b.ts".toList, "/w/c.ts".toList]
  have hr : (run args fs).2 = .ok ⟨written, []⟩ := eq_ok_of_toOption (by decide +kernel)
  have output : Path.components args.output = [.name ['o']] := by decide +kernel
  refine ⟨args, fs, _, hr, rfl, (run_writes args fs).2 _ hr, by unfold Path.IsChild; decide +kernel, ?_, ?_,
    eq_ok_of_toOption (by decide +kernel)⟩
  · rintro ⟨name, hc⟩
    have three : (Path.components "o/a/b.ts".toList).length = 3 := by decide +kernel
    rw [show Path.components "o/a/b.ts".toList = _ from hc, List.length_append] at three
    exact absurd three (by simp [output])
  · rintro ⟨name, hc⟩
    have first : (Path.components "/w/c.ts".toList).head? = some .root := by decide +kernel
    rw [show Path.components "/w/c.ts".toList = _ from hc] at first
    exact absurd first (by simp [output])

end DeclGen.CommandLine
