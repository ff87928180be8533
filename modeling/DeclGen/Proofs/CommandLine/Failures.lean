import DeclGen.Proofs.CommandLine.Progress
import DeclGen.Proofs.Generation.BreadthFirst

/-!
# Failures do not disturb what is written

An entity that cannot be generated leaves one failure behind. Nothing of it is written, not even what its
closure had generated before it failed, so without these entities a run writes the same files.

* `Arguments.generates`, `attempts_filter` : entities that cannot be generated attempt nothing;
* `failures_isolated` : a run with and without them.
-/

namespace DeclGen.CommandLine

/-- Can the entity be generated? -/
def Arguments.generates (args : Arguments) (loader : Loader) (name : Text) : Bool :=
  (args.filesOf loader name).isOk

section Generates
variable {loader : Loader} {args : Arguments} {name : Text}

theorem generates_iff :
    args.generates loader name = true ↔ ∃ files, args.filesOf loader name = .ok files := by
  unfold Arguments.generates
  cases args.filesOf loader name <;> simp [Except.isOk, Except.toBool]

theorem attemptsOf_of_not_generates (h : args.generates loader name = false) :
    attemptsOf loader args name = [] := by
  cases hf : args.filesOf loader name with
  | ok files => exact absurd (generates_iff.2 ⟨files, hf⟩) (by simp [h])
  | error error => exact attemptsOf_error hf

theorem generationFailure?_of_generates (h : args.generates loader name = true) :
    generationFailure? loader args name = none := by
  obtain ⟨files, hf⟩ := generates_iff.1 h
  exact generationFailure?_ok hf

theorem attempts_filter (loader : Loader) (args : Arguments) (names : List Text) :
    attempts loader args (names.filter (args.generates loader)) = attempts loader args names := by
  induction names with
  | nil => rfl
  | cons name names ih =>
    cases h : args.generates loader name with
    | true => rw [List.filter_cons_of_pos h, attempts_cons, attempts_cons, ih]
    | false =>
      rw [List.filter_cons_of_neg (by simp [h]), attempts_cons, attemptsOf_of_not_generates h, ih]
      rfl

end Generates

/-- What is left of the failures of a run without the entities that cannot be generated. -/
theorem failures_filter (loader : Loader) (args : Arguments) (names : List Text) (fs : FileSystem) :
    (processNames loader args (names.filter (args.generates loader)) fs).summary.failures =
      (processNames loader args names fs).settled.summary.failures := by
  have none : (processNames loader args (names.filter (args.generates loader)) fs).generationFailures = [] := by
    rw [generationFailures_processNames, List.filterMap_eq_nil_iff]
    exact fun name hn => generationFailure?_of_generates (List.mem_filter.1 hn).2
  have writes : ∀ f ∈ (processNames loader args (names.filter (args.generates loader)) fs).summary.failures,
      f.cause.isWrite = true := by
    intro f hf
    simpa using List.filter_eq_nil_iff.1 none f hf
  rw [settled_processNames, ← attempts_filter, ← settled_processNames]
  exact (List.filter_eq_self.2 writes).symm

/-- **Failures of one entity do not disturb the others.** Without the entities that cannot be generated, a
run leaves the same files behind, written in the same order, and the failures are those to write a file.
If there are none of these, each entity that cannot be generated has one failure, in its place. If moreover
no short name has a slash, then no path is written twice, a file is written for each short name of an
entity that can be generated, and its text is that of the first one which has it. -/
theorem failures_isolated (loader : Loader) (args : Arguments) (names : List Text) (fs : FileSystem) :
    let all := processNames loader args names fs
    let kept := processNames loader args (names.filter (args.generates loader)) fs
    kept.files = all.files ∧ kept.summary.written = all.summary.written ∧
    kept.summary.failures = all.summary.failures.filter (·.cause.isWrite) ∧
    (all.summary.AllWritten →
      kept.summary.failures = [] ∧
      all.summary.failures = names.filterMap (generationFailure? loader args) ∧
      ((∀ name ∈ names, ∀ files, args.filesOf loader name = .ok files → ∀ f ∈ files, '/' ∉ f.1) →
        (all.summary.written.map Path.components).Nodup ∧
        ∃ shorts : List Text, all.summary.written = shorts.map (outputPath args.output) ∧
          (∀ short, short ∈ shorts ↔ (firstText loader args names short).isSome = true) ∧
          ∀ short text, firstText loader args names short = some text →
            all.files.readText (outputPath args.output short) = .ok text)) := by
  intro all kept
  have same : kept.settled = all.settled := by
    rw [settled_processNames, settled_processNames, attempts_filter]
  have failures : kept.summary.failures = all.settled.summary.failures := failures_filter loader args names fs
  have hfiles : kept.settled.files = all.settled.files := congrArg Progress.files same
  have hwritten : kept.settled.summary.written = all.settled.summary.written :=
    congrArg (fun p => p.summary.written) same
  refine ⟨hfiles, hwritten, failures, fun written => ?_⟩
  have settled : all.settled.summary.failures = [] := settled_failures_of_allWritten written
  refine ⟨failures.trans settled, failures_of_allWritten written, fun slash => ?_⟩
  have covers := covers_firstFiles written
  have hslash : ∀ f ∈ firstFiles ((attempts loader args names).map Prod.snd), '/' ∉ f.1 := by
    intro f hf
    obtain ⟨name, hn, files, hok, hm⟩ := exists_of_mem_attempts (mem_of_mem_firstFiles hf)
    exact slash name hn files hok f hm
  have lookup (short : Text) : (firstFiles ((attempts loader args names).map Prod.snd)).lookup short =
      firstText loader args names short := by
    rw [lookup_firstFiles, lookup_attempts]
  refine ⟨covers.nodup_components hslash,
    (firstFiles ((attempts loader args names).map Prod.snd)).map Prod.fst, ?_, fun short => ?_, ?_⟩
  · rw [List.map_map]
    exact covers.written
  · rw [← lookup, isSome_lookup_iff]
  · intro short text htext
    rw [← lookup] at htext
    exact covers.readText hslash (short, text) (Search.mem_of_lookup htext)

/-- Two namesakes, between them an entity whose closure fails after its own turn, at the end a name that
stands for nothing. -/
theorem failures_isolated_namesakes :
    ∃ (loader : Loader) (args : Arguments) (names : List Text) (fs : FileSystem),
      let all := processNames loader args names fs
      let kept := processNames loader args (names.filter (args.generates loader)) fs
      all.summary.AllWritten ∧
      all.summary.failures.map Failure.entity = ["B.Z".toList, "A.N".toList] ∧
      names.filter (args.generates loader) = ["A.X".toList, "B.X".toList] ∧
      kept.summary.written = all.summary.written ∧ kept.summary.failures = [] ∧
      all.summary.written = ["o/X.ts".toList, "o/Y.ts".toList] ∧
      (all.summary.written.map Path.components).Nodup ∧
      all.files.readText "o/X.ts".toList =
        .ok "import \x7b Y \x7d from './Y';\n\nexport interface X \x7b\n  Y: Y;\n\x7d\n".toList := by
  let r : Registry := Registry.empty.extend [.ofReferences "A.X".toList [['Y']],
    .ofReferences "A.Y".toList [], .ofReferences "B.X".toList [],
    .ofReferences "B.Z".toList [['F']], .ofReferences "B.F".toList [[]]]
  let args : Arguments := ⟨[], ['o'], false, false, none, none, []⟩
  let names : List Text := ["A.X".toList, "B.Z".toList, "B.X".toList, "A.N".toList]
  let fs : FileSystem := ⟨.directory [(['o'], .empty)], []⟩
  obtain ⟨-, hwritten, -, rest⟩ := failures_isolated r.loader args names fs
  have written : (processNames r.loader args names fs).summary.AllWritten := by
    unfold Summary.AllWritten
    decide +kernel
  obtain ⟨hkept, -, rest⟩ := rest written
  have slash : ∀ name ∈ names, ∀ files, args.filesOf r.loader name = .ok files → ∀ f ∈ files, '/' ∉ f.1 := by
    intro name hn files hf
    have all : ∀ name ∈ names, ∀ files ∈ (args.filesOf r.loader name).toOption, ∀ f ∈ files, '/' ∉ f.1 := by
      decide +kernel
    exact all name hn files (by rw [hf]; rfl)
  obtain ⟨nodup, -, -, -, texts⟩ := rest slash
  refine ⟨r.loader, args, names, fs, written, by decide +kernel, by decide +kernel, hwritten, hkept,
    by decide +kernel, nodup, ?_⟩
  exact texts ['X'] _ (by decide +kernel)

end DeclGen.CommandLine
