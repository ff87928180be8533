import DeclGen.Loader.Directory
import DeclGen.Proofs.File.Walk
import DeclGen.Proofs.Name

/-!
# The document of a name

A directory looks for the document of a name where the segments of the name lead, inside the scope.

* `documentName` : the file of a short name; `Path.setExtension_join` : it is what the extension makes of it;
* `Directory.inScope` : a name inside a scope; `Directory.relative?_eq_some_iff` : what is left of it without;
* `Directory.IsPlain` : the names whose segments may be names of files;
* `Directory.pathFor?_inScope`, `Directory.exists_of_pathFor?` : the path of the document of a name.
-/

namespace DeclGen
open Name (IsSegment ofSegments)

/-! ## Paths of documents -/

/-- The name of the document that defines the entity of a short name. -/
def documentName (segment : Text) : Text := segment ++ '.' :: Search.extension

theorem isDocument_documentName (segment : Text) : Search.isDocument (documentName segment) = true :=
  List.isSuffixOf_iff_suffix.2 (List.suffix_append _ _)

theorem documentName_injective {s t : Text} (h : documentName s = documentName t) : s = t :=
  List.append_cancel_right h

theorem Name.IsSegment.dotless {segment : Text} (h : IsSegment segment) : '.' ∉ segment :=
  fun hm => absurd (h.bare '.' hm) (by decide)

/-- A segment is the name of a file or of a directory below. -/
theorem Name.IsSegment.meant {segment : Text} (h : IsSegment segment) :
    segment ≠ [] ∧ segment ≠ ['.'] ∧ segment ≠ ['.', '.'] := by
  refine ⟨h.ne_nil, ?_, ?_⟩
  · rintro rfl
    exact h.dotless List.mem_cons_self
  · rintro rfl
    exact h.dotless List.mem_cons_self

theorem slash_notMem_documentName {segment : Text} (slash : '/' ∉ segment) : '/' ∉ documentName segment := by
  rw [documentName, List.mem_append, not_or]
  exact ⟨slash, by decide⟩

theorem documentName_meant (segment : Text) :
    documentName segment ≠ [] ∧ documentName segment ≠ ['.'] ∧ documentName segment ≠ ['.', '.'] := by
  have size : 4 ≤ (documentName segment).length := by
    rw [documentName, List.length_append]
    exact Nat.le_add_left 4 _
  refine ⟨?_, ?_, ?_⟩ <;> intro h <;> rw [h] at size <;> exact absurd size (by decide)

namespace Path
variable {path : Text} {segment : Text}

theorem stem_eq_self (h : '.' ∉ segment) : stem segment = segment := by
  have dotless : ∀ c ∈ segment, decide (c = '.') = false := by
    intro c hc
    exact decide_eq_false fun dot => h (dot ▸ hc)
  rw [stem, Text.beforeLast_eq_nil dotless]
  rfl

/-- Of the name of a document, the extension is dropped. -/
theorem stem_documentName (hne : segment ≠ []) : stem (documentName segment) = segment := by
  have before : Text.beforeLast (· = '.') (documentName segment) = segment := by
    rw [Text.beforeLast, documentName, List.reverse_append]
    show (segment.reverse).reverse = segment
    exact List.reverse_reverse segment
  rw [stem, before]
  exact if_neg hne

/-- The extension of documents is put behind the last segment. -/
theorem setExtension_join (hne : path ≠ []) (h : IsSegment segment) (slash : '/' ∉ segment) :
    setExtension Search.extension (join path segment) = join path (documentName segment) := by
  obtain ⟨nonempty, here, above⟩ := h.meant
  have meant : ¬ (segment = [] || segment = ['.']) = true := by simp [nonempty, here]
  have slash' : '/' ∉ documentName segment := slash_notMem_documentName slash
  obtain ⟨front, -, hj⟩ := segments_join hne
  have name : fileName? (join path segment) = some (front.reverse, segment) := by
    have last : (segment :: front.reverse).dropWhile (fun s => s = [] || s = ['.']) = segment :: front.reverse :=
      List.dropWhile_cons_of_neg meant
    rw [fileName?, hj segment slash, List.reverse_append, List.reverse_singleton, List.singleton_append, last]
    exact if_neg above
  have whole := Text.intercalate_split '/' (join path (documentName segment))
  rw [show Text.split (· = '/') (join path (documentName segment)) = _ from hj _ slash'] at whole
  rw [setExtension, name, ← whole]
  simp only [stem_eq_self h.dotless, List.reverse_cons, List.reverse_reverse]
  rfl

end Path

/-! ## Names and paths -/

namespace Directory
variable {d : Directory} {name relative path : Text}

/-- What was opened is the base, which is there, and the scope in normal form. -/
theorem of_openAt {fs : FileSystem} {base scope : Text} (h : openAt fs base scope = .ok d) :
    d = ⟨base, Name.normalize scope⟩ ∧ base ≠ [] ∧ fs.isDirectory base = true := by
  unfold openAt at h
  split at h
  · next directory =>
    refine ⟨(Except.ok.inj h).symm, ?_, directory⟩
    rintro rfl
    exact absurd directory (by simp [FileSystem.isDirectory, FileSystem.entry, FileSystem.locate, Except.toOption])
  · exact absurd h (by simp)

/-- A name inside a scope. -/
def inScope (scope relative : Text) : Text := if scope = [] then relative else scope ++ '\\' :: relative

theorem mem_inScope {scope : Text} {c : Char} (h : c ∈ relative) : c ∈ inScope scope relative := by
  unfold inScope
  split
  · exact h
  · exact List.mem_append_right _ (List.mem_cons_of_mem _ h)

theorem inScope_injective {scope a b : Text} (h : inScope scope a = inScope scope b) : a = b := by
  unfold inScope at h
  split at h
  · exact h
  · exact (List.cons.inj (List.append_cancel_left h)).2

theorem normalize_inScope {scope : Text} (hs : Name.normalize scope = scope) {segments : List Text}
    (h : ∀ s ∈ segments, IsSegment s) :
    Name.normalize (inScope scope (ofSegments segments)) = inScope scope (ofSegments segments) := by
  have reference := Name.isReference_ofSegments h
  unfold inScope
  split
  · exact Name.normalize_eq_self reference
  · next hne => exact Name.normalize_append hs hne reference.ends reference.unified

theorem relative?_eq_some_iff (hne : relative ≠ []) :
    d.relative? name = some relative ↔ name = inScope d.scope relative := by
  unfold relative? inScope
  split
  · exact Option.some_inj
  · split
    · next none =>
      refine ⟨fun h => absurd h (by simp), fun h => ?_⟩
      rw [Text.after?_eq_some_iff.2 h] at none
      exact absurd none (by simp)
    · next whole =>
      refine ⟨fun h => absurd (Option.some.inj h) hne.symm, fun h => ?_⟩
      rw [Text.after?_eq_some_iff.2 h] at whole
      exact absurd whole (by simp)
    · next c rest found =>
      have shape := Text.after?_eq_some_iff.1 found
      constructor
      · intro h
        split at h
        · next hc => rw [shape, hc, Option.some.inj h]
        · exact absurd h (by simp)
      · intro h
        obtain ⟨rfl, rfl⟩ := List.cons.inj (List.append_cancel_left (shape.symm.trans h))
        exact if_pos rfl

theorem pathFor?_eq_some_iff : d.pathFor? name = some path ↔ ∃ relative, relative ≠ [] ∧
    Name.normalize name = inScope d.scope relative ∧
    path = Path.setExtension Search.extension ((nameSegments relative).foldl Path.join d.base) := by
  unfold pathFor?
  constructor
  · intro h
    split at h
    · exact absurd h (by simp)
    · exact absurd h (by simp)
    · next rel nonempty found =>
      exact ⟨rel, nonempty, (relative?_eq_some_iff nonempty).1 found, (Option.some.inj h).symm⟩
  · rintro ⟨rel, nonempty, hname, rfl⟩
    rw [(relative?_eq_some_iff nonempty).2 hname]
    split
    · next none => exact absurd none (by simp)
    · next empty => exact absurd (Option.some.inj empty) nonempty
    · next found => rw [Option.some.inj found]

/-- The segments of a name are such as names of files without extensions. -/
def IsPlain (name : Text) : Prop := ∀ s ∈ nameSegments name, IsSegment s ∧ '/' ∉ s

instance (name : Text) : Decidable (IsPlain name) :=
  inferInstanceAs (Decidable (∀ s ∈ nameSegments name, IsSegment s ∧ '/' ∉ s))

theorem ofSegments_nameSegments (name : Text) : ofSegments (nameSegments name) = name :=
  Text.intercalate_split '\\' name

theorem IsPlain.of_inScope {scope : Text} (h : IsPlain (inScope scope relative)) : IsPlain relative := by
  unfold inScope at h
  split at h
  · exact h
  · intro s hs
    refine h s ?_
    rw [nameSegments, Text.split_append_cons (decide_eq_true rfl)]
    exact List.mem_append_right _ hs

theorem nameSegments_ofSegments {segments : List Text} (hne : segments ≠ [])
    (h : ∀ s ∈ segments, IsSegment s) : nameSegments (ofSegments segments) = segments := by
  refine Text.split_intercalate hne fun s hs hm => ?_
  exact absurd ((h s hs).bare _ hm) (by decide)

theorem foldl_join_ne_nil {names : List Text} (slash : ∀ n ∈ names, '/' ∉ n) :
    ∀ {path : Text}, path ≠ [] → names.foldl Path.join path ≠ [] := by
  induction names with
  | nil => exact fun h => h
  | cons name names ih =>
    intro path hne
    rw [List.forall_mem_cons] at slash
    exact ih slash.2 (FileSystem.join_ne_nil hne (Path.isAbsolute_of_slash slash.1))

theorem setExtension_foldl_join {front : List Text} {segment : Text} (hne : path ≠ [])
    (h : ∀ s ∈ front ++ [segment], IsSegment s ∧ '/' ∉ s) :
    Path.setExtension Search.extension ((front ++ [segment]).foldl Path.join path) =
      (front ++ [documentName segment]).foldl Path.join path := by
  have last := h segment (by simp)
  have above : front.foldl Path.join path ≠ [] :=
    foldl_join_ne_nil (fun s hs => (h s (List.mem_append_left _ hs)).2) hne
  rw [List.foldl_append, List.foldl_append]
  exact Path.setExtension_join above last.1 last.2

/-- The path of the document of a name inside the scope. -/
theorem pathFor?_inScope {front : List Text} {segment : Text} (hbase : d.base ≠ [])
    (hname : Name.normalize name = inScope d.scope (ofSegments (front ++ [segment])))
    (h : ∀ s ∈ front ++ [segment], IsSegment s ∧ '/' ∉ s) :
    d.pathFor? name = some ((front ++ [documentName segment]).foldl Path.join d.base) := by
  have valid : ∀ s ∈ front ++ [segment], IsSegment s := fun s hs => (h s hs).1
  refine pathFor?_eq_some_iff.2 ⟨_, Name.ofSegments_ne_nil valid (by simp), hname, ?_⟩
  rw [nameSegments_ofSegments (by simp) valid, setExtension_foldl_join hbase h]

/-- A plain name that has a document stands in the scope. -/
theorem exists_of_pathFor? (hbase : d.base ≠ []) (hname : Name.normalize name = name) (plain : IsPlain name)
    (h : d.pathFor? name = some path) : ∃ front segment,
      (∀ s ∈ front ++ [segment], IsSegment s ∧ '/' ∉ s) ∧
      name = inScope d.scope (ofSegments (front ++ [segment])) ∧
      path = (front ++ [documentName segment]).foldl Path.join d.base := by
  obtain ⟨relative, -, hrel, rfl⟩ := pathFor?_eq_some_iff.1 h
  rw [hname] at hrel
  subst hrel
  have valid : IsPlain relative := plain.of_inScope
  obtain none | ⟨front, segment, hs⟩ := List.eq_nil_or_concat (nameSegments relative)
  · exact absurd none (Text.split_ne_nil _ _)
  · rw [List.concat_eq_append] at hs
    unfold IsPlain at valid
    rw [hs] at valid
    refine ⟨front, segment, valid, ?_, ?_⟩
    · rw [← hs, ofSegments_nameSegments]
    · rw [hs, setExtension_foldl_join hbase valid]

end Directory

/-- A plain name is in normal form. -/
theorem normalize_of_isPlain {name : Text} (h : Directory.IsPlain name) : Name.normalize name = name := by
  have reference := Name.isReference_ofSegments fun s hs => (h s hs).1
  rw [Directory.ofSegments_nameSegments] at reference
  exact Name.normalize_eq_self reference

end DeclGen
