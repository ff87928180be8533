import DeclGen.Proofs.Loader.Mirror
import DeclGen.Proofs.Loader.Pattern
import Mathlib.Data.List.Basic
import Mathlib.Data.List.Nodup

/-!
# What patterns stand for

In a tree whose directories and documents have names such as segments, a pattern stands for exactly the names of the
documents in the directory of its namespace, or below it.

* `Entry.Tidy` : such trees; `Entry.Tidy.below`, `Entry.Tidy.segments` : their directories are such, and the names in
  them lead to segments;
* `IsNamespace`, `Within` : namespaces, and one inside another; `within_ofSegments_iff` : in terms of segments;
* `Directory.pattern`, `Directory.patternScope?_pattern` : the two patterns of a namespace;
* `Directory.of_directoryOf?`, `Directory.directoryOf?_eq_none_iff` : the directory of a namespace, if it has one;
* `Directory.exists_listed` : the names that are listed in it;
* `Directory.isFile_pathFor?_iff_find?` : the names that have a document;
* `Directory.expand_namespace` : a pattern stands for those of its namespace.
-/

namespace DeclGen
open Name (IsSegment ofSegments)
open FileSystem (IsFileName)

/-! ## Tidy trees -/

/-- The directories and the documents of the tree have names such as segments, and every document is a file. -/
structure Entry.Tidy (e : Entry) : Prop where
  distinct : Search.Distinct e
  fileName : ∀ names name d, e.find? (names ++ [name]) = some d → IsFileName name
  directory : ∀ names name children, e.find? (names ++ [name]) = some (.directory children) → IsSegment name
  document : ∀ names name content, e.find? (names ++ [name]) = some (.file content) →
    Search.isDocument name = true → ∃ segment, name = documentName segment ∧ IsSegment segment

namespace Entry.Tidy
variable {e d : Entry} {names : List Text}

theorem below (h : e.Tidy) (hd : e.find? names = some d) : d.Tidy := by
  have deeper {more : List Text} {c : Entry} (hc : d.find? more = some c) : e.find? (names ++ more) = some c := by
    rw [find?_append, hd]
    exact hc
  refine ⟨fun more children hc => h.distinct _ children (deeper hc), fun more name c hc => ?_,
    fun more name children hc => ?_, fun more name content hc => ?_⟩
  · exact h.fileName (names ++ more) name c (by rw [List.append_assoc]; exact deeper hc)
  · exact h.directory (names ++ more) name children (by rw [List.append_assoc]; exact deeper hc)
  · exact h.document (names ++ more) name content (by rw [List.append_assoc]; exact deeper hc)

theorem fileNames (h : e.Tidy) (hd : e.find? names = some d) : ∀ n ∈ names, IsFileName n := by
  intro n hn
  obtain ⟨front, rest, rfl⟩ := List.append_of_mem hn
  rw [List.append_cons, find?_append, Option.bind_eq_some_iff] at hd
  obtain ⟨c, hc, -⟩ := hd
  exact h.fileName front n c hc

/-- What stands above an entry is a directory. -/
theorem segments_above (h : e.Tidy) {front : List Text} {name : Text} (hd : e.find? (front ++ [name]) = some d) :
    ∀ s ∈ front, IsSegment s := by
  intro s hs
  obtain ⟨above, rest, rfl⟩ := List.append_of_mem hs
  have parts : above ++ s :: rest ++ [name] = (above ++ [s]) ++ (rest ++ [name]) := by simp
  rw [parts, find?_append, Option.bind_eq_some_iff] at hd
  obtain ⟨c, hc, hd⟩ := hd
  cases c with
  | file content => exact absurd (Entry.eq_file_of_find? hd).1 (by simp)
  | directory children => exact h.directory above s children hc

/-- The names that lead to a document are those of segments, but for its extension. -/
theorem segments (h : e.Tidy) {front : List Text} {name : Text} (hd : e.find? (front ++ [name]) = some d)
    (document : Search.isDocument name = true) : ∃ segment content, name = documentName segment ∧
      d = .file content ∧ ∀ s ∈ front ++ [segment], IsSegment s ∧ '/' ∉ s := by
  have names := h.fileNames hd
  rw [List.forall_mem_append, List.forall_mem_singleton] at names
  cases d with
  | directory children =>
    have dot : '.' ∈ name := (List.isSuffixOf_iff_suffix.1 document).subset List.mem_cons_self
    exact absurd dot (h.directory front name children hd).dotless
  | file content =>
    obtain ⟨segment, rfl, valid⟩ := h.document front name content hd document
    refine ⟨segment, content, rfl, rfl, ?_⟩
    rw [List.forall_mem_append, List.forall_mem_singleton]
    exact ⟨fun s hs => ⟨h.segments_above hd s hs, (names.1 s hs).slash⟩, valid,
      fun hm => names.2.slash (List.mem_append_left _ hm)⟩

end Entry.Tidy

/-! ## Namespaces -/

/-- A namespace, or the empty text: segments without slashes and stars. -/
def IsNamespace (ns : Text) : Prop :=
  ∃ segments, ns = ofSegments segments ∧ ∀ s ∈ segments, IsSegment s ∧ '/' ∉ s ∧ '*' ∉ s

/-- The namespace is the outer one or lies below it; every namespace lies below the empty one. -/
def Within (outer ns : Text) : Prop := ns = outer ∨ outer = [] ∨ outer ++ ['\\'] <+: ns

/-- The names in a namespace, or in it and below. -/
def InNamespace (ns : Text) (below : Bool) (name : Text) : Prop :=
  if below then Within ns (Name.scope name) else Name.scope name = ns

section Segments
variable {a b : List Text}

theorem Name.ofSegments_append (ha : a ≠ []) (hb : b ≠ []) :
    ofSegments (a ++ b) = ofSegments a ++ '\\' :: ofSegments b := by
  induction a with
  | nil => exact absurd rfl ha
  | cons s a ih =>
    by_cases single : a = []
    · rw [single, List.singleton_append, ofSegments_cons hb, ofSegments_singleton]
    · rw [List.cons_append, ofSegments_cons (by simp [single]), ofSegments_cons single, ih single, List.append_assoc,
        List.cons_append]

theorem Name.ofSegments_injective (ha : ∀ s ∈ a, IsSegment s) (hb : ∀ s ∈ b, IsSegment s)
    (h : ofSegments a = ofSegments b) : a = b := by
  by_cases none : a = []
  · subst none
    by_cases none : b = []
    · exact none.symm
    · exact absurd h.symm (ofSegments_ne_nil hb none)
  · have some : b ≠ [] := by
      rintro rfl
      exact ofSegments_ne_nil ha none h
    rw [← Directory.nameSegments_ofSegments none ha, h, Directory.nameSegments_ofSegments some hb]

theorem inScope_ofSegments (ha : ∀ s ∈ a, IsSegment s) (hb : b ≠ []) :
    Directory.inScope (ofSegments a) (ofSegments b) = ofSegments (a ++ b) := by
  unfold Directory.inScope
  by_cases none : a = []
  · subst none
    exact if_pos rfl
  · rw [if_neg (Name.ofSegments_ne_nil ha none), Name.ofSegments_append none hb]

theorem inScope_concat (ha : ∀ s ∈ a, IsSegment s) (front : List Text) (segment : Text) :
    Directory.inScope (ofSegments a) (ofSegments (front ++ [segment])) = ofSegments ((a ++ front) ++ [segment]) := by
  rw [inScope_ofSegments ha (by simp), List.append_assoc]

/-- A namespace lies in another one iff its segments continue those of the other. -/
theorem within_ofSegments_iff (ha : ∀ s ∈ a, IsSegment s) (hb : ∀ s ∈ b, IsSegment s) :
    Within (ofSegments a) (ofSegments b) ↔ a <+: b := by
  by_cases none : a = []
  · subst none
    exact iff_of_true (Or.inr (Or.inl rfl)) (List.nil_prefix)
  constructor
  · rintro (same | empty | ⟨rest, hrest⟩)
    · exact Name.ofSegments_injective hb ha same ▸ List.prefix_rfl
    · exact absurd empty (Name.ofSegments_ne_nil ha none)
    · have some : b ≠ [] := by
        rintro rfl
        exact absurd hrest (by simp [ofSegments])
      rw [← Directory.nameSegments_ofSegments some hb, ← hrest, List.append_assoc, List.singleton_append,
        Directory.nameSegments, Text.split_append_cons (decide_eq_true rfl)]
      rw [show Text.split (· = '\\') (ofSegments a) = a from Directory.nameSegments_ofSegments none ha]
      exact List.prefix_append _ _
  · rintro ⟨rest, rfl⟩
    by_cases last : rest = []
    · rw [last, List.append_nil]
      exact Or.inl rfl
    · refine Or.inr (Or.inr ⟨ofSegments rest, ?_⟩)
      rw [Name.ofSegments_append none last, List.append_assoc, List.singleton_append]

/-- A name of segments is in a namespace iff its segments continue those of the namespace, by one only if what is
below is left out. -/
theorem inNamespace_iff {outer above front : List Text} {segment : Text} (ho : ∀ s ∈ outer ++ above, IsSegment s)
    (h : ∀ s ∈ (outer ++ front) ++ [segment], IsSegment s) (below : Bool) :
    InNamespace (ofSegments (outer ++ above)) below (ofSegments ((outer ++ front) ++ [segment])) ↔
      ∃ more, front = above ++ more ∧ (below = true ∨ more = []) := by
  have inside : ∀ s ∈ outer ++ front, IsSegment s := fun s hs => h s (List.mem_append_left _ hs)
  rw [InNamespace, Name.scope_ofSegments_concat h]
  cases below with
  | true =>
    rw [if_pos rfl, within_ofSegments_iff ho inside, List.prefix_append_right_inj]
    constructor
    · rintro ⟨more, rfl⟩
      exact ⟨more, rfl, Or.inl rfl⟩
    · rintro ⟨more, rfl, -⟩
      exact List.prefix_append _ _
  | false =>
    rw [if_neg (by decide)]
    constructor
    · intro same
      refine ⟨[], ?_, Or.inr rfl⟩
      rw [List.append_nil]
      exact List.append_cancel_left (Name.ofSegments_injective inside ho same)
    · rintro ⟨more, rfl, sub | rfl⟩
      · exact absurd sub (by decide)
      · rw [List.append_nil]

end Segments

namespace Directory
variable {d : Directory} {fs : FileSystem}

/-! ## Patterns of namespaces -/

/-- The pattern of what stands in a namespace, or of what stands in it and below. -/
def pattern (ns : Text) (below : Bool) : Text := ns ++ if below then ['\\', '*', '\\', '*'] else ['\\', '*']

theorem patternScope?_pattern {segments : List Text} (h : ∀ s ∈ segments, IsSegment s ∧ '*' ∉ s) (below : Bool) :
    patternScope? (Name.normalize (pattern (ofSegments segments) below)) = some (ofSegments segments, below) := by
  by_cases none : segments = []
  · subst none
    cases below <;> rfl
  have valid : ∀ s ∈ segments, IsSegment s := fun s hs => (h s hs).1
  have hne := Name.ofSegments_ne_nil valid none
  have normal := Name.normalize_eq_self (Name.isReference_ofSegments valid)
  have starless : '*' ∉ ofSegments segments := by
    intro hm
    rcases Name.mem_ofSegments hm with hc | ⟨s, hs, hm⟩
    · exact absurd hc (by decide)
    · exact (h s hs).2 hm
  generalize ofSegments segments = ns at hne normal starless
  have other (rest ending : Text) : ns ++ rest ≠ '*' :: ending := by
    obtain ⟨c, t, rfl⟩ := List.exists_cons_of_ne_nil hne
    intro same
    exact starless ((List.cons.inj same).1 ▸ List.mem_cons_self)
  have star : ∀ c ∈ some '*', Text.isBlank c = false := by
    rintro _ ⟨⟩
    rfl
  cases below with
  | true =>
    have whole : Name.normalize (pattern ns true) = ns ++ ['\\', '*', '\\', '*'] :=
      Name.normalize_append normal hne star (Text.forall_mem_of_all (by decide))
    rw [whole, patternScope?, if_neg (other _ _), if_neg (other _ _),
      if_pos (List.isSuffixOf_iff_suffix.2 (List.suffix_append _ _))]
    simp
  | false =>
    have whole : Name.normalize (pattern ns false) = ns ++ ['\\', '*'] :=
      Name.normalize_append normal hne star (Text.forall_mem_of_all (by decide))
    have direct : ¬ ['\\', '*', '\\', '*'] <:+ ns ++ ['\\', '*'] := by
      rintro ⟨t, ht⟩
      have longer : t ++ ['\\', '*'] ++ ['\\', '*'] = ns ++ ['\\', '*'] := by simpa using ht
      have start : t ++ ['\\', '*'] = ns := List.append_cancel_right longer
      exact starless (start ▸ List.mem_append_right _ (by decide))
    rw [whole, patternScope?, if_neg (other _ _), if_neg (other _ _),
      if_neg (mt List.isSuffixOf_iff_suffix.1 direct),
      if_pos (List.isSuffixOf_iff_suffix.2 (List.suffix_append _ _))]
    simp

/-- What a pattern of a namespace stands for is told by the directory of the namespace. -/
theorem expand_pattern {segments : List Text} (h : ∀ s ∈ segments, IsSegment s ∧ '*' ∉ s) (below : Bool) :
    d.expand fs (pattern (ofSegments segments) below) =
      match d.directoryOf? (ofSegments segments) with
      | none => .error (.notFound (Name.normalize (pattern (ofSegments segments) below)))
      | some path =>
        if fs.isDirectory path then
          .ok ((if below then Search.documentsBelow fs path else Search.documentsIn fs path).filterMap d.nameOf?)
        else .error (.notFound (Name.normalize (pattern (ofSegments segments) below))) := by
  have scope := patternScope?_pattern h below
  cases found : d.directoryOf? (ofSegments segments) with
  | none => simp only [expand, scope, found]
  | some path => simp only [expand, scope, found]

/-! ## Directories of namespaces -/

section Directories
variable {base : Text} {outer inner segments : List Text}

/-- Inside the scope, the further segments of a namespace lead from the base to its directory. -/
theorem directoryOf?_append (ho : ∀ s ∈ outer, IsSegment s) (hi : ∀ s ∈ inner, IsSegment s)
    (hne : outer ++ inner ≠ []) :
    (Directory.mk base (ofSegments outer)).directoryOf? (ofSegments (outer ++ inner)) =
      some (inner.foldl Path.join base) := by
  have all : ∀ s ∈ outer ++ inner, IsSegment s := List.forall_mem_append.2 ⟨ho, hi⟩
  have rest : (Directory.mk base (ofSegments outer)).relative? (ofSegments (outer ++ inner)) =
      some (ofSegments inner) := by
    by_cases none : inner = []
    · subst none
      rw [List.append_nil] at hne ⊢
      have whole : Text.after? (ofSegments outer) (ofSegments outer) = some [] :=
        Text.after?_eq_some_iff.2 (List.append_nil _).symm
      rw [relative?, if_neg (Name.ofSegments_ne_nil ho hne), whole]
      rfl
    · exact (relative?_eq_some_iff (Name.ofSegments_ne_nil hi none)).2 (inScope_ofSegments ho none).symm
  have names : (nameSegments (ofSegments inner)).filter (· != []) = inner := by
    by_cases none : inner = []
    · subst none
      rfl
    · rw [nameSegments_ofSegments none hi]
      exact List.filter_eq_self.2 fun s hs => by simpa using (hi s hs).ne_nil
  rw [directoryOf?, if_neg (Name.ofSegments_ne_nil all hne), rest]
  exact congrArg (fun names => some (names.foldl Path.join base)) names

/-- Outside the scope, a namespace has no directory. -/
theorem directoryOf?_eq_none (base : Text) (ho : ∀ s ∈ outer, IsSegment s) (hs : ∀ s ∈ segments, IsSegment s)
    (hne : segments ≠ []) (outside : ¬ outer <+: segments) :
    (Directory.mk base (ofSegments outer)).directoryOf? (ofSegments segments) = none := by
  have some : outer ≠ [] := by
    rintro rfl
    exact outside List.nil_prefix
  rw [← within_ofSegments_iff ho hs] at outside
  have rest : (Directory.mk base (ofSegments outer)).relative? (ofSegments segments) = none := by
    rw [relative?, if_neg (Name.ofSegments_ne_nil ho some)]
    split
    · rfl
    · next whole =>
      have same := Text.after?_eq_some_iff.1 whole
      rw [List.append_nil] at same
      exact absurd (Or.inl same) outside
    · next c rest found =>
      refine if_neg ?_
      rintro rfl
      refine outside (Or.inr (Or.inr ⟨rest, ?_⟩))
      rw [Text.after?_eq_some_iff.1 found, List.append_assoc, List.singleton_append]
  rw [directoryOf?, if_neg (Name.ofSegments_ne_nil hs hne), rest]
  rfl

/-- A namespace without a directory is outside the scope; the empty one has the base. -/
theorem directoryOf?_eq_none_iff (base : Text) (ho : ∀ s ∈ outer, IsSegment s) (hs : ∀ s ∈ segments, IsSegment s) :
    (Directory.mk base (ofSegments outer)).directoryOf? (ofSegments segments) = none ↔
      ofSegments segments ≠ [] ∧ ¬ Within (ofSegments outer) (ofSegments segments) := by
  rw [within_ofSegments_iff ho hs]
  by_cases empty : segments = []
  · subst empty
    exact iff_of_false (Option.some_ne_none base) fun h => h.1 rfl
  by_cases inside : outer <+: segments
  · obtain ⟨above, rfl⟩ := inside
    rw [directoryOf?_append ho (List.forall_mem_append.1 hs).2 empty]
    exact iff_of_false (by simp) fun h => h.2 (List.prefix_append outer above)
  · exact iff_of_true (directoryOf?_eq_none base ho hs empty inside) ⟨Name.ofSegments_ne_nil hs empty, inside⟩

/-- The directory of a namespace is where further segments lead from the base, and the namespace is the scope with
these segments. -/
theorem of_directoryOf? {path : Text} (ho : ∀ s ∈ outer, IsSegment s) (hs : ∀ s ∈ segments, IsSegment s ∧ '/' ∉ s)
    (h : (Directory.mk base (ofSegments outer)).directoryOf? (ofSegments segments) = some path) :
    ∃ above, (∀ s ∈ above, IsSegment s ∧ '/' ∉ s) ∧ path = above.foldl Path.join base ∧
      (if ofSegments segments = [] then ofSegments outer else ofSegments segments) = ofSegments (outer ++ above) := by
  have valid : ∀ s ∈ segments, IsSegment s := fun s hs' => (hs s hs').1
  by_cases empty : segments = []
  · subst empty
    exact ⟨[], by simp, (Option.some.inj h).symm, by rw [List.append_nil]; rfl⟩
  have some := Name.ofSegments_ne_nil valid empty
  by_cases inside : outer <+: segments
  · obtain ⟨above, rfl⟩ := inside
    rw [directoryOf?_append ho (List.forall_mem_append.1 valid).2 empty] at h
    exact ⟨above, (List.forall_mem_append.1 hs).2, (Option.some.inj h).symm, if_neg some⟩
  · rw [directoryOf?_eq_none base ho valid empty inside] at h
    exact absurd h (by simp)

end Directories

/-! ## Listed names -/

/-- The name of the document that names lead to below other names inside the scope: that of the segments, the last
one without its extension. -/
def nameBelow (scope : Text) (above names : List Text) : Text :=
  inScope scope (ofSegments (above ++ (names.dropLast ++ (names.getLast?.map Path.stem).toList)))

theorem nameBelow_concat (scope : Text) (above front : List Text) {segment : Text} (hne : segment ≠ []) :
    nameBelow scope above (front ++ [documentName segment]) =
      inScope scope (ofSegments ((above ++ front) ++ [segment])) := by
  rw [nameBelow, List.dropLast_concat, List.getLast?_concat, Option.map_some, Path.stem_documentName hne,
    List.append_assoc]
  rfl

/-- A path that is listed below the base is named by what leads to it. -/
theorem nameOf?_listed {base scope found : Text} (hscope : Name.normalize scope = scope) {above front : List Text}
    {segment : Text} (hne : found ≠ []) (other : Search.isHere found = false)
    (hfound : Path.components found = Path.components base ++ above.map Path.Component.name)
    (ha : ∀ s ∈ above, IsSegment s) (h : ∀ s ∈ front ++ [segment], IsSegment s ∧ '/' ∉ s) :
    (Directory.mk base scope).nameOf? ((front ++ [documentName segment]).foldl Search.inside found) =
      some (nameBelow scope above (front ++ [documentName segment])) := by
  have last := (h segment (by simp)).1.ne_nil
  have names : ∀ n ∈ front ++ [documentName segment], Path.IsName n ∧ '/' ∉ n := by
    rw [List.forall_mem_append, List.forall_mem_singleton] at h ⊢
    exact ⟨fun s hs => ⟨(h.1 s hs).1.meant, (h.1 s hs).2⟩, documentName_meant segment,
      slash_notMem_documentName h.2.2⟩
  have texts : ((above ++ front).map Path.Component.name).map Path.Component.text = above ++ front := by
    rw [List.map_map]
    exact List.map_id _
  have all : ∀ s ∈ (above ++ front) ++ [segment], IsSegment s := by
    rw [List.append_assoc, List.forall_mem_append]
    exact ⟨ha, fun s hs => (h s hs).1⟩
  rw [nameBelow_concat scope above front last]
  refine nameOf?_eq_some_iff.2
    ⟨(above ++ front).map Path.Component.name ++ [.name (documentName segment)], by simp, ?_, ?_⟩
  · rw [Search.components_foldl_inside names hne other, hfound]
    simp
  · rw [Path.dropExtension_concat, List.map_append, texts, Path.stem_documentName last, join_eq_inScope, hscope]
    exact congrArg _ (Name.normalize_eq_self (Name.isReference_ofSegments all)).symm

end Directory

theorem Entry.Tidy.of_mem_documents {e : Entry} (h : e.Tidy) {names : List Text} (hn : names ∈ Search.documents e) :
    ∃ front segment content, names = front ++ [documentName segment] ∧ e.find? names = some (.file content) ∧
      ∀ s ∈ front ++ [segment], IsSegment s ∧ '/' ∉ s := by
  obtain ⟨⟨d, hd⟩, front, name, rfl, document⟩ := (Search.mem_documents h.distinct).1 hn
  obtain ⟨segment, content, rfl, rfl, valid⟩ := h.segments hd document
  exact ⟨front, segment, content, rfl, hd, valid⟩

namespace Search
variable {fs : FileSystem} {path : Text} {here : List Text}

theorem not_lost {path : Text} (hne : path ≠ []) (undotted : .current ∉ Path.components path) :
    ¬ Search.Lost path := by
  rintro ⟨relative, empty⟩
  obtain ⟨s, rest, hs⟩ := List.exists_cons_of_ne_nil (Path.segments_ne_nil path)
  have other : s ≠ ['.'] := by
    rintro rfl
    refine undotted (List.mem_append_left _ ?_)
    rw [Path.leading, if_neg (by simp [relative]), if_pos (by rw [hs]; rfl)]
    exact List.mem_cons_self
  rw [hs, List.dropWhile_cons_of_neg (by simpa using other), ← hs] at empty
  exact Path.head?_segments hne relative empty

/-- The documents in a directory, or in it and below, are listed under a path of the components of the directory. -/
theorem exists_listed {children : List (Text × Entry)} (h : fs.locate path = .ok here)
    (he : fs.root.find? here = some (.directory children)) (undotted : .current ∉ Path.components path)
    (below : Bool) :
    ∃ found ≠ [], isHere found = false ∧ Path.components found = Path.components path ∧
      (if below then documentsBelow fs path else documentsIn fs path) =
        ((documents (.directory children)).filter fun names => below || names.length = 1).map
          (·.foldl inside found) := by
  obtain ⟨hne, -⟩ := FileSystem.of_locate h
  obtain ⟨found, hfound, -, listed⟩ := list_eq h he (not_lost hne undotted)
  have same := components_directory? hne undotted hfound
  have nonempty : found ≠ [] := by
    rintro rfl
    exact Path.components_ne_nil hne same.symm
  refine ⟨found, nonempty, not_isHere_of_current (same ▸ undotted), same, ?_⟩
  cases below with
  | true =>
    have all : ((documents (.directory children)).filter fun names => true || names.length = 1) =
        documents (.directory children) := List.filter_eq_self.2 fun _ _ => rfl
    rw [all]
    exact (listed _).trans (belowAll_eq found children)
  | false => exact (listed _).trans (direct_eq found children)

end Search

section Tree
variable {fs : FileSystem} {base scope name : Text} {here : List Text} {root e : Entry}

/-- No two documents below a directory have the same name. -/
theorem nodup_names (tidy : root.Tidy) {above : List Text} (ha : ∀ s ∈ above, IsSegment s)
    (hd : root.find? above = some e) (p : List Text → Bool) (scope : Text) :
    (((Search.documents e).filter p).map (Directory.nameBelow scope above)).Nodup := by
  refine ((Search.nodup_documents e (tidy.below hd).distinct).filter _).map_on fun names hn names' hn' same => ?_
  obtain ⟨front, segment, -, rfl, -, valid⟩ := (tidy.below hd).of_mem_documents (List.mem_filter.1 hn).1
  obtain ⟨front', segment', -, rfl, -, valid'⟩ := (tidy.below hd).of_mem_documents (List.mem_filter.1 hn').1
  have segments : ∀ s ∈ (above ++ front) ++ [segment], IsSegment s := by
    rw [List.append_assoc, List.forall_mem_append]
    exact ⟨ha, fun s hs => (valid s hs).1⟩
  have segments' : ∀ s ∈ (above ++ front') ++ [segment'], IsSegment s := by
    rw [List.append_assoc, List.forall_mem_append]
    exact ⟨ha, fun s hs => (valid' s hs).1⟩
  rw [Directory.nameBelow_concat _ _ _ (segments segment (by simp)).ne_nil,
    Directory.nameBelow_concat _ _ _ (segments' segment' (by simp)).ne_nil] at same
  obtain ⟨fronts, lasts⟩ := List.append_inj'
    (Name.ofSegments_injective segments segments' (Directory.inScope_injective same)) rfl
  rw [List.append_cancel_left fronts, List.head_eq_of_cons_eq lasts]

variable (hloc : fs.locate base = .ok here) (he : fs.root.find? here = some root) (tidy : root.Tidy)
include hloc he tidy

/-- The names of what is listed in a directory below the base, each told by what leads to it. -/
theorem names_of_listed (undotted : .current ∉ Path.components base) (hscope : Name.normalize scope = scope)
    {above : List Text} (ha : ∀ s ∈ above, IsSegment s ∧ '/' ∉ s) (hd : root.find? above = some e)
    (hdir : e.isDirectory = true) (below : Bool) :
    (if below then Search.documentsBelow fs (above.foldl Path.join base)
      else Search.documentsIn fs (above.foldl Path.join base)).filterMap (Directory.mk base scope).nameOf? =
        ((Search.documents e).filter fun names => below || names.length = 1).map
          (Directory.nameBelow scope above) := by
  obtain ⟨hbase, -⟩ := FileSystem.of_locate hloc
  have entry : fs.entry (above.foldl Path.join base) = .ok e := entry_of_find? hloc he (tidy.fileNames hd) hd
  obtain ⟨there, hthere, hfind⟩ := FileSystem.entry_eq_ok_iff.1 entry
  have parts : Path.components (above.foldl Path.join base) =
      Path.components base ++ above.map Path.Component.name := by
    rw [Path.components_foldl_join (fun s hs => (ha s hs).2) (fun s hs => (ha s hs).1.dotless) hbase,
      List.filter_eq_self.2 fun s hs => by simpa using (ha s hs).1.ne_nil]
  have undotted' : .current ∉ Path.components (above.foldl Path.join base) := by
    rw [parts, List.mem_append]
    rintro (hm | hm)
    · exact undotted hm
    · obtain ⟨s, -, hs⟩ := List.mem_map.1 hm
      exact absurd hs (by simp)
  cases e with
  | file content => exact absurd hdir (by simp [Entry.isDirectory])
  | directory children =>
    obtain ⟨found, hne, other, same, listing⟩ := Search.exists_listed hthere hfind undotted' below
    rw [listing, List.filterMap_map]
    refine List.filterMap_eq_map_iff_forall_eq_some.2 fun names hn => ?_
    obtain ⟨front, segment, content, rfl, -, valid⟩ :=
      (tidy.below hd).of_mem_documents (List.mem_filter.1 hn).1
    exact Directory.nameOf?_listed hscope hne other (same.trans parts) (fun s hs => (ha s hs).1) valid

/-- The plain names that have a document are those of the files of the tree. -/
theorem isFile_pathFor?_iff_find? (hscope : Name.normalize scope = scope) (plain : Directory.IsPlain name) :
    ((Directory.mk base scope).pathFor? name).any fs.isFile = true ↔ ∃ front segment content,
      (∀ s ∈ front ++ [segment], IsSegment s ∧ '/' ∉ s) ∧
      name = Directory.inScope scope (ofSegments (front ++ [segment])) ∧
      root.find? (front ++ [documentName segment]) = some (.file content) := by
  refine ⟨exists_of_isFile_pathFor? hloc he (normalize_of_isPlain plain) plain, ?_⟩
  rintro ⟨front, segment, content, valid, rfl, found⟩
  have normal := Directory.normalize_inScope hscope fun s hs => (valid s hs).1
  exact (Option.any_eq_true _ _).2 ⟨_,
    Directory.pathFor?_inScope (d := ⟨base, scope⟩) (FileSystem.of_locate hloc).1 normal valid,
    FileSystem.isFile_iff.2 ⟨content, entry_of_find? hloc he (tidy.fileNames found) found⟩⟩

section Below
variable {outer above : List Text} (ho : ∀ s ∈ outer, IsSegment s ∧ '/' ∉ s)
  (ha : ∀ s ∈ above, IsSegment s ∧ '/' ∉ s) (hd : root.find? above = some e) (below : Bool)
include ho ha hd

/-- A name below the directory has a document and is in the namespace. -/
theorem of_mem_names (hm : name ∈ ((Search.documents e).filter fun names => below || names.length = 1).map
    (Directory.nameBelow (ofSegments outer) above)) :
    Directory.IsPlain name ∧ ((Directory.mk base (ofSegments outer)).pathFor? name).any fs.isFile = true ∧
      InNamespace (ofSegments (outer ++ above)) below name := by
  have valid : ∀ s ∈ outer, IsSegment s := fun s hs => (ho s hs).1
  have hscope := Name.normalize_eq_self (Name.isReference_ofSegments valid)
  have hns : ∀ s ∈ outer ++ above, IsSegment s := List.forall_mem_append.2 ⟨valid, fun s hs => (ha s hs).1⟩
  obtain ⟨names, hn, rfl⟩ := List.mem_map.1 hm
  obtain ⟨hn, direct⟩ := List.mem_filter.1 hn
  obtain ⟨more, segment, content, rfl, found, hmore⟩ := (tidy.below hd).of_mem_documents hn
  have inside : ∀ s ∈ (above ++ more) ++ [segment], IsSegment s ∧ '/' ∉ s := by
    rw [List.append_assoc, List.forall_mem_append]
    exact ⟨ha, hmore⟩
  have all : ∀ s ∈ (outer ++ (above ++ more)) ++ [segment], IsSegment s ∧ '/' ∉ s := by
    rw [List.append_assoc, List.forall_mem_append]
    exact ⟨ho, inside⟩
  rw [Directory.nameBelow_concat _ _ _ (hmore segment (by simp)).1.ne_nil]
  have plain : Directory.IsPlain
      (Directory.inScope (ofSegments outer) (ofSegments ((above ++ more) ++ [segment]))) := by
    rw [inScope_concat valid, Directory.IsPlain,
      Directory.nameSegments_ofSegments (by simp) fun s hs => (all s hs).1]
    exact all
  refine ⟨plain, (isFile_pathFor?_iff_find? hloc he tidy hscope plain).2 ⟨_, segment, content, inside, rfl, ?_⟩, ?_⟩
  · rw [List.append_assoc, Entry.find?_append, hd]
    exact found
  · rw [inScope_concat valid, inNamespace_iff hns fun s hs => (all s hs).1]
    refine ⟨more, rfl, ?_⟩
    rw [Bool.or_eq_true, decide_eq_true_iff, List.length_append, List.length_singleton] at direct
    exact direct.imp_right fun single => List.length_eq_zero_iff.1 (by omega)

/-- A name in the namespace that has a document is below the directory. -/
theorem mem_names (plain : Directory.IsPlain name)
    (file : ((Directory.mk base (ofSegments outer)).pathFor? name).any fs.isFile = true)
    (inside : InNamespace (ofSegments (outer ++ above)) below name) :
    name ∈ ((Search.documents e).filter fun names => below || names.length = 1).map
      (Directory.nameBelow (ofSegments outer) above) := by
  have valid : ∀ s ∈ outer, IsSegment s := fun s hs => (ho s hs).1
  have hscope := Name.normalize_eq_self (Name.isReference_ofSegments valid)
  have hns : ∀ s ∈ outer ++ above, IsSegment s := List.forall_mem_append.2 ⟨valid, fun s hs => (ha s hs).1⟩
  obtain ⟨front, segment, content, hfront, rfl, found⟩ :=
    (isFile_pathFor?_iff_find? hloc he tidy hscope plain).1 file
  have all : ∀ s ∈ (outer ++ front) ++ [segment], IsSegment s := by
    rw [List.append_assoc, List.forall_mem_append]
    exact ⟨valid, fun s hs => (hfront s hs).1⟩
  rw [inScope_concat valid, inNamespace_iff hns all] at inside
  obtain ⟨more, rfl, direct⟩ := inside
  rw [List.append_assoc, Entry.find?_append, hd] at found
  refine List.mem_map.2 ⟨more ++ [documentName segment], List.mem_filter.2 ⟨?_, ?_⟩,
    Directory.nameBelow_concat _ _ _ (hfront segment (by simp)).1.ne_nil⟩
  · exact (Search.mem_documents (tidy.below hd).distinct).2
      ⟨⟨_, found⟩, more, _, rfl, isDocument_documentName segment⟩
  · rcases direct with rfl | rfl <;> simp

/-- The names below a directory are those that have a document and are in the namespace. -/
theorem mem_names_iff :
    name ∈ ((Search.documents e).filter fun names => below || names.length = 1).map
        (Directory.nameBelow (ofSegments outer) above) ↔
      Directory.IsPlain name ∧ ((Directory.mk base (ofSegments outer)).pathFor? name).any fs.isFile = true ∧
        InNamespace (ofSegments (outer ++ above)) below name :=
  ⟨of_mem_names hloc he tidy ho ha hd below, fun h => mem_names hloc he tidy ho ha hd below h.1 h.2.1 h.2.2⟩

end Below

end Tree

/-! ## Expansion -/

/-- **Patterns.** In a tidy tree whose path does not start with a dot, the pattern of a namespace that has a directory
stands for each name in the namespace that has a document, once, and for nothing else; the empty namespace is that of
the base. Outside the scope a namespace has no directory, and without one nothing is found. -/
theorem Directory.expand_namespace {fs : FileSystem} {base scope ns : Text} {root : Entry}
    (hroot : fs.entry base = .ok root) (hdir : root.isDirectory = true) (tidy : root.Tidy)
    (undotted : .current ∉ Path.components base) (hscope : IsNamespace scope) (hns : IsNamespace ns) (below : Bool) :
    ∃ d, openAt fs base scope = .ok d ∧
      (d.directoryOf? ns = none ↔ ns ≠ [] ∧ ¬ Within scope ns) ∧
      (∀ path, d.directoryOf? ns = some path → fs.isDirectory path = true →
        ∃ names, d.expand fs (pattern ns below) = .ok names ∧ names.Nodup ∧
          ∀ name, name ∈ names ↔ IsPlain name ∧ (d.pathFor? name).any fs.isFile = true ∧
            InNamespace (if ns = [] then scope else ns) below name) ∧
      ((∀ path, d.directoryOf? ns = some path → fs.isDirectory path = false) →
        d.expand fs (pattern ns below) = .error (.notFound (Name.normalize (pattern ns below)))) := by
  obtain ⟨outer, rfl, hout⟩ := hscope
  obtain ⟨segments, rfl, hseg⟩ := hns
  obtain ⟨here, hloc, he⟩ := FileSystem.entry_eq_ok_iff.1 hroot
  have hout' : ∀ s ∈ outer, IsSegment s := fun s hs => (hout s hs).1
  have hseg' : ∀ s ∈ segments, IsSegment s := fun s hs => (hseg s hs).1
  have normal := Name.normalize_eq_self (Name.isReference_ofSegments hout')
  have opened : openAt fs base (ofSegments outer) = .ok ⟨base, ofSegments outer⟩ := by
    rw [openAt, if_pos (FileSystem.isDirectory_iff.2 ⟨root, hroot, hdir⟩), normal]
  have hpattern : ∀ s ∈ segments, IsSegment s ∧ '*' ∉ s := fun s hs => ⟨(hseg s hs).1, (hseg s hs).2.2⟩
  refine ⟨_, opened, directoryOf?_eq_none_iff base hout' hseg', fun path hpath directory => ?_, fun missing => ?_⟩
  · obtain ⟨above, habove, rfl, whole⟩ := of_directoryOf? hout' (fun s hs => ⟨(hseg s hs).1, (hseg s hs).2.1⟩) hpath
    obtain ⟨e, hentry, isdir⟩ := FileSystem.isDirectory_iff.1 directory
    have hd : root.find? above = some e :=
      find?_of_entry hloc he (fun s hs => (habove s hs).2) (fun s hs => (habove s hs).1.meant) hentry
    have named := names_of_listed hloc he tidy undotted normal habove hd isdir below
    rw [whole]
    refine ⟨_, ?_, nodup_names tidy (fun s hs => (habove s hs).1) hd _ _,
      fun name => mem_names_iff hloc he tidy (fun s hs => ⟨(hout s hs).1, (hout s hs).2.1⟩) habove hd below⟩
    rw [expand_pattern hpattern]
    simp only [hpath, directory, if_true, ← named]
  · rw [expand_pattern hpattern]
    cases found : (Directory.mk base (ofSegments outer)).directoryOf? (ofSegments segments) with
    | none => rfl
    | some path => exact if_neg (by simp [missing path found])

theorem Entry.tidy_shop : shop.Tidy := by
  have last {names front : List Text} {name name' : Text} (h : names ++ [name] = front ++ [name']) : name = name' :=
    List.head_eq_of_cons_eq (List.append_inj' h rfl).2
  refine ⟨mirrors_shop.distinct, fun names name d h => ?_, fun names name children h => ?_,
    fun names name content h document => ?_⟩
  · rcases find?_shop h with ⟨hn | hn, -⟩ | ⟨hn | hn, -⟩
    · exact absurd hn (by simp)
    · rw [@last _ [] _ "Shop".toList hn]
      decide
    · rw [@last _ ["Shop".toList] _ "Item.xml".toList hn]
      decide
    · rw [@last _ [] _ "Size.xml".toList hn]
      decide
  · rcases find?_shop h with ⟨hn | hn, -⟩ | ⟨-, _, hd⟩
    · exact absurd hn (by simp)
    · rw [@last _ [] _ "Shop".toList hn]
      decide
    · exact absurd hd (by simp)
  · rcases find?_shop h with ⟨-, _, hd, -⟩ | ⟨hn | hn, -⟩
    · exact absurd hd (by simp)
    · exact ⟨"Item".toList, @last _ ["Shop".toList] _ "Item.xml".toList hn, by decide⟩
    · exact ⟨"Size".toList, @last _ [] _ "Size.xml".toList hn, by decide⟩

namespace Directory

/-- In the shop and below it stands the item; outside the scope, and where there is no directory, nothing is found. -/
theorem expand_namespace_shop :
    let fs : FileSystem := ⟨.directory [("d".toList, .shop)], []⟩
    let d : Directory := ⟨"d".toList, "App".toList⟩
    (∃ names, d.expand fs "App\\Shop\\*\\*".toList = .ok names ∧ names.Nodup ∧
        "App\\Shop\\Item".toList ∈ names) ∧
      d.expand fs "Lib\\*".toList = .error (.notFound "Lib\\*".toList) ∧
      d.expand fs "App\\Cart\\*".toList = .error (.notFound "App\\Cart\\*".toList) := by
  intro fs d
  have expand (ns : Text) (h : IsNamespace ns) (below : Bool) := @expand_namespace fs "d".toList "App".toList ns .shop
    rfl rfl Entry.tidy_shop (by decide) ⟨["App".toList], by decide, by decide⟩ h below
  refine ⟨?_, ?_, ?_⟩
  · obtain ⟨_, hd, -, listed, -⟩ :=
      expand "App\\Shop".toList ⟨["App".toList, "Shop".toList], by decide, by decide⟩ true
    obtain rfl : d = _ := Except.ok.inj hd
    obtain ⟨names, hnames, distinct, members⟩ := listed "d/Shop".toList (by decide +kernel) (by decide +kernel)
    refine ⟨names, hnames, distinct, (members _).2 ⟨by decide +kernel, by decide +kernel, ?_⟩⟩
    exact Or.inl (by decide +kernel)
  · obtain ⟨_, hd, outside, -, missing⟩ := expand "Lib".toList ⟨["Lib".toList], by decide, by decide⟩ false
    obtain rfl : d = _ := Except.ok.inj hd
    have none : d.directoryOf? "Lib".toList = none := by decide +kernel
    exact missing fun path h => absurd (none.symm.trans h) (by simp)
  · obtain ⟨_, hd, -, -, missing⟩ :=
      expand "App\\Cart".toList ⟨["App".toList, "Cart".toList], by decide, by decide⟩ false
    obtain rfl : d = _ := Except.ok.inj hd
    refine missing fun path h => ?_
    have there : d.directoryOf? "App\\Cart".toList = some "d/Cart".toList := by decide +kernel
    obtain rfl : "d/Cart".toList = path := Option.some.inj (there.symm.trans h)
    decide +kernel

/-- The empty namespace stands for the scope: its pattern gives the names in the base, which are not outside every
namespace. -/
theorem expand_empty_namespace :
    let fs : FileSystem := ⟨.directory [("d".toList, .shop)], []⟩
    let d : Directory := ⟨"d".toList, "App".toList⟩
    Entry.Tidy .shop ∧ fs.entry "d".toList = .ok .shop ∧ openAt fs "d".toList "App".toList = .ok d ∧
      IsNamespace "App".toList ∧ IsNamespace [] ∧
      d.directoryOf? [] = some "d".toList ∧ fs.isDirectory "d".toList = true ∧
      d.expand fs (pattern [] false) = .ok ["App\\Size".toList] ∧ Name.scope "App\\Size".toList ≠ [] := by
  refine ⟨Entry.tidy_shop, rfl, rfl, ⟨["App".toList], by decide, by decide⟩, ⟨[], rfl, by simp⟩, rfl, rfl, ?_, ?_⟩
  · decide +kernel
  · decide +kernel

end Directory

end DeclGen
