import DeclGen.Proofs.File.Components

/-!
# The names of documents that a pattern finds

A directory names the documents that it finds by their paths, and finds the document of a name by the path that
the name makes. Separators in the names of files and blanks at the ends of the whole are lost on the way.

* `Directory.found` : the paths that a pattern finds; `Directory.expand_eq` : their names are the answer;
* `Directory.Reversible` : segments that are told by the name made of them;
* `Directory.pathFor?_of_reversible`, `Directory.reversible_of_pathFor?` : the path of a name made of a path is that
  path iff its segments are such, and the scope is in normal form;
* `Directory.pathFor?_found_iff` : this is so for every document that a pattern finds.
-/

namespace DeclGen
open Name (ofSegments)
open Text (isBlank)

/-! ## Names inside scopes -/

namespace Directory
variable {scope relative : Text}

theorem ne_dot_of_mem_inScope (hs : ∀ c ∈ scope, c ≠ '.') (hr : ∀ c ∈ relative, c ≠ '.') :
    ∀ c ∈ inScope scope relative, c ≠ '.' := by
  unfold inScope
  split
  · exact hr
  · rw [List.forall_mem_append, List.forall_mem_cons]
    exact ⟨hs, by decide, hr⟩

theorem join_eq_inScope (scope name : Text) :
    Name.join scope name = inScope (Name.normalize scope) (Name.normalize name) := rfl

/-- What is left of a name made inside a scope is an end of the name that was put there, and the whole of it only
if the scope is in normal form. -/
theorem suffix_of_normalize_join {name : Text} (hs : ∀ c ∈ scope, c ≠ '.')
    (h : Name.normalize (Name.join scope name) = inScope scope relative) :
    relative <:+ Name.normalize name ∧
      (relative = Name.normalize name → Name.normalize scope = scope) := by
  have undotted : ∀ c ∈ Name.normalize name, c ≠ '.' := Name.ne_dot_of_mem_unify
  have whole : inScope scope relative <:+ Name.join scope name := by
    rw [← h]
    refine Name.normalize_suffix ?_ ?_
    · exact ne_dot_of_mem_inScope Name.ne_dot_of_mem_unify undotted
    · rw [join_eq_inScope]
      unfold inScope
      split
      · exact Name.getLast?_normalize
      · exact Name.isBlank_getLast?_append Name.getLast?_normalize _
  have shorter := Name.length_normalize_le scope
  rw [join_eq_inScope] at whole
  by_cases none : scope = []
  · have empty : Name.normalize scope = [] := by rw [none]; rfl
    rw [inScope, inScope, if_pos none, if_pos empty] at whole
    exact ⟨whole, fun _ => empty.trans none.symm⟩
  · rw [inScope, if_neg none] at whole
    have inner : relative <:+ scope ++ '\\' :: relative :=
      (List.suffix_cons _ _).trans (List.suffix_append _ _)
    unfold inScope at whole
    split at whole
    · have size := whole.length_le
      rw [List.length_append, List.length_cons] at size
      refine ⟨inner.trans whole, ?_⟩
      rintro rfl
      omega
    · have size := whole.length_le
      have outer : Name.normalize name <:+ Name.normalize scope ++ '\\' :: Name.normalize name :=
        (List.suffix_cons _ _).trans (List.suffix_append _ _)
      simp only [List.length_append, List.length_cons] at size
      refine ⟨List.suffix_of_suffix_length_le (inner.trans whole) outer (by omega), ?_⟩
      rintro rfl
      exact Name.normalize_eq_self_of_length hs (by omega)

end Directory

/-! ## Components -/

namespace Path
variable {path : Text}

theorem dropComponents_eq_some_iff {base path rest : List Component} :
    dropComponents base path = some rest ↔ path = base ++ rest := by
  induction base generalizing path with
  | nil => exact Option.some_inj
  | cons b base ih =>
    cases path with
    | nil => exact iff_of_false (by simp [dropComponents]) (by simp)
    | cons c path =>
      rw [dropComponents, List.cons_append, List.cons.injEq]
      by_cases h : b = c
      · rw [if_pos h, ih]
        exact (and_iff_right h.symm).symm
      · rw [if_neg h]
        exact iff_of_false (by simp) fun same => h same.1.symm

/-- Components below a directory are no starts, and their texts have no slashes. -/
theorem slash_notMem_text {front rest : List Component} (hne : front ≠ []) (h : components path = front ++ rest) :
    ∀ c ∈ rest, '/' ∉ c.text := by
  obtain ⟨first, front, rfl⟩ := List.exists_cons_of_ne_nil hne
  intro c hc
  have below : c ∈ body path := by
    have whole := h
    rw [components_eq] at whole
    cases start : leading path with
    | nil =>
      rw [start, List.nil_append] at whole
      rw [whole]
      exact List.mem_append_right _ hc
    | cons d starts =>
      have single : starts = [] := by
        unfold leading at start
        split at start
        · exact (List.cons.inj start).2.symm
        · split at start
          · exact (List.cons.inj start).2.symm
          · exact absurd start (by simp)
      rw [start, single, List.cons_append, List.cons_append] at whole
      rw [show body path = front ++ rest from (List.cons.inj whole).2]
      exact List.mem_append_right _ hc
  obtain ⟨segment, hs, hc⟩ := List.mem_filterMap.1 below
  rw [text_of_ofSegment? hc]
  exact fun hm => absurd (Text.eq_false_of_mem_split hs '/' hm) (by simp)

/-- The names in a path without dots. -/
def pieces (segment : Text) : List Text := (Path.segments segment).filter (· ≠ [])

theorem filterMap_ofSegment? {segment : Text} (undotted : '.' ∉ segment) :
    (Path.segments segment).filterMap Component.ofSegment? = (pieces segment).map Component.name := by
  have inside : ∀ piece ∈ Path.segments segment, '.' ∉ piece :=
    fun piece hp hm => undotted (Text.mem_of_mem_split hp hm)
  unfold pieces
  generalize Path.segments segment = all at inside ⊢
  induction all with
  | nil => rfl
  | cons piece rest ih =>
    rw [List.forall_mem_cons] at inside
    rw [List.filterMap_cons, List.filter_cons, ih inside.2]
    by_cases empty : piece = []
    · rw [empty]
      rfl
    · have proper : IsName piece := by
        refine ⟨empty, ?_, ?_⟩ <;> (rintro rfl; exact inside.1 List.mem_cons_self)
      rw [ofSegment?_name proper, if_pos (by simpa using empty)]
      rfl

/-- Joined segments without dots add their names, if none is an absolute path. -/
theorem components_foldl_join_of_relative {segments : List Text} (relative : ∀ s ∈ segments, isAbsolute s = false)
    (undotted : ∀ s ∈ segments, '.' ∉ s) : ∀ {path : Text}, path ≠ [] →
      components (segments.foldl join path) =
        components path ++ (segments.flatMap pieces).map Component.name := by
  induction segments with
  | nil => exact fun _ => (List.append_nil _).symm
  | cons segment segments ih =>
    intro path hne
    rw [List.forall_mem_cons] at relative undotted
    rw [List.foldl_cons, ih relative.2 undotted.2 (FileSystem.join_ne_nil hne relative.1),
      components_join_of_relative hne relative.1, filterMap_ofSegment? undotted.1, List.flatMap_cons,
      List.map_append, List.append_assoc]

theorem flatMap_pieces {segments : List Text} (slash : ∀ s ∈ segments, '/' ∉ s) :
    segments.flatMap pieces = segments.filter (· ≠ []) := by
  induction segments with
  | nil => rfl
  | cons segment segments ih =>
    rw [List.forall_mem_cons] at slash
    rw [List.flatMap_cons, ih slash.2, pieces, segments_eq_singleton slash.1, List.filter_cons, List.filter_cons]
    split <;> rfl

/-- Joined segments without dots are components, but for the empty ones. -/
theorem components_foldl_join {segments : List Text} (slash : ∀ s ∈ segments, '/' ∉ s)
    (undotted : ∀ s ∈ segments, '.' ∉ s) (hne : path ≠ []) : components (segments.foldl join path) =
      components path ++ (segments.filter (· ≠ [])).map Component.name := by
  rw [components_foldl_join_of_relative (fun s hs => isAbsolute_of_slash (slash s hs)) undotted hne,
    flatMap_pieces slash]

theorem dropExtension_concat (components : List Component) (name : Text) :
    Directory.dropExtension (components ++ [.name name]) = components ++ [.name (stem name)] := by
  induction components with
  | nil => rfl
  | cons c components ih =>
    rw [List.cons_append, Directory.dropExtension, ih, List.cons_append]
    simp

end Path

/-! ## Names of paths -/

namespace Directory
variable {d : Directory} {path name : Text} {front : List Text} {segment : Text}

theorem nameOf?_eq_some_iff : d.nameOf? path = some name ↔ ∃ components, components ≠ [] ∧
    Path.components path = Path.components d.base ++ components ∧
    name = Name.join d.scope (ofSegments ((dropExtension components).map Path.Component.text)) := by
  unfold nameOf?
  constructor
  · intro h
    split at h
    · exact absurd h (by simp)
    · exact absurd h (by simp)
    · next components nonempty found =>
      exact ⟨components, nonempty, Path.dropComponents_eq_some_iff.1 found, (Option.some.inj h).symm⟩
  · rintro ⟨components, nonempty, whole, rfl⟩
    rw [Path.relativeTo?, Path.dropComponents_eq_some_iff.2 whole]
    split
    · next none => exact absurd none (by simp)
    · next empty => exact absurd (Option.some.inj empty) nonempty
    · next found => rw [Option.some.inj found]; rfl

/-- Segments that the name made of them tells: without separators, and without blanks at the ends of the whole. -/
structure Reversible (segments : List Text) : Prop where
  nonempty : ∀ s ∈ segments, s ≠ []
  bare : ∀ s ∈ segments, ∀ c ∈ s, Name.isSeparator c = false
  first : ∀ s ∈ segments.head?, ∀ c ∈ s.head?, isBlank c = false
  last : ∀ s ∈ segments.getLast?, ∀ c ∈ s.getLast?, isBlank c = false

/-- The path is that of a document below the base, in a directory and with a short name that its name tells. -/
def LeadsBack (d : Directory) (path : Text) : Prop := ∃ front segment,
  Path.components path =
    Path.components d.base ++ (front.map Path.Component.name ++ [.name (documentName segment)]) ∧
    Reversible (front ++ [segment])

section Reversible
variable (h : Reversible (front ++ [segment]))
include h

theorem Reversible.dotless {s : Text} (hs : s ∈ front ++ [segment]) : '.' ∉ s :=
  fun hm => absurd (h.bare s hs '.' hm) (by decide)

theorem Reversible.normalize_eq :
    Name.normalize (ofSegments (front ++ [segment])) = ofSegments (front ++ [segment]) := by
  obtain ⟨first, rest, hs⟩ := List.exists_cons_of_ne_nil (l := front ++ [segment]) (by simp)
  have mem : first ∈ front ++ [segment] := hs ▸ List.mem_cons_self
  have start : (ofSegments (front ++ [segment])).head? = first.head? := by
    rw [hs, Name.head?_ofSegments (h.nonempty first mem)]
  have ends : (ofSegments (front ++ [segment])).getLast? = segment.getLast? :=
    Name.getLast?_ofSegments (h.nonempty segment (by simp)) front
  have trimmed : Text.trim (ofSegments (front ++ [segment])) = ofSegments (front ++ [segment]) := by
    rw [Text.trim, Text.trimStart_eq_self, Text.trimEnd_eq_self]
    · rw [ends]
      exact h.last segment (by simp)
    · rw [start]
      exact h.first first (by rw [hs]; rfl)
  have bare : Name.dropLeading (ofSegments (front ++ [segment])) = ofSegments (front ++ [segment]) := by
    refine Name.dropLeading_eq_self ?_
    rw [start]
    exact fun c hc => h.bare first mem c (List.mem_of_mem_head? hc)
  have undotted : ∀ c ∈ ofSegments (front ++ [segment]), c ≠ '.' := by
    intro c hc
    rcases Name.mem_ofSegments hc with rfl | ⟨s, hs, hm⟩
    · decide
    · rintro rfl
      exact h.dotless hs hm
  rw [Name.normalize, trimmed, bare, Name.unify_eq_self undotted]

theorem Reversible.nameSegments_eq : nameSegments (ofSegments (front ++ [segment])) = front ++ [segment] :=
  Text.split_intercalate (by simp) fun s hs hm => absurd (h.bare s hs _ hm) (by decide)

theorem Reversible.ofSegments_ne_nil : ofSegments (front ++ [segment]) ≠ [] := by
  have hne := h.nonempty segment (by simp)
  intro none
  have ends := Name.getLast?_ofSegments hne front
  rw [none, List.getLast?_eq_some_getLast hne] at ends
  exact absurd ends (by simp)

/-- Inside a scope in normal form, the name made of the segments is in normal form, too. -/
theorem Reversible.normalize_inScope {scope : Text} (hscope : Name.normalize scope = scope) :
    Name.normalize (inScope scope (ofSegments (front ++ [segment]))) =
      inScope scope (ofSegments (front ++ [segment])) := by
  have normal := h.normalize_eq
  unfold inScope
  split
  · exact normal
  · next some =>
    refine Name.normalize_append hscope some ?_ ?_
    · rw [← normal]
      exact Name.getLast?_normalize
    · rw [← normal]
      exact Name.ne_dot_of_mem_unify

end Reversible

theorem reversible_of_trim (nonempty : ∀ s ∈ front ++ [segment], s ≠ [])
    (bare : ∀ s ∈ front ++ [segment], ∀ c ∈ s, Name.isSeparator c = false)
    (trimmed : Text.trim (ofSegments (front ++ [segment])) = ofSegments (front ++ [segment])) :
    Reversible (front ++ [segment]) := by
  refine ⟨nonempty, bare, ?_, ?_⟩
  · intro first hfirst
    obtain ⟨more, hmore⟩ := List.head?_eq_some_iff.1 hfirst
    have start := Name.head?_ofSegments (nonempty first (List.mem_of_mem_head? hfirst)) more
    rw [← hmore] at start
    rw [← start, ← trimmed]
    exact Text.head?_trim _
  · intro last hlast
    rw [List.getLast?_concat] at hlast
    obtain rfl := Option.some.inj hlast
    rw [← Name.getLast?_ofSegments (nonempty segment (by simp)) front, ← trimmed]
    exact Text.getLast?_trim _

/-- Inside a scope in normal form, the name of a path that leads back has that path. -/
theorem pathFor?_of_reversible (hbase : d.base ≠ []) (hscope : Name.normalize d.scope = d.scope)
    (hpath : Path.components path =
      Path.components d.base ++ (front.map Path.Component.name ++ [.name (documentName segment)]))
    (h : Reversible (front ++ [segment])) :
    ∃ found before, d.pathFor? (Name.join d.scope (ofSegments (front ++ [segment]))) = some found ∧
      Name.normalize (Name.join d.scope (ofSegments (front ++ [segment]))) =
        Name.join d.scope (ofSegments (front ++ [segment])) ∧
      Path.components found = Path.components path ∧
      Path.segments found = before ++ [documentName segment] := by
  have normal := h.normalize_inScope hscope
  have name : Name.join d.scope (ofSegments (front ++ [segment])) =
      inScope d.scope (ofSegments (front ++ [segment])) := by
    rw [join_eq_inScope, hscope, h.normalize_eq]
  have slash : ∀ s ∈ front ++ [segment], '/' ∉ s := by
    have texts := Path.slash_notMem_text (Path.components_ne_nil hbase) hpath
    rw [List.forall_mem_append] at texts ⊢
    refine ⟨fun s hs => texts.1 _ (List.mem_map_of_mem hs), ?_⟩
    rw [List.forall_mem_singleton] at texts ⊢
    exact fun hm => texts.2 (List.mem_append_left _ hm)
  have all : (front ++ [segment]).filter (· ≠ []) = front ++ [segment] :=
    List.filter_eq_self.2 fun s hs => by simpa using h.nonempty s hs
  have joined := Path.components_foldl_join slash (fun s => h.dotless) hbase
  rw [all, List.map_append, ← List.append_assoc] at joined
  obtain ⟨-, other⟩ | ⟨before, last, above, hlast, found, segments⟩ :=
    Path.components_setExtension ((front ++ [segment]).foldl Path.join d.base)
  · exact absurd joined (other _ segment)
  · rw [joined] at hlast
    obtain ⟨rfl, same⟩ := List.append_inj' hlast rfl
    obtain rfl : segment = last := Path.Component.name.inj (List.cons.inj same).1
    rw [Path.stem_eq_self (h.dotless (by simp))] at found segments
    rw [name]
    refine ⟨_, above, pathFor?_eq_some_iff.2 ⟨_, h.ofSegments_ne_nil, normal, rfl⟩, normal, ?_, ?_⟩
    · rw [h.nameSegments_eq, found, hpath, List.append_assoc]
    · rw [h.nameSegments_eq, segments]

/-- If joined segments make the path of a document, its components are those that are not empty. -/
theorem exists_names_of_setExtension {base : Text} (hbase : base ≠ []) {segments : List Text}
    (slash : ∀ s ∈ segments, '/' ∉ s) (undotted : ∀ s ∈ segments, '.' ∉ s) {before : List Path.Component}
    (h : Path.components (Path.setExtension Search.extension (segments.foldl Path.join base)) =
      Path.components base ++ (before ++ [.name (documentName segment)])) :
    ∃ names, before = names.map Path.Component.name ∧ segments.filter (· ≠ []) = names ++ [segment] := by
  have joined := Path.components_foldl_join slash undotted hbase
  obtain ⟨same, -⟩ | ⟨above, last, -, hlast, found, -⟩ :=
    Path.components_setExtension (segments.foldl Path.join base)
  · -- The segments have no dots, so without an extension they are no document.
    rw [same, joined] at h
    have document : Path.Component.name (documentName segment) ∈
        (segments.filter (· ≠ [])).map Path.Component.name := by
      rw [List.append_cancel_left h]
      exact List.mem_append_right _ List.mem_cons_self
    obtain ⟨s, hs, hd⟩ := List.mem_map.1 document
    obtain rfl := Path.Component.name.inj hd
    exact absurd (List.mem_append_right _ List.mem_cons_self) (undotted _ (List.mem_filter.1 hs).1)
  · rw [found, ← List.append_assoc] at h
    obtain ⟨rfl, hd⟩ := List.append_inj' h rfl
    have hstem := documentName_injective (Path.Component.name.inj (List.cons.inj hd).1)
    rw [joined, List.append_assoc] at hlast
    obtain ⟨names, lasts, hnames, rfl, hlasts⟩ := List.map_eq_append_iff.1 (List.append_cancel_left hlast)
    obtain ⟨s, rfl, hs⟩ := List.map_eq_singleton_iff.1 hlasts
    obtain rfl := Path.Component.name.inj hs
    have mem : s ∈ segments := (List.mem_filter.1 (hnames ▸ List.mem_append_right _ List.mem_cons_self)).1
    rw [Path.stem_eq_self (undotted s mem)] at hstem
    subst hstem
    exact ⟨names, rfl, hnames⟩

/-- The name made of the components below a directory has no slashes. -/
theorem slash_notMem_ofSegments {base before : List Path.Component} (hbase : base ≠ [])
    (hpath : Path.components path = base ++ (before ++ [.name name])) :
    '/' ∉ Name.normalize (ofSegments (before.map Path.Component.text ++ [Path.stem name])) := by
  have texts := Path.slash_notMem_text hbase hpath
  rw [List.forall_mem_append, List.forall_mem_singleton] at texts
  intro hm
  rcases Name.mem_of_mem_normalize hm with hd | hm
  · exact absurd hd (by decide)
  · rcases Name.mem_ofSegments hm with hd | ⟨s, hs, hm⟩
    · exact absurd hd (by decide)
    · rcases List.mem_append.1 hs with hs | hs
      · obtain ⟨c, hc, rfl⟩ := List.mem_map.1 hs
        exact texts.1 c hc hm
      · rw [List.mem_singleton.1 hs] at hm
        exact Path.slash_notMem_stem texts.2 hm

/-- Only a path that leads back has the name of its own. -/
theorem reversible_of_pathFor? {before : List Path.Component} {found : Text} (hbase : d.base ≠ [])
    (hscope : ∀ c ∈ d.scope, c ≠ '.')
    (hpath : Path.components path = Path.components d.base ++ (before ++ [.name (documentName segment)]))
    (h : d.pathFor? (Name.join d.scope (ofSegments (before.map Path.Component.text ++
      [Path.stem (documentName segment)]))) = some found)
    (same : Path.components found = Path.components path) :
    Name.normalize d.scope = d.scope ∧ d.LeadsBack path := by
  obtain ⟨relative, -, hname, rfl⟩ := pathFor?_eq_some_iff.1 h
  obtain ⟨suffix, normal⟩ := suffix_of_normalize_join hscope hname
  have slash : ∀ s ∈ nameSegments relative, '/' ∉ s := fun s hs hm =>
    slash_notMem_ofSegments (Path.components_ne_nil hbase) hpath (suffix.subset (Text.mem_of_mem_split hs hm))
  have undotted : ∀ s ∈ nameSegments relative, '.' ∉ s := fun s hs hm =>
    Name.ne_dot_of_mem_unify _ (suffix.subset (Text.mem_of_mem_split hs hm)) rfl
  obtain ⟨names, rfl, hnames⟩ := exists_names_of_setExtension hbase slash undotted (same.trans hpath)
  have kept : ∀ t ∈ names ++ [segment], t ∈ nameSegments relative ∧ t ≠ [] := by
    rw [← hnames]
    intro t ht
    have both := List.mem_filter.1 ht
    exact ⟨both.1, by simpa using both.2⟩
  have texts : (names.map Path.Component.name).map Path.Component.text = names := by
    rw [List.map_map]
    exact List.map_id names
  rw [Path.stem_documentName (kept segment (by simp)).2, texts] at suffix normal
  -- Nothing was dropped: what is left of the name is as long as the segments in it.
  have size := Name.length_ofSegments_filter (· ≠ []) (nameSegments relative)
  rw [hnames, ofSegments_nameSegments] at size
  have shorter := Name.length_normalize_le (ofSegments (names ++ [segment]))
  have whole := suffix.eq_of_length_le (Nat.le_trans shorter size)
  have trimmed := (Name.eq_self_of_length (Nat.le_trans size suffix.length_le)).1
  have bare : ∀ t ∈ names ++ [segment], ∀ c ∈ t, Name.isSeparator c = false := by
    intro t ht c hc
    have noBackslash := Text.eq_false_of_mem_split (kept t ht).1 c hc
    have noDot : c ≠ '.' := fun hd => undotted t (kept t ht).1 (hd ▸ hc)
    simpa [Name.isSeparator, noDot] using noBackslash
  exact ⟨normal whole, names, segment, hpath, reversible_of_trim (fun t ht => (kept t ht).2) bare trimmed⟩

/-! ## Patterns -/

/-- The paths that the search for a pattern finds. -/
def found (fs : FileSystem) (d : Directory) (pattern : Text) : List Text :=
  match patternScope? (Name.normalize pattern) with
  | none => []
  | some (scope, below) =>
    match d.directoryOf? scope with
    | none => []
    | some path => if below then Search.documentsBelow fs path else Search.documentsIn fs path

/-- The answer to a pattern is the names of what the search finds. -/
theorem expand_eq {fs : FileSystem} {pattern : Text} {names : List Text} (h : d.expand fs pattern = .ok names)
    (hp : patternScope? (Name.normalize pattern) ≠ none) : names = (d.found fs pattern).filterMap d.nameOf? := by
  unfold expand at h
  unfold found
  cases scope : patternScope? (Name.normalize pattern) with
  | none => exact absurd scope hp
  | some both =>
    simp only [scope] at h ⊢
    cases directory : d.directoryOf? both.1 with
    | none => simp [directory] at h
    | some path =>
      simp only [directory] at h ⊢
      split at h
      · exact (Except.ok.inj h).symm
      · exact absurd h (by simp)

end Directory

namespace Search

theorem isDocument_inside {name : Text} (h : isDocument name = true) (path : Text) :
    isDocument (inside path name) = true := by
  refine List.isSuffixOf_iff_suffix.2 ((List.isSuffixOf_iff_suffix.1 h).trans ?_)
  unfold inside Path.join
  split
  · exact List.suffix_rfl
  · split
    · exact List.suffix_rfl
    · split
      · exact List.suffix_append _ _
      · exact (List.suffix_cons _ _).trans (List.suffix_append _ _)

mutual

theorem isDocument_of_mem_below (path : Text) : ∀ e : Entry, ∀ f ∈ below path e, isDocument f = true
  | .file _, _, h => absurd h List.not_mem_nil
  | .directory children, f, h => isDocument_of_mem_belowAll path children f h

theorem isDocument_of_mem_belowAll (path : Text) :
    ∀ children : List (Text × Entry), ∀ f ∈ belowAll path children, isDocument f = true
  | [], _, h => absurd h List.not_mem_nil
  | (name, e) :: rest, f, h => by
    rw [belowAll, List.mem_append, List.mem_append] at h
    rcases h with (h | h) | h
    · split at h
      · next document =>
        rw [List.mem_singleton.1 h]
        exact isDocument_inside document path
      · exact absurd h List.not_mem_nil
    · exact isDocument_of_mem_below _ e f h
    · exact isDocument_of_mem_belowAll path rest f h

end

theorem isDocument_of_mem_list {fs : FileSystem} {path : Text} {entries : Text → List (Text × Entry) → List Text}
    (h : ∀ path children, ∀ f ∈ entries path children, isDocument f = true) :
    ∀ f ∈ list fs path entries, isDocument f = true := by
  intro f hf
  unfold list at hf
  split at hf
  · exact absurd hf List.not_mem_nil
  · split at hf
    · exact h _ _ f hf
    · exact absurd hf List.not_mem_nil

end Search

namespace Directory
variable {d : Directory} {fs : FileSystem} {path pattern name : Text}

theorem isDocument_of_mem_found (h : path ∈ d.found fs pattern) : Search.isDocument path = true := by
  unfold found at h
  split at h
  · exact absurd h List.not_mem_nil
  · split at h
    · exact absurd h List.not_mem_nil
    · split at h
      · exact Search.isDocument_of_mem_list Search.isDocument_of_mem_belowAll path h
      · refine Search.isDocument_of_mem_list (fun above children f hf => ?_) path h
        obtain ⟨child, hc, rfl⟩ := List.mem_map.1 hf
        exact Search.isDocument_inside (List.mem_filter.1 hc).2 above

/-- A path with the extension of documents ends in the name of one. -/
theorem exists_documentName (h : Search.isDocument path = true) :
    ∃ front segment, Path.components path = front ++ [.name (documentName segment)] := by
  obtain ⟨t, rfl⟩ := List.isSuffixOf_iff_suffix.1 h
  have slash : ∀ c ∈ '.' :: Search.extension, decide (c = '/') = false := Text.forall_mem_of_all (by decide)
  obtain ⟨front, last, -, hs⟩ := Text.split_append (p := (· = '/')) t slash
  refine ⟨Path.leading (t ++ '.' :: Search.extension) ++ front.filterMap Path.Component.ofSegment?, last, ?_⟩
  rw [Path.components_eq, Path.body, Path.segments, hs, List.filterMap_append, List.filterMap_cons]
  have proper := Path.ofSegment?_name (documentName_meant last)
  rw [documentName] at proper
  rw [proper, List.append_assoc]
  rfl

/-- The name of a document that leads back is made of its segments. -/
theorem nameOf?_of_leadsBack {front : List Text} {segment : Text} (hne : segment ≠ [])
    (hpath : Path.components path =
      Path.components d.base ++ (front.map Path.Component.name ++ [.name (documentName segment)]))
    (h : d.nameOf? path = some name) : name = Name.join d.scope (ofSegments (front ++ [segment])) := by
  obtain ⟨components, -, whole, rfl⟩ := nameOf?_eq_some_iff.1 h
  have texts : (front.map Path.Component.name).map Path.Component.text = front := by
    rw [List.map_map]
    exact List.map_id front
  rw [List.append_cancel_left (whole.symm.trans hpath), Path.dropExtension_concat, List.map_append, texts,
    Path.stem_documentName hne]
  rfl

/-- **From paths to names and back.** The answer to a pattern is the names of the documents that the search finds.
The path of the name of a file is the path of the file iff the scope is in normal form and the file leads back: the
names of directories and the short name hold no separators, and there are no blanks at the ends of the whole. The
name resolves to itself then. -/
theorem pathFor?_found_iff {base scope : Text} {names : List Text} (hd : openAt fs base scope = .ok d)
    (h : d.expand fs pattern = .ok names) (hp : patternScope? (Name.normalize pattern) ≠ none) :
    names = (d.found fs pattern).filterMap d.nameOf? ∧
      ∀ path ∈ d.found fs pattern, fs.isFile path = true → ∀ name, d.nameOf? path = some name →
        ((∃ found, d.pathFor? name = some found ∧ Path.components found = Path.components path) ↔
          Name.normalize d.scope = d.scope ∧ d.LeadsBack path) ∧
        (Name.normalize d.scope = d.scope → d.LeadsBack path → d.resolve fs name [] = some name) := by
  refine ⟨expand_eq h hp, fun path hpath file name hname => ?_⟩
  obtain ⟨hbase, hscope⟩ : d.base ≠ [] ∧ ∀ c ∈ d.scope, c ≠ '.' := by
    unfold openAt at hd
    split at hd
    · next directory =>
      obtain rfl := Except.ok.inj hd
      refine ⟨?_, Name.ne_dot_of_mem_unify⟩
      rintro rfl
      exact absurd directory (by simp [FileSystem.isDirectory, FileSystem.entry, FileSystem.locate, Except.toOption])
    · exact absurd hd (by simp)
  have back (normal : Name.normalize d.scope = d.scope) (leads : d.LeadsBack path) : ∃ found before segment,
      d.pathFor? name = some found ∧ Name.normalize name = name ∧
        Path.components found = Path.components path ∧ Path.segments found = before ++ [documentName segment] := by
    obtain ⟨front, segment, whole, reversible⟩ := leads
    obtain rfl := nameOf?_of_leadsBack (reversible.nonempty segment (by simp)) whole hname
    obtain ⟨found, before, there, hnormal, same, ends⟩ := pathFor?_of_reversible hbase normal whole reversible
    exact ⟨found, before, segment, there, hnormal, same, ends⟩
  refine ⟨⟨?_, ?_⟩, fun normal leads => ?_⟩
  · rintro ⟨found, there, same⟩
    obtain ⟨front, segment, ends⟩ := exists_documentName (isDocument_of_mem_found hpath)
    obtain ⟨components, nonempty, whole, rfl⟩ := nameOf?_eq_some_iff.1 hname
    obtain none | ⟨before, last, hlast⟩ := List.eq_nil_or_concat components
    · exact absurd none nonempty
    · rw [List.concat_eq_append] at hlast
      subst hlast
      have parts := ends.symm.trans whole
      rw [← List.append_assoc] at parts
      obtain rfl := (List.cons.inj (List.append_inj' parts rfl).2).1
      rw [Path.dropExtension_concat, List.map_append] at there
      exact reversible_of_pathFor? hbase hscope whole there same
  · rintro ⟨normal, leads⟩
    obtain ⟨found, before, segment, there, -, same, -⟩ := back normal leads
    exact ⟨found, there, same⟩
  · obtain ⟨found, before, segment, there, hnormal, same, ends⟩ := back normal leads
    have meant : Path.IsMeant (documentName segment) :=
      ⟨(documentName_meant segment).1, (documentName_meant segment).2.1⟩
    have file' : fs.isFile found = true := FileSystem.isFile_congr ends meant same file
    have candidates : Loader.candidates name [] = [name] := by
      rw [Loader.candidates, if_pos (by simp), hnormal]
    rw [resolve, candidates, List.find?_cons, there]
    simp [file']

/-- A dot in a short name is told as a separator. -/
theorem pathFor?_found_dotted :
    let fs : FileSystem := ⟨.directory [("d".toList, .directory [("A.b.xml".toList, .file (.text [])),
      ("Item.xml".toList, .file (.text []))])], []⟩
    let d : Directory := ⟨"d".toList, "App".toList⟩
    d.expand fs "App\\*".toList = .ok ["App\\A\\b".toList, "App\\Item".toList] ∧
      d.found fs "App\\*".toList = ["d/A.b.xml".toList, "d/Item.xml".toList] ∧
      d.resolve fs "App\\Item".toList [] = some "App\\Item".toList ∧
      ¬ ∃ found, d.pathFor? "App\\A\\b".toList = some found ∧
        Path.components found = Path.components "d/A.b.xml".toList := by
  intro fs d
  have opened : openAt fs "d".toList "App".toList = .ok d := rfl
  have answer : d.expand fs "App\\*".toList = .ok ["App\\A\\b".toList, "App\\Item".toList] := rfl
  have found : d.found fs "App\\*".toList = ["d/A.b.xml".toList, "d/Item.xml".toList] := by decide +kernel
  have pattern : patternScope? (Name.normalize "App\\*".toList) ≠ none := by decide +kernel
  have each := (pathFor?_found_iff opened answer pattern).2
  rw [found] at each
  refine ⟨answer, found, ?_, fun same => ?_⟩
  · refine (each "d/Item.xml".toList (by simp) (by decide +kernel) _ (by decide +kernel)).2 (by decide +kernel) ?_
    have bare : ∀ c ∈ "Item".toList, Name.isSeparator c = false := Text.forall_mem_of_all (by decide)
    refine ⟨[], "Item".toList, by decide +kernel, by decide, List.forall_mem_singleton.2 bare, ?_, ?_⟩
    · rintro _ ⟨⟩ _ ⟨⟩
      decide
    · rintro _ ⟨⟩ _ ⟨⟩
      decide
  · obtain ⟨-, front, segment, whole, reversible⟩ :=
      (each "d/A.b.xml".toList (by simp) (by decide +kernel) _ (by decide +kernel)).1.1 same
    have last := congrArg List.getLast? whole
    rw [← List.append_assoc, List.getLast?_concat] at last
    have document : documentName segment = documentName "A.b".toList :=
      (Path.Component.name.inj (Option.some.inj last)).symm
    obtain rfl := documentName_injective document
    exact absurd (reversible.bare "A.b".toList (by simp) '.' (by decide)) (by decide)

end Directory

end DeclGen
