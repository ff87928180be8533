import DeclGen.Proofs.Loader.Directory
import DeclGen.Proofs.File.Below

/-!
# What the components of a path tell

Two paths are the same if their components are. Dots and slashes between them are dropped, but one at the end
asks for a directory.

* `Path.leading_body_of_components` : the start of a path and the segments that mean something are told by its
  components, and `Path.mem_iff_mem_components` : the characters;
* `Path.fileName?_spec`, `Path.components_setExtension` : the name at the end of a path, and an extension for it;
* `Search.components_directory?`, `Search.components_foldl_inside` : the paths under which a search lists;
* `FileSystem.isFile_congr` : paths of the same components lead to the same file, if the one asked for ends
  in a name.
-/

namespace DeclGen

namespace Path
variable {path path' name : Text}

/-! ## Starts of paths -/

/-- The components of the segments. -/
def body (path : Text) : List Component := (segments path).filterMap Component.ofSegment?

theorem components_eq (path : Text) : components path = leading path ++ body path := rfl

/-- The start of a path is told by its first segment. -/
theorem leading_eq (hne : path ≠ []) : leading path =
    if (segments path).head? = some [] then [.root]
    else if (segments path).head? = some ['.'] then [.current] else [] := by
  unfold leading
  cases absolute : isAbsolute path with
  | true =>
    obtain ⟨c, t, rfl⟩ := List.exists_cons_of_ne_nil hne
    obtain rfl : c = '/' := Option.some.inj (of_decide_eq_true absolute)
    have first : (segments ('/' :: t)).head? = some [] := rfl
    rw [if_pos rfl, if_pos first]
  | false => rw [if_neg (by simp), if_neg (head?_segments hne absolute)]

/-- A component that stands at the start only. -/
def Component.isLeading : Component → Bool
  | .root => true
  | .current => true
  | _ => false

theorem isLeading_of_mem_leading {c : Component} (h : c ∈ leading path) : c.isLeading = true := by
  unfold leading at h
  split at h
  · rw [List.mem_singleton.1 h]
    rfl
  · split at h
    · rw [List.mem_singleton.1 h]
      rfl
    · exact absurd h List.not_mem_nil

theorem isLeading_of_mem_body {c : Component} (h : c ∈ body path) : c.isLeading = false := by
  obtain ⟨segment, -, hc⟩ := List.mem_filterMap.1 h
  unfold Component.ofSegment? at hc
  split at hc
  · exact absurd hc (by simp)
  · split at hc <;> rw [← Option.some.inj hc] <;> rfl

/-- The start of a path and what follows it are told by the components. -/
theorem leading_body_of_components (h : components path = components path') :
    leading path = leading path' ∧ body path = body path' := by
  have start (path : Text) : (components path).filter Component.isLeading = leading path := by
    rw [components_eq, List.filter_append, List.filter_eq_self.2 fun c hc => isLeading_of_mem_leading hc,
      List.filter_eq_nil_iff.2 fun c hc => by simp [isLeading_of_mem_body hc], List.append_nil]
  have rest (path : Text) : (components path).filter (!·.isLeading) = body path := by
    rw [components_eq, List.filter_append, List.filter_eq_nil_iff.2 fun c hc => by simp [isLeading_of_mem_leading hc],
      List.filter_eq_self.2 fun c hc => by simp [isLeading_of_mem_body hc], List.nil_append]
  rw [← start path, ← start path', ← rest path, ← rest path', h]
  exact ⟨rfl, rfl⟩

/-! ## Ends of paths -/

/-- A segment that means something. -/
def IsMeant (segment : Text) : Prop := segment ≠ [] ∧ segment ≠ ['.']

instance : DecidablePred IsMeant := fun segment => inferInstanceAs (Decidable (segment ≠ [] ∧ segment ≠ ['.']))

theorem ofSegment?_eq_none_iff {segment : Text} : Component.ofSegment? segment = none ↔ ¬ IsMeant segment := by
  unfold Component.ofSegment? IsMeant
  split
  · next skip => exact iff_of_true rfl (by simpa [Classical.or_iff_not_imp_left] using skip)
  · next kept =>
    refine iff_of_false (by split <;> simp) fun h => h ?_
    simpa using kept

theorem text_of_ofSegment? {segment : Text} {c : Component} (h : Component.ofSegment? segment = some c) :
    c.text = segment := by
  unfold Component.ofSegment? at h
  split at h
  · exact absurd h (by simp)
  · split at h
    · next above => rw [← Option.some.inj h, above]; rfl
    · rw [← Option.some.inj h]; rfl

/-- Where the characters of a path stand, but for the dots and slashes between. -/
theorem mem_iff_mem_components {c : Char} (other : c ∉ ['/', '.']) :
    c ∈ path ↔ ∃ part ∈ components path, c ∈ part.text := by
  constructor
  · intro h
    have inside : decide (c = '/') = false := decide_eq_false fun slash => other (by simp [slash])
    obtain ⟨segment, hs, hc⟩ := Text.exists_mem_split (p := (· = '/')) h inside
    have meant : IsMeant segment := by
      constructor
      · rintro rfl
        exact absurd hc List.not_mem_nil
      · rintro rfl
        exact other (by simp [List.mem_singleton.1 hc])
    obtain ⟨part, hpart⟩ := Option.ne_none_iff_exists'.1 (mt ofSegment?_eq_none_iff.1 (not_not_intro meant))
    exact ⟨part, List.mem_append_right _ (List.mem_filterMap.2 ⟨segment, hs, hpart⟩),
      by rwa [text_of_ofSegment? hpart]⟩
  · rintro ⟨part, hpart, hc⟩
    rcases List.mem_append.1 hpart with start | rest
    · have leads := isLeading_of_mem_leading start
      cases part with
      | root => exact absurd (List.mem_cons.2 (Or.inl (List.mem_singleton.1 hc))) other
      | current => exact absurd (by simp [List.mem_singleton.1 hc]) other
      | parent => exact absurd leads (by decide)
      | name name => exact absurd leads (by simp [Component.isLeading])
    · obtain ⟨segment, hs, hseg⟩ := List.mem_filterMap.1 rest
      rw [text_of_ofSegment? hseg] at hc
      exact Text.mem_of_mem_split hs hc

theorem slash_notMem_stem (slash : '/' ∉ name) : '/' ∉ stem name := by
  rw [stem]
  split
  · exact slash
  · intro h
    rw [Text.beforeLast, List.mem_reverse] at h
    exact slash (List.mem_reverse.1 ((List.dropWhile_suffix _).subset (List.mem_of_mem_tail h)))

/-- The name at the end of a path is its last component. -/
theorem fileName?_spec (path : Text) :
    (fileName? path = none ∧ ∀ front name, components path ≠ front ++ [.name name]) ∨
      ∃ before name, fileName? path = some (before, name) ∧ IsName name ∧
        before.reverse ++ [name] <+: segments path ∧
        components path = leading path ++ before.reverse.filterMap Component.ofSegment? ++ [.name name] := by
  let skip (s : Text) : Bool := s = [] || s = ['.']
  -- Behind the last segment that means something, segments mean nothing.
  have parts := congrArg List.reverse
    (List.takeWhile_append_dropWhile (p := skip) (l := (segments path).reverse))
  have nothing : ((segments path).reverse.takeWhile skip).reverse.filterMap Component.ofSegment? = [] := by
    refine List.filterMap_eq_nil_iff.2 fun s hs => ofSegment?_eq_none_iff.2 fun hm => ?_
    have skipped := List.all_eq_true.1 List.all_takeWhile s (List.mem_reverse.1 hs)
    simp [skip, hm.1, hm.2] at skipped
  rw [List.reverse_append, List.reverse_reverse] at parts
  cases last : (segments path).reverse.dropWhile skip with
  | nil =>
    refine Or.inl ⟨by rw [fileName?, last], fun front name h => ?_⟩
    rw [last, List.reverse_nil, List.nil_append] at parts
    rw [components_eq, body, ← parts, nothing, List.append_nil] at h
    have start : Component.name name ∈ leading path := h ▸ List.mem_append_right _ List.mem_cons_self
    exact absurd (isLeading_of_mem_leading start) (by simp [Component.isLeading])
  | cons segment before =>
    have meant : IsMeant segment := by
      have first := List.head?_dropWhile_not skip (segments path).reverse
      rw [last] at first
      simpa [IsMeant, skip] using first
    rw [last, List.reverse_cons] at parts
    have whole : components path = leading path ++ before.reverse.filterMap Component.ofSegment? ++
        [segment].filterMap Component.ofSegment? := by
      rw [components_eq, body, ← parts, List.filterMap_append, List.filterMap_append, nothing, List.append_nil,
        List.append_assoc]
    by_cases above : segment = ['.', '.']
    · refine Or.inl ⟨by rw [fileName?, last]; exact if_pos above, fun front name h => ?_⟩
      rw [whole, above] at h
      have ends := (List.append_inj' h rfl).2
      exact absurd ends (by simp [Component.ofSegment?])
    · have proper : IsName segment := ⟨meant.1, meant.2, above⟩
      refine Or.inr ⟨before, segment, by rw [fileName?, last]; exact if_neg above, proper, ⟨_, parts⟩, ?_⟩
      rw [whole, List.filterMap_cons, ofSegment?_name proper, List.filterMap_nil]

/-- The extension of documents is put in the place of that of the name at the end, if there is one. -/
theorem components_setExtension (path : Text) :
    (setExtension Search.extension path = path ∧ ∀ front name, components path ≠ front ++ [.name name]) ∨
      ∃ front name before, components path = front ++ [.name name] ∧
        components (setExtension Search.extension path) = front ++ [.name (documentName (stem name))] ∧
        segments (setExtension Search.extension path) = before ++ [documentName (stem name)] := by
  obtain ⟨none, other⟩ | ⟨before, name, found, proper, ⟨skips, parts⟩, whole⟩ := fileName?_spec path
  · exact Or.inl ⟨by rw [setExtension, none], other⟩
  · have slash : ∀ s ∈ segments path, '/' ∉ s := fun s hs hm =>
      absurd (Text.eq_false_of_mem_split hs '/' hm) (by simp)
    have slash' : ∀ s ∈ before.reverse ++ [documentName (stem name)], '/' ∉ s := by
      rw [List.forall_mem_append, List.forall_mem_singleton]
      exact ⟨fun s hs => slash s (by rw [← parts]; simp [List.mem_reverse.1 hs]),
        slash_notMem_documentName (slash_notMem_stem (slash name (by rw [← parts]; simp)))⟩
    have pieces : segments (setExtension Search.extension path) = before.reverse ++ [documentName (stem name)] := by
      rw [setExtension, found]
      simp only [List.reverse_cons]
      exact Text.split_intercalate (by simp) slash'
    have hne : path ≠ [] := by
      rintro rfl
      have none : components [] = [] := rfl
      rw [none] at whole
      exact absurd whole (by simp)
    have hne' : setExtension Search.extension path ≠ [] := by
      intro empty
      rw [empty] at pieces
      rcases List.append_eq_singleton_iff.1 pieces.symm with ⟨-, hd⟩ | ⟨-, hd⟩
      · exact (documentName_meant _).1 (List.cons.inj hd).1
      · exact absurd hd (by simp)
    have start : leading (setExtension Search.extension path) = leading path := by
      rw [leading_eq hne', leading_eq hne, pieces, ← parts]
      cases before.reverse with
      | nil => simp [(documentName_meant (stem name)).1, (documentName_meant (stem name)).2.1, proper.1, proper.2.1]
      | cons s rest => rfl
    refine Or.inr ⟨_, name, before.reverse, whole, ?_, pieces⟩
    rw [components_eq, body, start, pieces, List.filterMap_append, List.filterMap_cons,
      ofSegment?_name (documentName_meant _), List.filterMap_nil, List.append_assoc]

end Path

/-! ## Listed paths -/

namespace Search
variable {fs : FileSystem} {path found : Text}

theorem not_isHere_of_current (h : .current ∉ Path.components path) : isHere path = false := by
  refine decide_eq_false fun here => h ?_
  rw [here]
  exact List.mem_cons_self

theorem inside_of_not_isHere (other : isHere path = false) (name : Text) :
    inside path name = Path.join path name := by
  rw [inside, if_neg (by simp [other])]

theorem not_isHere_join (hne : path ≠ []) (other : isHere path = false) {name : Text} (slash : '/' ∉ name) :
    isHere (Path.join path name) = false :=
  Bool.eq_false_iff.2 fun here => Bool.eq_false_iff.1 other (isHere_of_join hne slash here)

theorem follow_cons {segment : Text} {segments : List Text} (h : follow fs path (segment :: segments) = some found) :
    follow fs (inside path segment) segments = some found := by
  rw [follow] at h
  exact (Option.ite_none_right_eq_some.1 h).2

/-- Below another directory than the working directory, segments that are followed add their components. -/
theorem components_follow {segments : List Text} (slash : ∀ s ∈ segments, '/' ∉ s) :
    ∀ {path : Text}, path ≠ [] → isHere path = false → follow fs path segments = some found →
      Path.components found = Path.components path ++ segments.filterMap Path.Component.ofSegment? := by
  induction segments with
  | nil =>
    intro path _ _ h
    rw [Option.some.inj h]
    exact (List.append_nil _).symm
  | cons segment segments ih =>
    intro path hne other h
    rw [List.forall_mem_cons] at slash
    have h := follow_cons h
    rw [inside_of_not_isHere other] at h
    rw [ih slash.2 (FileSystem.join_ne_nil hne (Path.isAbsolute_of_slash slash.1))
        (not_isHere_join hne other slash.1) h,
      Path.components_join hne slash.1, List.append_assoc, List.filterMap_cons]
    cases Path.Component.ofSegment? segment <;> rfl

/-- A directory is listed under a path of the same components, but for a dot at the start. -/
theorem components_directory? (hne : path ≠ []) (undotted : .current ∉ Path.components path)
    (h : directory? fs path = some found) : Path.components found = Path.components path := by
  have slash : ∀ s ∈ Path.segments path, '/' ∉ s := fun s hs hm =>
    absurd (Text.eq_false_of_mem_split hs '/' hm) (by simp)
  unfold directory? at h
  split at h
  · next absolute =>
    obtain ⟨c, t, rfl⟩ := List.exists_cons_of_ne_nil hne
    obtain rfl : c = '/' := Option.some.inj (of_decide_eq_true absolute)
    have parts : Path.segments ('/' :: t) = [] :: Path.segments t := rfl
    rw [parts, List.forall_mem_cons] at slash
    rw [parts, List.tail_cons] at h
    rw [components_follow slash.2 (by simp) rfl h, Path.components, Path.components, parts]
    rfl
  · next relative =>
    obtain ⟨s, rest, hs⟩ := List.exists_cons_of_ne_nil (Path.segments_ne_nil path)
    have solid := Path.head?_segments hne (Bool.eq_false_iff.2 relative)
    have start : (Path.segments path).head? ≠ some ['.'] := by
      intro dot
      refine undotted (List.mem_append_left _ ?_)
      rw [Path.leading, if_neg relative, if_pos dot]
      exact List.mem_cons_self
    have whole : Path.components path = (Path.segments path).filterMap Path.Component.ofSegment? := by
      rw [Path.components, Path.leading, if_neg relative, if_neg start, List.nil_append]
    rw [hs] at h slash solid start whole
    rw [List.forall_mem_cons] at slash
    have nonempty : s ≠ [] := fun empty => solid (by rw [empty]; rfl)
    have other : s ≠ ['.'] := fun dot => start (by rw [dot]; rfl)
    have first : Path.components s = [s].filterMap Path.Component.ofSegment? := by
      have single := Path.segments_eq_singleton slash.1
      rw [Path.components, Path.leading, if_neg (by simp [Path.isAbsolute_of_slash slash.1]),
        if_neg (by simpa [single] using other), single, List.nil_append]
    have there : isHere s = false := Bool.eq_false_iff.2 fun here => other (eq_dot_of_isHere slash.1 here)
    rw [components_follow slash.2 nonempty there (follow_cons h), first, whole, ← List.filterMap_append,
      List.singleton_append]

/-- Names of files that are listed in a directory are added to its components. -/
theorem components_foldl_inside {names : List Text} (h : ∀ n ∈ names, Path.IsName n ∧ '/' ∉ n) :
    ∀ {path : Text}, path ≠ [] → isHere path = false → Path.components (names.foldl inside path) =
      Path.components path ++ names.map Path.Component.name := by
  induction names with
  | nil => exact fun _ _ => (List.append_nil _).symm
  | cons name names ih =>
    intro path hne other
    rw [List.forall_mem_cons] at h
    rw [List.foldl_cons, inside_of_not_isHere other,
      ih h.2 (FileSystem.join_ne_nil hne (Path.isAbsolute_of_slash h.1.2)) (not_isHere_join hne other h.1.2),
      Path.components_join hne h.1.2, Path.ofSegment?_name h.1.1, List.append_assoc]
    rfl

end Search

/-! ## Files -/

namespace FileSystem
variable {fs : FileSystem} {root : Entry} {path path' : Text}

/-- Where a path ends in a segment that means something, the others of that kind lead. -/
theorem walk_meant {last : Text} (front : List Text) : ∀ here, walk root here (front ++ [last]) =
    walk root here (front.filter Path.IsMeant ++ [last]) := by
  induction front with
  | nil => exact fun _ => rfl
  | cons segment front ih =>
    intro here
    by_cases meant : Path.IsMeant segment
    · rw [List.filter_cons, if_pos (decide_eq_true meant), List.cons_append, List.cons_append,
        ← List.singleton_append, walk_append, ← @List.singleton_append _ segment (_ ++ _), walk_append]
      exact congrArg _ (funext fun next => ih next)
    · have skip : segment = [] ∨ segment = ['.'] := by
        simpa [Path.IsMeant, Classical.or_iff_not_imp_left] using meant
      obtain ⟨next, rest, hs⟩ := List.exists_cons_of_ne_nil (l := front ++ [last]) (by simp)
      rw [List.filter_cons, if_neg (by simpa using meant), List.cons_append, hs, walk_skip skip, ← hs, ih]

theorem filter_isMeant (segments : List Text) : segments.filter Path.IsMeant =
    (segments.filterMap Path.Component.ofSegment?).map Path.Component.text := by
  induction segments with
  | nil => rfl
  | cons segment segments ih =>
    rw [List.filter_cons, List.filterMap_cons]
    by_cases meant : Path.IsMeant segment
    · obtain ⟨c, hc⟩ := Option.ne_none_iff_exists'.1 (mt Path.ofSegment?_eq_none_iff.1 (not_not_intro meant))
      rw [if_pos (decide_eq_true meant), hc, ih, List.map_cons, Path.text_of_ofSegment? hc]
    · rw [if_neg (by simpa using meant), Path.ofSegment?_eq_none_iff.2 meant, ih]

/-- A path that ends in a segment that means something leads where its components lead. -/
theorem locate_meant {front : List Text} {last : Text} (hs : Path.segments path = front ++ [last])
    (meant : Path.IsMeant last) (hne : path ≠ []) (nul : '\x00' ∉ path) :
    fs.locate path = walk fs.root (fs.origin path) ((Path.body path).map Path.Component.text) := by
  have single : [last].filter Path.IsMeant = [last] := by rw [List.filter_cons, if_pos (decide_eq_true meant)]; rfl
  rw [locate_eq hne nul, Path.body, ← filter_isMeant, hs, walk_meant, List.filter_append, single]

/-- The path of a file ends in a segment that means something. -/
theorem exists_last_of_isFile (h : fs.isFile path = true) :
    ∃ front last, Path.segments path = front ++ [last] ∧ Path.IsMeant last := by
  obtain ⟨front, last, hs⟩ : ∃ front last, Path.segments path = front ++ [last] :=
    ⟨_, _, (List.dropLast_concat_getLast (Path.segments_ne_nil path)).symm⟩
  refine ⟨front, last, hs, Decidable.byContradiction fun meant => ?_⟩
  have skip : last = [] ∨ last = ['.'] := by simpa [Path.IsMeant, Classical.or_iff_not_imp_left] using meant
  obtain ⟨content, entry⟩ := isFile_iff.1 h
  obtain ⟨here, hl, hf⟩ := entry_eq_ok_iff.1 entry
  obtain ⟨-, -, hw⟩ := of_locate hl
  rw [hs, walk_append] at hw
  obtain ⟨above, -, hw⟩ := bind_eq_ok_iff.1 hw
  obtain ⟨children, hd⟩ := exists_directory_of_walk hw
  obtain rfl := Except.ok.inj ((walk_here skip hd).symm.trans hw)
  exact absurd (Option.some.inj (hd.symm.trans hf)) (by simp)

/-- **Paths of the same components.** If one leads to a file, so does any other that ends in a segment that means
something. -/
theorem isFile_congr {front : List Text} {last : Text} (hs : Path.segments path = front ++ [last])
    (meant : Path.IsMeant last) (h : Path.components path = Path.components path')
    (file : fs.isFile path' = true) : fs.isFile path = true := by
  obtain ⟨front', last', hs', meant'⟩ := exists_last_of_isFile file
  obtain ⟨content, entry⟩ := isFile_iff.1 file
  obtain ⟨here, hl, hf⟩ := entry_eq_ok_iff.1 entry
  obtain ⟨hne', nul', -⟩ := of_locate hl
  have hne : path ≠ [] := by
    rintro rfl
    exact Path.components_ne_nil hne' h.symm
  have nul : '\x00' ∉ path := by
    rw [Path.mem_iff_mem_components (by decide)] at nul' ⊢
    rwa [h]
  obtain ⟨start, rest⟩ := Path.leading_body_of_components h
  have origin : fs.origin path = fs.origin path' := by
    have absolute (path : Text) : Path.isAbsolute path = true ↔ Path.leading path = [.root] := by
      unfold Path.leading
      cases Path.isAbsolute path with
      | true => simp
      | false => exact iff_of_false (by simp) (by rw [if_neg (by simp)]; split <;> simp)
    have same : Path.isAbsolute path = Path.isAbsolute path' := by
      rw [Bool.eq_iff_iff, absolute, absolute, start]
    rw [FileSystem.origin, FileSystem.origin, same]
  have place : fs.locate path = fs.locate path' := by
    rw [locate_meant hs meant hne nul, locate_meant hs' meant' hne' nul', origin, rest]
  exact isFile_iff.2 ⟨content, entry_eq_ok_iff.2 ⟨here, place.trans hl, hf⟩⟩

end FileSystem

end DeclGen
