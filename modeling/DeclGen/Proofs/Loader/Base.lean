import DeclGen.Proofs.Loader.Pattern

/-!
# Documents below the base

A directory is to read below its base only. The path of a document is the base with the segments of a name joined to
it, and a joined segment that is an absolute path takes the place of what it is joined to.

* `Directory.Contains` : the paths that lead below the base; `Directory.contains_setExtension_iff` : an extension
  changes nothing about it;
* `Path.join_of_isAbsolute`, `Path.root_mem_components_iff` : what absolute paths do when they are joined;
* `Directory.contains_foldl_join_iff`, `Directory.not_contains_foldl_join` : joined segments lead below the base iff
  they name something, and an absolute one leads away from a base in the working directory;
* `Directory.pathFor?_contained_iff` : both for the path of the document of a name.
-/

namespace DeclGen

/-! ## Joined segments -/

namespace Path
variable {path : Text}

/-- A segment that is not empty names something, if it is no absolute path. -/
theorem pieces_ne_nil {segment : Text} (hne : segment ≠ []) (relative : isAbsolute segment = false) :
    pieces segment ≠ [] := by
  obtain ⟨first, rest, hs⟩ := List.exists_cons_of_ne_nil (segments_ne_nil segment)
  have solid := head?_segments hne relative
  rw [hs, List.head?_cons, ne_eq, Option.some.injEq] at solid
  refine List.ne_nil_of_mem (a := first) ?_
  rw [pieces, hs]
  exact List.mem_filter.2 ⟨List.mem_cons_self, by simpa using solid⟩

/-- An absolute path takes the place of what it is joined to. -/
theorem join_of_isAbsolute {segment : Text} (h : isAbsolute segment = true) (path : Text) :
    join path segment = segment := by
  rw [join, h, Bool.true_or, if_pos rfl]

theorem root_mem_components_iff : Component.root ∈ components path ↔ isAbsolute path = true := by
  rw [components_eq, List.mem_append]
  constructor
  · rintro (start | below)
    · unfold leading at start
      split at start
      · assumption
      · split at start <;> exact absurd start (by simp)
    · exact absurd (isLeading_of_mem_body below) (by decide)
  · intro absolute
    rw [leading, if_pos absolute]
    exact Or.inl List.mem_cons_self

end Path

/-! ## Below the base -/

namespace Directory
variable {d : Directory} {path : Text} {segments : List Text}

/-- The path adds names to the base, at least one. -/
def Contains (d : Directory) (path : Text) : Prop :=
  ∃ names ≠ [], Path.components path = Path.components d.base ++ names.map Path.Component.name

theorem Contains.of_same_front {front : List Path.Component} {name name' : Text} {path' : Text}
    (hp : Path.components path = front ++ [.name name]) (hp' : Path.components path' = front ++ [.name name'])
    (h : d.Contains path) : d.Contains path' := by
  obtain ⟨names, hne, whole⟩ := h
  obtain none | ⟨above, last, hlast⟩ := List.eq_nil_or_concat names
  · exact absurd none hne
  · rw [List.concat_eq_append] at hlast
    subst hlast
    rw [hp, List.map_append, ← List.append_assoc] at whole
    have same := (List.append_inj' whole rfl).1
    refine ⟨above ++ [name'], by simp, ?_⟩
    rw [hp', same, List.map_append, List.append_assoc]
    rfl

/-- With the extension of documents, a path leads below the base iff it does without. -/
theorem contains_setExtension_iff : d.Contains (Path.setExtension Search.extension path) ↔ d.Contains path := by
  obtain ⟨same, -⟩ | ⟨front, name, -, hp, hp', -⟩ := Path.components_setExtension path
  · rw [same]
  · exact ⟨Contains.of_same_front hp' hp, Contains.of_same_front hp hp'⟩

/-- Joined segments, none an absolute path, lead below the base iff they name something. -/
theorem contains_foldl_join_iff (hbase : d.base ≠ []) (relative : ∀ s ∈ segments, Path.isAbsolute s = false)
    (undotted : ∀ s ∈ segments, '.' ∉ s) :
    d.Contains (segments.foldl Path.join d.base) ↔ ∃ s ∈ segments, s ≠ [] := by
  have joined := Path.components_foldl_join_of_relative relative undotted hbase
  constructor
  · rintro ⟨names, hne, whole⟩
    rw [joined] at whole
    have same : segments.flatMap Path.pieces = names :=
      List.map_inj_right (fun _ _ => Path.Component.name.inj) |>.1 (List.append_cancel_left whole)
    obtain ⟨piece, hp⟩ := List.exists_mem_of_ne_nil names hne
    rw [← same] at hp
    obtain ⟨s, hs, hp⟩ := List.mem_flatMap.1 hp
    refine ⟨s, hs, ?_⟩
    rintro rfl
    exact absurd hp List.not_mem_nil
  · rintro ⟨s, hs, hne⟩
    refine ⟨_, ?_, joined⟩
    obtain ⟨piece, hp⟩ := List.exists_mem_of_ne_nil _ (Path.pieces_ne_nil hne (relative s hs))
    exact List.ne_nil_of_mem (List.mem_flatMap.2 ⟨s, hs, hp⟩)

/-- From an absolute path on, relative segments do not lead below a base in the working directory. -/
theorem not_contains_foldl_join (hbase : Path.isAbsolute d.base = false) {start : Text}
    (absolute : Path.isAbsolute start = true) (relative : ∀ s ∈ segments, Path.isAbsolute s = false)
    (undotted : ∀ s ∈ segments, '.' ∉ s) : ¬ d.Contains (segments.foldl Path.join start) := by
  rintro ⟨names, -, whole⟩
  have hne : start ≠ [] := by
    rintro rfl
    exact absurd absolute (by decide)
  have root : Path.Component.root ∈ Path.components (segments.foldl Path.join start) := by
    rw [Path.components_foldl_join_of_relative relative undotted hne]
    exact List.mem_append_left _ (Path.root_mem_components_iff.2 absolute)
  rw [whole, List.mem_append] at root
  rcases root with root | root
  · exact absurd (Path.root_mem_components_iff.1 root) (by simp [hbase])
  · obtain ⟨name, -, hn⟩ := List.mem_map.1 root
    exact absurd hn (by simp)

/-- **Below the base.** The document of a name is below the base iff the name has a segment inside the scope that is
not empty, as long as no segment is an absolute path. If one is, the last such segment takes the place of the base. -/
theorem pathFor?_contained_iff {fs : FileSystem} {base scope name : Text} (opened : openAt fs base scope = .ok d)
    (h : d.pathFor? name = some path) : ∃ relative, Name.normalize name = inScope d.scope relative ∧
      ((∀ s ∈ nameSegments relative, Path.isAbsolute s = false) →
        (d.Contains path ↔ ∃ s ∈ nameSegments relative, s ≠ [])) ∧
      ∀ before s after, nameSegments relative = before ++ s :: after → Path.isAbsolute s = true →
        (∀ t ∈ after, Path.isAbsolute t = false) →
          path = Path.setExtension Search.extension (after.foldl Path.join s) ∧
          (Path.isAbsolute d.base = false → ¬ d.Contains path) := by
  obtain ⟨relative, -, hname, rfl⟩ := pathFor?_eq_some_iff.1 h
  obtain ⟨rfl, hbase, -⟩ := of_openAt opened
  have undotted : ∀ s ∈ nameSegments relative, '.' ∉ s := by
    intro s hs hm
    have inside : '.' ∈ Name.normalize name := hname ▸ mem_inScope (Text.mem_of_mem_split hs hm)
    exact Name.ne_dot_of_mem_unify _ inside rfl
  refine ⟨relative, hname, fun none => ?_, fun before s after hs absolute rest => ?_⟩
  · rw [contains_setExtension_iff, contains_foldl_join_iff hbase none undotted]
  · rw [hs, List.forall_mem_append, List.forall_mem_cons] at undotted
    rw [hs, List.foldl_append, List.foldl_cons, Path.join_of_isAbsolute absolute]
    refine ⟨rfl, fun relativeBase => ?_⟩
    rw [contains_setExtension_iff]
    exact not_contains_foldl_join relativeBase absolute rest undotted.2.2

/-- The item of the shop is below the base; an absolute segment leads to another place, and a name of nothing but
a separator inside the scope to a sibling of the base. -/
theorem pathFor?_contained_shop :
    let d : Directory := ⟨"d".toList, "App".toList⟩
    (d.pathFor? "App\\Shop\\Item".toList = some "d/Shop/Item.xml".toList ∧ d.Contains "d/Shop/Item.xml".toList) ∧
      (d.pathFor? "App\\/etc/x".toList = some "/etc/x.xml".toList ∧ ¬ d.Contains "/etc/x.xml".toList) ∧
      d.pathFor? "App\\\\".toList = some "d.xml".toList ∧ ¬ d.Contains "d.xml".toList := by
  intro d
  have opened : openAt ⟨.directory [("d".toList, .directory [])], []⟩ "d".toList "App".toList = .ok d := rfl
  have item : d.pathFor? "App\\Shop\\Item".toList = some "d/Shop/Item.xml".toList := by decide +kernel
  have away : d.pathFor? "App\\/etc/x".toList = some "/etc/x.xml".toList := by decide +kernel
  have beside : d.pathFor? "App\\\\".toList = some "d.xml".toList := by decide +kernel
  refine ⟨⟨item, ?_⟩, ⟨away, ?_⟩, beside, ?_⟩
  · obtain ⟨relative, hname, below, -⟩ := pathFor?_contained_iff opened item
    obtain rfl : "Shop\\Item".toList = relative := @inScope_injective d.scope _ _ hname
    exact (below (by decide)).2 ⟨"Shop".toList, by decide, by decide⟩
  · obtain ⟨relative, hname, -, replaced⟩ := pathFor?_contained_iff opened away
    obtain rfl : "/etc/x".toList = relative := @inScope_injective d.scope _ _ hname
    exact (replaced [] "/etc/x".toList [] (by decide) (by decide) (by simp)).2 (by decide)
  · obtain ⟨relative, hname, below, -⟩ := pathFor?_contained_iff opened beside
    obtain rfl : "\\".toList = relative := @inScope_injective d.scope _ _ hname
    exact mt (below (by decide)).1 (by decide)

end Directory

end DeclGen
