import DeclGen.Proofs.File.Search

/-!
# Paths below a directory

What a path is to a directory is told by its components: a child adds one name to those of the directory,
and what is below adds names only.

* `Path.IsChild` : the path of an entry of a directory;
* `Path.components_join_relative` : the components that a relative path adds to those of a directory;
* `Path.isChild_join_iff` : a joined name is a child iff it has no slash;
* `FileSystem.locate_below`, `FileSystem.locate_child` : where relative paths and those of children lead.
-/

namespace DeclGen

namespace Path
variable {directory path name : Text}

/-- The path is that of the entry `name` of the directory. -/
def IsChild (directory name path : Text) : Prop :=
  components path = components directory ++ [.name name]

/-- The path of a directory; the empty path stands for the working directory. -/
def orHere (directory : Text) : Text := if directory = [] then ['.'] else directory

theorem ofSegment?_name {segment : Text} (h : IsName segment) :
    Component.ofSegment? segment = some (.name segment) := by
  simp [Component.ofSegment?, h.1, h.2.1, h.2.2]

/-- Names in components are segments. -/
theorem mem_segments_of_component (h : .name name ∈ components path) : name ∈ segments path := by
  rcases List.mem_append.1 h with h | h
  · unfold leading at h
    split at h
    · simp at h
    · split at h <;> simp at h
  · obtain ⟨segment, hs, hc⟩ := List.mem_filterMap.1 h
    unfold Component.ofSegment? at hc
    split at hc
    · exact absurd hc (by simp)
    · split at hc
      · exact absurd hc (by simp)
      · obtain rfl := Component.name.inj (Option.some.inj hc)
        exact hs

/-- A relative path that does not start with a dot segment adds the components of its segments. -/
theorem components_join_relative (relative : isAbsolute name = false)
    (undotted : (segments name).head? ≠ some ['.']) :
    components (join directory name) =
      components directory ++ (segments name).filterMap Component.ofSegment? := by
  by_cases hne : directory = []
  · subst hne
    have none : components [] = [] := rfl
    rw [join, if_pos (by simp), none, List.nil_append, components, leading, relative,
      if_neg (by simp), if_neg undotted, List.nil_append]
  · exact components_join_of_relative hne relative

theorem isChild_join_iff (hname : IsName name) :
    IsChild directory name (join directory name) ↔ '/' ∉ name := by
  constructor
  · intro h
    have hc : .name name ∈ components (join directory name) := by
      rw [show components (join directory name) = _ from h]
      exact List.mem_append_right _ List.mem_cons_self
    have free := Text.eq_false_of_mem_split (mem_segments_of_component hc)
    exact fun slash => absurd (free _ slash) (by simp)
  · intro slash
    have single := segments_eq_singleton slash
    rw [IsChild, components_join_relative (isAbsolute_of_slash slash) (by simpa [single] using hname.2.1),
      single, List.filterMap_cons, ofSegment?_name hname]
    rfl

end Path

namespace FileSystem
variable {fs : FileSystem} {directory name : Text} {place : List Text}

/-- A relative path that does not lead up leads down from the directory. -/
theorem locate_below (relative : Path.isAbsolute name = false) (up : ['.', '.'] ∉ Path.segments name)
    (h : fs.locate (Path.join directory name) = .ok place) :
    ∃ here, fs.locate (Path.orHere directory) = .ok here ∧ place = here ++ Path.names name := by
  have down {here : List Text} (hw : walk fs.root here (Path.segments name) = .ok place) :
      place = here ++ Path.names name :=
    walk_down (fun segment hs hup => up (hup ▸ hs)) hw
  obtain ⟨-, nul, hw⟩ := of_locate h
  unfold Path.orHere
  by_cases hne : directory = []
  · subst hne
    have single : Path.join [] name = name := by simp [Path.join]
    rw [single, origin, relative, if_neg (by simp)] at hw
    obtain ⟨segment, segments, hs⟩ := List.exists_cons_of_ne_nil (Path.segments_ne_nil name)
    rw [if_pos rfl]
    exact ⟨fs.working, Search.locate_dot (hs ▸ hw), down hw⟩
  · have parts : '\x00' ∉ directory ∧ '\x00' ∉ name := by
      rw [Path.join_eq_of_relative hne relative] at nul
      split at nul <;> simp at nul <;> exact nul
    rw [locate_join_of_relative hne parts.1 relative parts.2] at h
    obtain ⟨here, hl, hw⟩ := bind_eq_ok_iff.1 h
    rw [if_neg hne]
    exact ⟨here, hl, down hw⟩

/-- The path of a child leads to the entry of that name in the directory. -/
theorem locate_child (hname : Path.IsName name) (slash : '/' ∉ name)
    (h : fs.locate (Path.join directory name) = .ok place) :
    ∃ here, fs.locate (Path.orHere directory) = .ok here ∧ place = here ++ [name] := by
  have single : Path.segments name = [name] := Path.segments_eq_singleton slash
  have up : ['.', '.'] ∉ Path.segments name := by
    rw [single, List.mem_singleton]
    exact Ne.symm hname.2.2
  obtain ⟨here, hl, hp⟩ := locate_below (Path.isAbsolute_of_slash slash) up h
  rw [Path.names, single, List.filter_cons, if_pos (decide_eq_true hname), List.filter_nil] at hp
  exact ⟨here, hl, hp⟩

end FileSystem

end DeclGen
