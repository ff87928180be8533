import DeclGen.File.Search
import DeclGen.Proofs.Outcome
import DeclGen.Proofs.Text

/-!
# Where paths lead

* `Entry.find?_append` : looking up names one after the other;
* `Path.segments_join_of_relative`, `Path.segments_join` : the segments of a joined path;
* `Path.IsName`, `Path.names` : the segments that are names;
* `FileSystem.walk_append`, `FileSystem.locate_join` : a path leads on from where its start leads;
* `FileSystem.IsFileName` : the names that files may have; `FileSystem.walk_names`,
  `FileSystem.walk_down` : they lead down the tree;
* `FileSystem.entry_eq_ok_iff`, `FileSystem.isDirectory_iff`, `FileSystem.isFile_iff` : the entry of a path.
-/

namespace DeclGen

namespace Entry

theorem find?_cons (e : Entry) (name : Text) (names : List Text) :
    e.find? (name :: names) = (e.children.lookup name).bind (·.find? names) := by
  rw [find?]
  cases e.children.lookup name <;> rfl

theorem eq_file_of_find? {content : Content} {names : List Text} {d : Entry}
    (h : (file content).find? names = some d) : names = [] ∧ d = file content := by
  cases names with
  | nil => exact ⟨rfl, (Option.some.inj h).symm⟩
  | cons name names =>
    rw [find?_cons] at h
    exact absurd h (by simp [children])

theorem find?_append (names names' : List Text) :
    ∀ e : Entry, e.find? (names ++ names') = (e.find? names).bind (·.find? names') := by
  induction names with
  | nil => exact fun _ => rfl
  | cons name names ih =>
    intro e
    rw [List.cons_append, find?_cons, find?_cons]
    cases e.children.lookup name with
    | none => rfl
    | some child => exact ih child

end Entry

/-! ## Paths -/

namespace Path
variable {path name : Text}

theorem isAbsolute_of_slash (slash : '/' ∉ name) : isAbsolute name = false := by
  cases name with
  | nil => rfl
  | cons c name =>
    have first : c ≠ '/' := fun h => slash (h ▸ List.mem_cons_self)
    exact decide_eq_false fun h => first (Option.some.inj h)

theorem join_eq_of_relative (hne : path ≠ []) (relative : isAbsolute name = false) :
    join path name = if path.getLast? = some '/' then path ++ name else path ++ '/' :: name := by
  rw [join, relative]
  simp [hne]

theorem join_eq (hne : path ≠ []) (slash : '/' ∉ name) :
    join path name = if path.getLast? = some '/' then path ++ name else path ++ '/' :: name :=
  join_eq_of_relative hne (isAbsolute_of_slash slash)

theorem segments_ne_nil (path : Text) : segments path ≠ [] := Text.split_ne_nil _ _

theorem segments_eq_singleton (slash : '/' ∉ name) : segments name = [name] :=
  Text.split_of_notMem slash

/-- A joined path has the segments of the path, except an empty one at its end, and the new ones. -/
theorem segments_join_of_relative (hne : path ≠ []) :
    ∃ front, (segments path = front ++ [[]] ∨ segments path = front) ∧
      ∀ name, isAbsolute name = false → segments (join path name) = front ++ segments name := by
  have cut (s t : Text) : segments (s ++ '/' :: t) = segments s ++ segments t :=
    Text.split_append_cons (decide_eq_true rfl) s t
  by_cases last : path.getLast? = some '/'
  · obtain ⟨front, rfl⟩ := List.getLast?_eq_some_iff.1 last
    refine ⟨segments front, Or.inl (cut front []), fun name relative => ?_⟩
    rw [join_eq_of_relative hne relative, if_pos last, List.append_assoc, List.singleton_append, cut]
  · refine ⟨segments path, Or.inr rfl, fun name relative => ?_⟩
    rw [join_eq_of_relative hne relative, if_neg last, cut]

theorem segments_join (hne : path ≠ []) : ∃ front, (segments path = front ++ [[]] ∨ segments path = front) ∧
    ∀ name, '/' ∉ name → segments (join path name) = front ++ [name] := by
  obtain ⟨front, hp, hj⟩ := segments_join_of_relative hne
  refine ⟨front, hp, fun name slash => ?_⟩
  rw [hj name (isAbsolute_of_slash slash), segments_eq_singleton slash]

theorem mem_join (hne : path ≠ []) (relative : isAbsolute name = false) {c : Char}
    (h : c ∈ join path name) : c ∈ path ∨ c = '/' ∨ c ∈ name := by
  rw [join_eq_of_relative hne relative] at h
  split at h
  · exact (List.mem_append.1 h).imp_right Or.inr
  · exact (List.mem_append.1 h).imp_right List.mem_cons.1

/-- A segment that is a name. -/
def IsName (segment : Text) : Prop := segment ≠ [] ∧ segment ≠ ['.'] ∧ segment ≠ ['.', '.']

instance : DecidablePred IsName := fun segment =>
  inferInstanceAs (Decidable (segment ≠ [] ∧ segment ≠ ['.'] ∧ segment ≠ ['.', '.']))

/-- The names among the segments. -/
def names (path : Text) : List Text := (segments path).filter IsName

end Path

namespace FileSystem
variable {root : Entry} {fs : FileSystem} {path name : Text} {here : List Text}

theorem walk_append (segments segments' : List Text) :
    ∀ here, walk root here (segments ++ segments') =
      walk root here segments >>= fun here => walk root here segments' := by
  induction segments with
  | nil => exact fun _ => rfl
  | cons segment segments ih =>
    intro here
    rw [List.cons_append, walk, walk]
    cases root.find? here with
    | none => rfl
    | some e =>
      cases e with
      | file content => rfl
      | directory children =>
        simp only [ih]
        split
        · rfl
        · split
          · rfl
          · split
            · rfl
            · split <;> rfl

/-- A segment that means nothing asks for no more than the segment behind it. -/
theorem walk_skip {skip : Text} (h : skip = [] ∨ skip = ['.']) (segment : Text) (segments : List Text) :
    walk root here (skip :: segment :: segments) = walk root here (segment :: segments) := by
  have none : (skip = [] || skip = ['.']) = true := by simpa using h
  rw [walk, none]
  cases hf : root.find? here with
  | none => rw [walk, hf]
  | some e =>
    cases e with
    | file content => rw [walk, hf]
    | directory children => rfl

theorem exists_directory_of_walk {segment : Text} {segments here' : List Text}
    (h : walk root here (segment :: segments) = .ok here') :
    ∃ children, root.find? here = some (.directory children) := by
  rw [walk] at h
  split at h
  · exact absurd h (by simp)
  · exact absurd h (by simp)
  · next children hf => exact ⟨children, hf⟩

theorem walk_here {children : List (Text × Entry)} {skip : Text} (h : skip = [] ∨ skip = ['.'])
    (hf : root.find? here = some (.directory children)) : walk root here [skip] = .ok here := by
  have none : (skip = [] || skip = ['.']) = true := by simpa using h
  rw [walk, hf]
  simp only [none, if_true]
  rfl

theorem locate_eq (hne : path ≠ []) (nul : '\x00' ∉ path) :
    fs.locate path = walk fs.root (fs.origin path) (Path.segments path) := by
  rw [locate, if_neg hne, if_neg nul]

theorem of_locate (h : fs.locate path = .ok here) :
    path ≠ [] ∧ '\x00' ∉ path ∧ walk fs.root (fs.origin path) (Path.segments path) = .ok here := by
  rw [locate] at h
  split at h
  · exact absurd h (by simp)
  · next hne =>
    split at h
    · exact absurd h (by simp)
    · next nul => exact ⟨hne, nul, h⟩

theorem join_ne_nil (hne : path ≠ []) (relative : Path.isAbsolute name = false) :
    Path.join path name ≠ [] := by
  rw [Path.join_eq_of_relative hne relative]
  split <;> simp [hne]

theorem origin_join (hne : path ≠ []) (relative : Path.isAbsolute name = false) :
    fs.origin (Path.join path name) = fs.origin path := by
  have first : (Path.join path name).head? = path.head? := by
    obtain ⟨c, path, rfl⟩ := List.exists_cons_of_ne_nil hne
    rw [Path.join_eq_of_relative hne relative]
    split <;> rfl
  rw [origin, origin, Path.isAbsolute, Path.isAbsolute, first]

/-- A relative path leads on from where the path before it leads. -/
theorem locate_join_of_relative (hne : path ≠ []) (nul : '\x00' ∉ path)
    (relative : Path.isAbsolute name = false) (nul' : '\x00' ∉ name) :
    fs.locate (Path.join path name) =
      fs.locate path >>= fun here => walk fs.root here (Path.segments name) := by
  have nul'' : '\x00' ∉ Path.join path name := by
    intro h
    rcases Path.mem_join hne relative h with h | h | h
    · exact nul h
    · exact absurd h (by decide)
    · exact nul' h
  rw [locate_eq (join_ne_nil hne relative) nul'', locate_eq hne nul, origin_join hne relative, ← walk_append]
  obtain ⟨front, hp, hj⟩ := Path.segments_join_of_relative hne
  obtain ⟨segment, segments, hs⟩ := List.exists_cons_of_ne_nil (Path.segments_ne_nil name)
  rcases hp with hp | hp
  · rw [hp, hj name relative, hs, List.append_assoc, walk_append, walk_append]
    simp only [List.singleton_append, walk_skip (Or.inl rfl)]
  · rw [hp, hj name relative]

/-- A name leads from where the path before it leads. -/
theorem locate_join (hne : path ≠ []) (nul : '\x00' ∉ path) (slash : '/' ∉ name) (nul' : '\x00' ∉ name) :
    fs.locate (Path.join path name) = fs.locate path >>= fun here => walk fs.root here [name] := by
  rw [locate_join_of_relative hne nul (Path.isAbsolute_of_slash slash) nul', Path.segments_eq_singleton slash]

/-! ## Names -/

/-- A text that a file or a directory may have for its name. -/
structure IsFileName (name : Text) : Prop where
  ne_nil : name ≠ []
  ne_here : name ≠ ['.']
  ne_above : name ≠ ['.', '.']
  slash : '/' ∉ name
  nul : '\x00' ∉ name
  size : Text.size name ≤ maxNameSize

instance (name : Text) : Decidable (IsFileName name) :=
  decidable_of_iff (name ≠ [] ∧ name ≠ ['.'] ∧ name ≠ ['.', '.'] ∧ '/' ∉ name ∧ '\x00' ∉ name ∧
      Text.size name ≤ maxNameSize)
    ⟨fun ⟨a, b, c, d, e, f⟩ => ⟨a, b, c, d, e, f⟩, fun h => ⟨h.1, h.2, h.3, h.4, h.5, h.6⟩⟩

theorem walk_name {children : List (Text × Entry)} (hf : root.find? here = some (.directory children))
    (h : Path.IsName name) (segments : List Text) :
    walk root here (name :: segments) =
      if maxNameSize < Text.size name then .error .nameTooLong
      else if (children.lookup name).isSome then walk root (here ++ [name]) segments
      else .error .notFound := by
  rw [walk, hf]
  simp only [h.1, h.2.1, h.2.2, decide_false, Bool.or_self, Bool.false_eq_true, if_false]

/-- Names lead down the tree. -/
theorem walk_names {names : List Text} (h : ∀ name ∈ names, IsFileName name) :
    ∀ {here : List Text} {e : Entry}, root.find? (here ++ names) = some e →
      walk root here names = .ok (here ++ names) := by
  induction names with
  | nil =>
    intro here e _
    rw [List.append_nil]
    rfl
  | cons name names ih =>
    intro here e hf
    rw [List.forall_mem_cons] at h
    have more : root.find? ((here ++ [name]) ++ names) = some e := by
      rwa [List.append_assoc, List.singleton_append]
    rw [Entry.find?_append, Option.bind_eq_some_iff] at hf
    obtain ⟨d, hd, hf⟩ := hf
    rw [Entry.find?_cons, Option.bind_eq_some_iff] at hf
    obtain ⟨child, hchild, -⟩ := hf
    cases d with
    | file content => exact absurd hchild (by simp [Entry.children])
    | directory children =>
      have there : (children.lookup name).isSome = true := by
        rw [show children.lookup name = some child from hchild]
        rfl
      rw [walk_name hd ⟨h.1.ne_nil, h.1.ne_here, h.1.ne_above⟩, if_neg (Nat.not_lt.2 h.1.size),
        if_pos there, ih h.2 more, List.append_assoc, List.singleton_append]

/-- Where a segment leads there is an entry, unless it leads up. -/
theorem exists_entry_of_walk {here' : List Text} (h : walk root here [name] = .ok here')
    (habove : name ≠ ['.', '.']) : ∃ e, root.find? here' = some e := by
  obtain ⟨children, hd⟩ := exists_directory_of_walk h
  by_cases skip : name = [] ∨ name = ['.']
  · obtain rfl := Except.ok.inj ((walk_here skip hd).symm.trans h)
    exact ⟨_, hd⟩
  · rw [not_or] at skip
    rw [walk_name hd ⟨skip.1, skip.2, habove⟩] at h
    split at h
    · exact absurd h (by simp)
    · split at h
      · next there =>
        obtain rfl := Except.ok.inj h
        obtain ⟨e, he⟩ := Option.isSome_iff_exists.1 there
        refine ⟨e, ?_⟩
        rw [Entry.find?_append, hd]
        show Entry.find? (.directory children) [name] = some e
        rw [Entry.find?_cons]
        show (children.lookup name).bind _ = some e
        rw [he]
        rfl
      · exact absurd h (by simp)

/-- Where segments lead that do not lead up: down the names among them. -/
theorem walk_down {segments : List Text} (h : ∀ segment ∈ segments, segment ≠ ['.', '.']) :
    ∀ {here here' : List Text}, walk root here segments = .ok here' →
      here' = here ++ segments.filter Path.IsName := by
  induction segments with
  | nil =>
    intro here here' hw
    rw [List.filter_nil, List.append_nil]
    exact (Except.ok.inj hw).symm
  | cons segment segments ih =>
    intro here here' hw
    rw [List.forall_mem_cons] at h
    obtain ⟨children, hd⟩ := exists_directory_of_walk hw
    by_cases hname : Path.IsName segment
    · rw [walk_name hd hname] at hw
      rw [List.filter_cons, if_pos (decide_eq_true hname), List.append_cons]
      split at hw
      · exact absurd hw (by simp)
      · split at hw
        · exact ih h.2 hw
        · exact absurd hw (by simp)
    · have skip : segment = [] ∨ segment = ['.'] := by
        refine Classical.byContradiction fun special => ?_
        rw [not_or] at special
        exact hname ⟨special.1, special.2, h.1⟩
      rw [List.filter_cons, if_neg (by simpa using hname)]
      refine ih h.2 ?_
      rwa [← List.singleton_append, walk_append, walk_here skip hd] at hw

/-- Where names lead is below. -/
theorem eq_append_of_walk {names : List Text} (h : ∀ name ∈ names, Path.IsName name) {here' : List Text}
    (hw : walk root here names = .ok here') : here' = here ++ names := by
  have all : names.filter Path.IsName = names :=
    List.filter_eq_self.2 fun name hn => decide_eq_true (h name hn)
  rw [walk_down (fun name hn => (h name hn).2.2) hw, all]

theorem locate_foldl_join {names : List Text} (slash : ∀ name ∈ names, '/' ∉ name)
    (nul : ∀ name ∈ names, '\x00' ∉ name) :
    ∀ {path : Text}, path ≠ [] → '\x00' ∉ path →
      fs.locate (names.foldl Path.join path) =
        fs.locate path >>= fun here => walk fs.root here names := by
  induction names with
  | nil =>
    intro path _ _
    show fs.locate path = fs.locate path >>= fun here => .ok here
    cases fs.locate path <;> rfl
  | cons name names ih =>
    intro path hne hnul
    rw [List.forall_mem_cons] at slash nul
    have nul' : '\x00' ∉ Path.join path name := by
      intro h
      rcases Path.mem_join hne (Path.isAbsolute_of_slash slash.1) h with h | h | h
      · exact hnul h
      · exact absurd h (by decide)
      · exact nul.1 h
    rw [List.foldl_cons, ih slash.2 nul.2 (join_ne_nil hne (Path.isAbsolute_of_slash slash.1)) nul',
      locate_join hne hnul slash.1 nul.1]
    cases fs.locate path with
    | error error => rfl
    | ok here =>
      show walk fs.root here [name] >>= _ = walk fs.root here ([name] ++ names)
      rw [walk_append]

theorem entry_eq_ok_iff {e : Entry} :
    fs.entry path = .ok e ↔ ∃ here, fs.locate path = .ok here ∧ fs.root.find? here = some e := by
  unfold entry
  rw [bind_eq_ok_iff]
  refine exists_congr fun here => and_congr_right fun _ => ?_
  cases fs.root.find? here <;> simp

theorem isDirectory_iff : fs.isDirectory path = true ↔ ∃ e, fs.entry path = .ok e ∧ e.isDirectory = true := by
  unfold isDirectory
  cases fs.entry path <;> simp [Except.toOption]

theorem isFile_iff : fs.isFile path = true ↔ ∃ content, fs.entry path = .ok (.file content) := by
  unfold isFile
  cases fs.entry path with
  | error error => exact iff_of_false (by simp [Except.toOption]) (by simp)
  | ok e =>
    cases e with
    | file content => exact iff_of_true rfl ⟨content, rfl⟩
    | directory children => exact iff_of_false (by simp [Except.toOption, Entry.isDirectory]) (by simp)

end FileSystem
end DeclGen
