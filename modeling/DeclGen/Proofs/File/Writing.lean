import DeclGen.Proofs.File.Walk

/-!
# What writing changes

Writing a file and creating a directory put a leaf into the tree of entries. Everything else stays where
it is, so paths lead on where they led before, and a file that was written is found under its path.

* `Entry.view`, `Entry.view_put` : what stands where names lead, and what a leaf changes of it;
* `Entry.Grows` : nothing is lost, and nothing changes its kind; `FileSystem.walk_grows`,
  `FileSystem.Grows.locate` : paths lead on;
* `Entry.contentAt`, `FileSystem.readText_eq_ok_iff` : the files;
* `FileSystem.Wrote`, `FileSystem.exists_wrote` : what writing a file does;
* `FileSystem.writeAll_spec`, `FileSystem.readText_of_writeAll` : what writing many files does;
* `FileSystem.createDirectories_spec` : creating directories keeps all files.
-/

namespace DeclGen

namespace Entry

/-! ## What stands where names lead -/

/-- The content of a file; a directory has none. -/
def content? : Entry → Option Content
  | file content => some content
  | directory _ => none

/-- What stands where the names lead: nothing, a directory, or a file with its content. -/
def view (e : Entry) (names : List Text) : Option (Option Content) := (e.find? names).map content?

/-- The content of the file to which the names lead. -/
def contentAt (e : Entry) (names : List Text) : Option Content := (e.view names).join

theorem contentAt_eq_some_iff {e : Entry} {names : List Text} {content : Content} :
    e.contentAt names = some content ↔ e.find? names = some (file content) := by
  rw [contentAt, view]
  cases e.find? names with
  | none => simp
  | some d => cases d <;> simp [content?]

theorem view_nil (e : Entry) : e.view [] = some e.content? := rfl

theorem view_cons (e : Entry) (name : Text) (names : List Text) :
    e.view (name :: names) = (e.children.lookup name).bind (·.view names) := by
  rw [view, find?_cons]
  cases e.children.lookup name <;> rfl

theorem view_of_leaf {e : Entry} (h : e.children = []) (name : Text) (names : List Text) :
    e.view (name :: names) = none := by
  rw [view_cons, h]
  rfl

theorem content?_eq_none_iff {e : Entry} : e.content? = none ↔ ∃ children, e = directory children := by
  cases e with
  | file content => simp [content?]
  | directory children => simp [content?]

theorem view_eq_directory_iff {e : Entry} {names : List Text} :
    e.view names = some none ↔ ∃ children, e.find? names = some (directory children) := by
  rw [view, Option.map_eq_some_iff]
  constructor
  · rintro ⟨d, hd, hc⟩
    obtain ⟨children, rfl⟩ := content?_eq_none_iff.1 hc
    exact ⟨children, hd⟩
  · rintro ⟨children, hd⟩
    exact ⟨_, hd, rfl⟩

theorem view_append_singleton {e : Entry} {here : List Text} {children : List (Text × Entry)}
    (h : e.find? here = some (directory children)) (name : Text) :
    e.view (here ++ [name]) = (children.lookup name).map content? := by
  rw [view, find?_append, h, Option.bind_some, find?_cons]
  show Option.map content? ((children.lookup name).bind _) = _
  cases children.lookup name <;> rfl

/-- A leaf changes nothing but what stands in its own place, if a leaf or nothing stood there. -/
theorem view_put {new : Entry} (hnew : new.children = []) {name : Text} {children : List (Text × Entry)}
    (hold : ∀ child, children.lookup name = some child → child.children = []) {here : List Text} :
    ∀ {e : Entry}, e.find? here = some (directory children) → ∀ names,
      (put new (here ++ [name]) e).view names =
        if names = here ++ [name] then some new.content? else e.view names := by
  induction here with
  | nil =>
    intro e he names
    obtain rfl : e = directory children := Option.some.inj he
    cases names with
    | nil => rfl
    | cons n names =>
      show Entry.view (directory (putChild name new children)) (n :: names) = _
      rw [view_cons, view_cons]
      show ((putChild name new children).lookup n).bind _ = _
      rw [lookup_putChild]
      by_cases hn : n = name
      · subst hn
        rw [if_pos rfl]
        cases names with
        | nil => simp [view_nil]
        | cons m names =>
          have below : (children.lookup n).bind (·.view (m :: names)) = none := by
            rw [Option.bind_eq_none_iff]
            exact fun child hc => view_of_leaf (hold child hc) m names
          rw [Option.bind_some, view_of_leaf hnew, if_neg (by simp)]
          exact below.symm
      · simp [hn, Entry.children]
  | cons h here ih =>
    intro e he names
    rw [find?_cons, Option.bind_eq_some_iff] at he
    obtain ⟨child, hc, he⟩ := he
    cases names with
    | nil =>
      cases e with
      | file content => exact absurd hc (by simp [Entry.children])
      | directory others => rfl
    | cons n names =>
      show Entry.view (directory (putChild h (put new (here ++ [name])
        ((e.children.lookup h).getD empty)) e.children)) (n :: names) = _
      rw [view_cons, view_cons]
      show ((putChild h _ e.children).lookup n).bind _ = _
      rw [lookup_putChild, hc]
      by_cases hn : n = h
      · subst hn
        rw [if_pos rfl, hc]
        simp only [Option.bind_some, Option.getD_some, ih he, List.cons_append, List.cons.injEq, true_and]
      · simp [hn]

/-! ## Growing trees -/

/-- Whatever stands in the first tree stands in the second one, too: directories as directories, files
as files. -/
def Grows (root root' : Entry) : Prop :=
  ∀ names v, root.view names = some v → ∃ v', root'.view names = some v' ∧ v'.isSome = v.isSome

theorem Grows.refl (root : Entry) : root.Grows root := fun _ v h => ⟨v, h, rfl⟩

theorem Grows.trans {root root' root'' : Entry} (h : root.Grows root') (h' : root'.Grows root'') :
    root.Grows root'' := by
  intro names v hv
  obtain ⟨v', hv', hkind⟩ := h names v hv
  obtain ⟨v'', hv'', hkind'⟩ := h' names v' hv'
  exact ⟨v'', hv'', hkind'.trans hkind⟩

/-- A tree grows if it changes in one place, where nothing stood or something of the same kind. -/
theorem grows_of_view {root root' : Entry} {place : List Text} {new : Option Content}
    (h : ∀ names, root'.view names = if names = place then some new else root.view names)
    (hold : ∀ v, root.view place = some v → new.isSome = v.isSome) : root.Grows root' := by
  intro names v hv
  by_cases hn : names = place
  · exact ⟨new, by rw [h, if_pos hn], hold v (hn ▸ hv)⟩
  · exact ⟨v, by rw [h, if_neg hn, hv], rfl⟩

theorem Grows.directory {root root' : Entry} (h : root.Grows root') {here : List Text}
    {children : List (Text × Entry)} (hd : root.find? here = some (directory children)) :
    ∃ children', root'.find? here = some (.directory children') := by
  obtain ⟨v, hv, hkind⟩ := h here none (view_eq_directory_iff.2 ⟨children, hd⟩)
  obtain rfl : v = none := by simpa using hkind
  exact view_eq_directory_iff.1 hv

end Entry

namespace FileSystem
variable {root root' : Entry} {fs fs' : FileSystem} {path t : Text}

/-- In a tree that grew, segments lead where they led before. -/
theorem walk_grows (h : root.Grows root') {segments : List Text} :
    ∀ {here here' : List Text}, walk root here segments = .ok here' →
      walk root' here segments = .ok here' := by
  induction segments with
  | nil => exact fun hw => hw
  | cons segment segments ih =>
    intro here here' hw
    obtain ⟨children, hd⟩ := exists_directory_of_walk hw
    obtain ⟨children', hd'⟩ := h.directory hd
    have there : (children.lookup segment).isSome → (children'.lookup segment).isSome := by
      intro hs
      obtain ⟨v, hv⟩ := Option.isSome_iff_exists.1 (by
        rw [Entry.view_append_singleton hd, Option.isSome_map]
        exact hs : (root.view (here ++ [segment])).isSome)
      obtain ⟨v', hv', -⟩ := h _ v hv
      rw [Entry.view_append_singleton hd'] at hv'
      simpa using congrArg Option.isSome hv'
    rw [walk, hd] at hw
    rw [walk, hd']
    grind

/-- The file system has all that the other one has. -/
structure Grows (fs fs' : FileSystem) : Prop where
  working : fs'.working = fs.working
  root : fs.root.Grows fs'.root

theorem Grows.refl (fs : FileSystem) : fs.Grows fs := ⟨rfl, .refl _⟩

theorem Grows.trans {fs'' : FileSystem} (h : fs.Grows fs') (h' : fs'.Grows fs'') : fs.Grows fs'' :=
  ⟨h'.working.trans h.working, h.root.trans h'.root⟩

theorem Grows.origin (h : fs.Grows fs') (path : Text) : fs'.origin path = fs.origin path := by
  rw [FileSystem.origin, FileSystem.origin, h.working]

theorem Grows.locate (h : fs.Grows fs') {here : List Text} (hl : fs.locate path = .ok here) :
    fs'.locate path = .ok here := by
  obtain ⟨hne, nul, hw⟩ := of_locate hl
  rw [locate_eq hne nul, h.origin]
  exact walk_grows h.root hw

theorem readText_eq_ok_iff_entry : fs.readText path = .ok t ↔ fs.entry path = .ok (.file (.text t)) := by
  unfold readText
  rw [bind_eq_ok_iff]
  constructor
  · rintro ⟨e, he, hc⟩
    rw [he]
    match e with
    | .file (.text s) => rw [Except.ok.inj hc]
    | .file .binary => exact absurd hc (by simp)
    | .directory children => exact absurd hc (by simp)
  · exact fun h => ⟨_, h, rfl⟩

theorem readText_eq_ok_iff : fs.readText path = .ok t ↔
    ∃ place, fs.locate path = .ok place ∧ fs.root.contentAt place = some (.text t) := by
  simp only [readText_eq_ok_iff_entry, entry_eq_ok_iff, Entry.contentAt_eq_some_iff]

/-! ## Slots -/

theorem all_parent_iff {segment : Text} :
    (Path.Component.ofSegment? segment).all (· = .parent) = false ↔ Path.IsName segment := by
  unfold Path.Component.ofSegment? Path.IsName
  by_cases h₀ : segment = [] <;> by_cases h₁ : segment = ['.'] <;>
    by_cases h₂ : segment = ['.', '.'] <;> simp [h₀, h₁, h₂]

theorem of_slot {special : FileError} {before : List Text} {last : Text} {s : Slot}
    (h : fs.slot special path before last = .ok s) :
    '\x00' ∉ path ∧ walk fs.root (fs.origin path) before = .ok s.here ∧
      fs.root.find? s.here = some (.directory s.children) ∧ s.name = last ∧
      Path.IsName last ∧ Text.size last ≤ maxNameSize := by
  by_cases nul : '\x00' ∈ path
  · simp [slot, nul] at h
  · simp only [slot, nul, if_false] at h
    obtain ⟨here, hw, h⟩ := bind_eq_ok_iff.1 h
    split at h
    · exact absurd h (by simp)
    · exact absurd h (by simp)
    · next children hd =>
      split at h
      · exact absurd h (by simp)
      · next special =>
        split at h
        · exact absurd h (by simp)
        · next size =>
          obtain rfl := Except.ok.inj h
          exact ⟨nul, hw, hd, rfl, all_parent_iff.1 (Bool.eq_false_iff.2 special), Nat.le_of_not_lt size⟩

/-! ## Writing -/

/-- The file of a path is written, and stands at `place`. -/
structure Wrote (fs : FileSystem) (path t : Text) (place : List Text) (fs' : FileSystem) : Prop where
  locate : fs'.locate path = .ok place
  grows : fs.Grows fs'
  view : ∀ names, fs'.root.view names =
    if names = place then some (some (.text t)) else fs.root.view names

theorem Wrote.contentAt {place : List Text} (h : fs.Wrote path t place fs') (names : List Text) :
    fs'.root.contentAt names = if names = place then some (.text t) else fs.root.contentAt names := by
  rw [Entry.contentAt, h.view]
  split <;> rfl

/-- What writing a file does. -/
theorem exists_wrote (h : fs.writeText path t = .ok fs') : ∃ place, fs.Wrote path t place fs' := by
  unfold writeText at h
  split at h
  · exact absurd h (by simp)
  · next hne =>
    obtain ⟨s, hs, h⟩ := bind_eq_ok_iff.1 h
    obtain ⟨nul, hw, hd, hname, special, size⟩ := of_slot hs
    have leaf : ∀ child, s.children.lookup s.name = some child → child.children = [] := by
      intro child hc
      cases child with
      | file content => rfl
      | directory children => simp [hc] at h
    obtain rfl : fs.fill s (.file (.text t)) = fs' := by
      split at h
      · exact absurd h (by simp)
      · exact Except.ok.inj h
    have hview : ∀ names, (fs.fill s (.file (.text t))).root.view names =
        if names = s.here ++ [s.name] then some (some (.text t)) else fs.root.view names :=
      Entry.view_put rfl leaf hd
    have grows : fs.Grows (fs.fill s (.file (.text t))) := by
      refine ⟨rfl, Entry.grows_of_view hview fun v hv => ?_⟩
      rw [Entry.view_append_singleton hd, Option.map_eq_some_iff] at hv
      obtain ⟨child, hc, rfl⟩ := hv
      cases child with
      | file content => rfl
      | directory children => simp [hc] at h
    refine ⟨s.here ++ [s.name], ?_, grows, hview⟩
    have segments : Path.segments path = (Path.segments path).dropLast ++ [s.name] := by
      have some : Path.segments path ≠ [] := Text.split_ne_nil _ path
      rw [hname, List.getLastD_eq_getLast?, List.getLast?_eq_some_getLast some, Option.getD_some,
        List.dropLast_concat_getLast some]
    rw [locate_eq hne nul, grows.origin, segments, walk_append, walk_grows grows.root hw, ok_bind]
    obtain ⟨children, hd'⟩ := grows.root.directory hd
    rw [walk_name hd' (hname ▸ special), if_neg (Nat.not_lt.2 (hname ▸ size)), if_pos]
    · rfl
    · have there := hview (s.here ++ [s.name])
      rw [Entry.view_append_singleton hd', if_pos rfl] at there
      simpa using congrArg Option.isSome there

/-! ## Writing many files -/

/-- Writes texts under paths, one after the other, as long as nothing fails. -/
def writeAll (fs : FileSystem) (files : List (Text × Text)) : Except FileError FileSystem :=
  files.foldlM (fun fs f => fs.writeText f.1 f.2) fs

theorem writeAll_cons {f : Text × Text} {files : List (Text × Text)} :
    fs.writeAll (f :: files) = fs.writeText f.1 f.2 >>= fun fs => fs.writeAll files := by
  rw [writeAll, List.foldlM_cons]
  rfl

theorem writeAll_append_singleton {f : Text × Text} {files : List (Text × Text)}
    (h : fs.writeAll files = .ok fs') : fs.writeAll (files ++ [f]) = fs'.writeText f.1 f.2 := by
  rw [writeAll] at h ⊢
  rw [List.foldlM_append, h, ok_bind, List.foldlM_cons]
  cases fs'.writeText f.1 f.2 <;> rfl

section Many
variable {files : List (Text × Text)}

/-- Writing files loses nothing, and changes no others. -/
theorem writeAll_spec : ∀ {fs : FileSystem}, fs.writeAll files = .ok fs' → fs.Grows fs' ∧
    (∀ f ∈ files, ∃ place, fs'.locate f.1 = .ok place) ∧
    ∀ names, fs'.root.contentAt names ≠ fs.root.contentAt names →
      ∃ f ∈ files, fs'.locate f.1 = .ok names := by
  induction files with
  | nil =>
    intro fs h
    obtain rfl := Except.ok.inj h
    exact ⟨.refl _, by simp, fun _ h => absurd rfl h⟩
  | cons f files ih =>
    intro fs h
    obtain ⟨fs₁, hw, h⟩ := bind_eq_ok_iff.1 (writeAll_cons ▸ h)
    obtain ⟨place, wrote⟩ := exists_wrote hw
    obtain ⟨grows, located, frame⟩ := ih h
    have there : fs'.locate f.1 = .ok place := grows.locate wrote.locate
    refine ⟨wrote.grows.trans grows, ?_, fun names hn => ?_⟩
    · rw [List.forall_mem_cons]
      exact ⟨⟨place, there⟩, located⟩
    · by_cases later : fs'.root.contentAt names = fs₁.root.contentAt names
      · rw [later, wrote.contentAt] at hn
        split at hn
        · next here =>
          obtain rfl := here
          exact ⟨f, List.mem_cons_self, there⟩
        · exact absurd rfl hn
      · obtain ⟨g, hg, hl⟩ := frame names later
        exact ⟨g, List.mem_cons_of_mem _ hg, hl⟩

/-- Files whose paths lead to different places are found as they were written. -/
theorem readText_of_writeAll : ∀ {fs : FileSystem}, fs.writeAll files = .ok fs' →
    files.Pairwise (fun f g => ∀ place, fs'.locate f.1 = .ok place → fs'.locate g.1 ≠ .ok place) →
      ∀ f ∈ files, fs'.readText f.1 = .ok f.2 := by
  induction files with
  | nil => simp
  | cons f files ih =>
    intro fs h apart
    rw [List.pairwise_cons] at apart
    obtain ⟨fs₁, hw, h⟩ := bind_eq_ok_iff.1 (writeAll_cons ▸ h)
    rw [List.forall_mem_cons]
    refine ⟨?_, ih h apart.2⟩
    obtain ⟨place, wrote⟩ := exists_wrote hw
    obtain ⟨grows, -, frame⟩ := writeAll_spec h
    have there : fs'.locate f.1 = .ok place := grows.locate wrote.locate
    refine readText_eq_ok_iff.2 ⟨place, there, ?_⟩
    -- No later file stands in the place of this one.
    have kept : fs'.root.contentAt place = fs₁.root.contentAt place := by
      refine Classical.byContradiction fun changed => ?_
      obtain ⟨g, hg, hl⟩ := frame place changed
      exact apart.1 g hg place there hl
    rw [kept, wrote.contentAt, if_pos rfl]

end Many

/-! ## Creating directories -/

/-- The file systems have the same files. -/
def SameFiles (fs fs' : FileSystem) : Prop :=
  ∀ names, fs'.root.contentAt names = fs.root.contentAt names

theorem SameFiles.readText (same : fs.SameFiles fs') (grows : fs.Grows fs') (h : fs.readText path = .ok t) :
    fs'.readText path = .ok t := by
  obtain ⟨place, hl, hc⟩ := readText_eq_ok_iff.1 h
  exact readText_eq_ok_iff.2 ⟨place, grows.locate hl, (same place).trans hc⟩

theorem grows_of_createDirectory (h : fs.createDirectory path = .ok fs') :
    fs.Grows fs' ∧ fs.SameFiles fs' := by
  by_cases hne : path = []
  · simp [createDirectory, hne] at h
  · simp only [createDirectory, hne, if_false] at h
    split at h
    · exact absurd h (by simp)
    · next last before _ =>
      obtain ⟨s, hs, h⟩ := bind_eq_ok_iff.1 h
      obtain ⟨-, -, hd, -, -, -⟩ := of_slot hs
      split at h
      · exact absurd h (by simp)
      · next absent =>
        obtain rfl := Except.ok.inj h
        have free : s.children.lookup s.name = none := Option.not_isSome_iff_eq_none.1 absent
        have hview : ∀ names, (fs.fill s .empty).root.view names =
            if names = s.here ++ [s.name] then some none else fs.root.view names :=
          Entry.view_put rfl (fun child hc => by simp [free] at hc) hd
        have nothing : fs.root.view (s.here ++ [s.name]) = none := by
          rw [Entry.view_append_singleton hd, free]
          rfl
        refine ⟨⟨rfl, Entry.grows_of_view hview fun v hv => by simp [nothing] at hv⟩, fun names => ?_⟩
        rw [Entry.contentAt, Entry.contentAt, hview]
        split
        · next hn => rw [hn, nothing]; rfl
        · rfl

theorem createFrom_spec (fuel : Nat) : ∀ (fs : FileSystem) (path : Text),
    fs.Grows (createFrom fuel fs path).1 ∧ fs.SameFiles (createFrom fuel fs path).1 := by
  induction fuel with
  | zero => exact fun fs _ => ⟨.refl fs, fun _ => rfl⟩
  | succ fuel ih =>
    intro fs path
    have same : fs.Grows fs ∧ fs.SameFiles fs := ⟨.refl fs, fun _ => rfl⟩
    rw [createFrom]
    split
    · exact same
    · split
      · next h => exact grows_of_createDirectory h
      · split
        · exact same
        · next above _ =>
          obtain ⟨grows, files⟩ := ih fs above
          split
          · next h =>
            rw [h] at grows files
            exact ⟨grows, files⟩
          · next h =>
            rw [h] at grows files
            split
            · next h' =>
              obtain ⟨grows', files'⟩ := grows_of_createDirectory h'
              exact ⟨grows.trans grows', fun names => (files' names).trans (files names)⟩
            · exact ⟨grows, files⟩
      · exact same

/-- Creating directories loses nothing, and changes no file. -/
theorem createDirectories_spec (fs : FileSystem) (path : Text) :
    fs.Grows (fs.createDirectories path).1 ∧ fs.SameFiles (fs.createDirectories path).1 :=
  createFrom_spec _ fs path

end FileSystem

end DeclGen
