import DeclGen.Proofs.File.Walk

/-!
# What a search finds

A search follows the segments of a path to a directory and lists the documents below it.

* `Search.Denotes` : a path and the directory that it leads to; `Denotes.inside` : the paths of its entries;
* `Search.Lost` : the paths that a search cannot follow; `Search.directory?_eq` : it follows all others;
* `Search.documents` : the documents below an entry, by their names; `Search.mem_documents` : they are the
  entries that look-up finds, `Search.nodup_documents` : each once, `Search.direct_eq` : those in the directory
  itself, `Search.list_eq`, `Search.documentsBelow_eq` : their paths are listed.
-/

namespace DeclGen

/-! ## Paths of the working directory -/

namespace Path
variable {path name : Text}

/-- A path that is not absolute starts with a segment that is not empty. -/
theorem head?_segments (hne : path ≠ []) (relative : isAbsolute path = false) :
    (segments path).head? ≠ some [] := by
  obtain ⟨c, t, rfl⟩ := List.exists_cons_of_ne_nil hne
  have first : c ≠ '/' := by
    rintro rfl
    exact absurd relative (by simp [isAbsolute])
  obtain ⟨piece, pieces, hs⟩ := List.exists_cons_of_ne_nil (Text.split_ne_nil (· = '/') t)
  rw [segments, Text.split, hs, if_neg (by simpa using first)]
  simp

theorem components_ne_nil (hne : path ≠ []) : components path ≠ [] := by
  unfold components leading
  split
  · simp
  · next relative =>
    split
    · simp
    · next dotless =>
      obtain ⟨s, rest, hs⟩ := List.exists_cons_of_ne_nil (segments_ne_nil path)
      have solid := head?_segments hne (Bool.eq_false_iff.2 relative)
      rw [hs, List.head?_cons, ne_eq, Option.some.injEq] at solid
      rw [hs, List.head?_cons, Option.some.injEq] at dotless
      have meant : ∃ c, Component.ofSegment? s = some c := by
        unfold Component.ofSegment?
        rw [if_neg (by simp [solid, dotless])]
        split <;> exact ⟨_, rfl⟩
      obtain ⟨c, hc⟩ := meant
      rw [hs, List.filterMap_cons, hc]
      simp

theorem leading_join (hne : path ≠ []) (relative : isAbsolute name = false) :
    leading (join path name) = leading path := by
  have absolute : isAbsolute (join path name) = isAbsolute path := by
    obtain ⟨c, path, rfl⟩ := List.exists_cons_of_ne_nil hne
    rw [join_eq_of_relative hne relative]
    split <;> rfl
  have first : (segments (join path name)).head? = (segments path).head? := by
    obtain ⟨front, hp, hj⟩ := segments_join_of_relative hne
    have solid : front ≠ [] := by
      rintro rfl
      rcases hp with hp | hp
      · have back := Text.intercalate_split '/' path
        rw [show Text.split (· = '/') path = [[]] from hp] at back
        exact hne back.symm
      · exact segments_ne_nil path hp
    obtain ⟨s, rest, rfl⟩ := List.exists_cons_of_ne_nil solid
    rw [hj name relative]
    rcases hp with hp | hp <;> rw [hp] <;> rfl
  rw [leading, leading, absolute, first]

/-- A joined path has the components of the path, and those of the segments added. -/
theorem components_join_of_relative (hne : path ≠ []) (relative : isAbsolute name = false) :
    components (join path name) = components path ++ (segments name).filterMap Component.ofSegment? := by
  rw [components, components, leading_join hne relative, List.append_assoc]
  obtain ⟨front, hp, hj⟩ := segments_join_of_relative hne
  rw [hj name relative, List.filterMap_append]
  rcases hp with hp | hp
  · have empty : [[]].filterMap Component.ofSegment? = [] := rfl
    rw [hp, List.filterMap_append, empty, List.append_nil]
  · rw [hp]

theorem components_join (hne : path ≠ []) (slash : '/' ∉ name) :
    components (join path name) = components path ++ (Component.ofSegment? name).toList := by
  rw [components_join_of_relative hne (isAbsolute_of_slash slash), segments_eq_singleton slash,
    List.filterMap_cons]
  cases Component.ofSegment? name <;> rfl

end Path

namespace Search
variable {fs : FileSystem} {path name : Text} {here here' : List Text}

theorem eq_dot_of_isHere (slash : '/' ∉ name) (h : isHere name = true) : name = ['.'] := by
  have whole := of_decide_eq_true h
  rw [Path.components, Path.leading, Path.isAbsolute_of_slash slash, Path.segments_eq_singleton slash] at whole
  by_cases dot : name = ['.']
  · exact dot
  · rw [if_neg (by decide), List.head?_cons, if_neg (by simpa using dot), List.nil_append,
      List.filterMap_cons, List.filterMap_nil, Path.Component.ofSegment?] at whole
    split at whole
    · exact absurd whole (by simp)
    · next c hc =>
      obtain rfl := (List.cons.inj whole).1
      split at hc
      · exact absurd hc (by simp)
      · split at hc
        · exact absurd hc (by simp)
        · exact absurd hc (by simp)

theorem isHere_of_join (hne : path ≠ []) (slash : '/' ∉ name) (h : isHere (Path.join path name) = true) :
    isHere path = true := by
  have whole := of_decide_eq_true h
  rw [Path.components_join hne slash] at whole
  refine decide_eq_true ?_
  rcases List.append_eq_singleton_iff.1 whole with ⟨none, -⟩ | ⟨some, -⟩
  · exact absurd none (Path.components_ne_nil hne)
  · exact some

/-- The path leads to `here`; if it means the working directory, it is the dot alone. -/
structure Denotes (fs : FileSystem) (path : Text) (here : List Text) : Prop where
  locate : fs.locate path = .ok here
  dot : isHere path = true → path = ['.']

theorem locate_dot {segment : Text} {segments : List Text}
    (h : FileSystem.walk fs.root fs.working (segment :: segments) = .ok here') :
    fs.locate ['.'] = .ok fs.working := by
  obtain ⟨children, hd⟩ := FileSystem.exists_directory_of_walk h
  exact FileSystem.walk_here (Or.inr rfl) hd

/-- The path of an entry of the directory leads to the entry. -/
theorem Denotes.inside (h : Denotes fs path here) (slash : '/' ∉ name) (nul : '\x00' ∉ name)
    (hne : path = ['.'] → name ≠ []) (hw : FileSystem.walk fs.root here [name] = .ok here') :
    Denotes fs (inside path name) here' := by
  obtain ⟨hpath, hnul, hloc⟩ := FileSystem.of_locate h.locate
  unfold Search.inside
  split
  · next dot =>
    obtain rfl := h.dot dot
    have origin : fs.origin name = fs.working := by
      rw [FileSystem.origin, Path.isAbsolute_of_slash slash]
      rfl
    have start : fs.working = here := by
      obtain ⟨children, hd⟩ := FileSystem.exists_directory_of_walk hloc
      exact Except.ok.inj ((FileSystem.walk_here (Or.inr rfl) hd).symm.trans hloc)
    refine ⟨?_, fun hh => eq_dot_of_isHere slash hh⟩
    rw [FileSystem.locate_eq (hne rfl) nul, origin, Path.segments_eq_singleton slash, start]
    exact hw
  · next other =>
    refine ⟨?_, fun hh => absurd (isHere_of_join hpath slash hh) other⟩
    rw [FileSystem.locate_join hpath hnul slash nul, h.locate]
    exact hw

/-! ## The directory that is listed -/

theorem Denotes.isDirectory (h : Denotes fs path here) {children : List (Text × Entry)}
    (hd : fs.root.find? here = some (.directory children)) : fs.isDirectory path = true := by
  have found : fs.entry path = .ok (.directory children) :=
    FileSystem.entry_eq_ok_iff.2 ⟨here, h.locate, hd⟩
  rw [FileSystem.isDirectory, found]
  rfl

theorem Denotes.contains (h : Denotes fs path here) {e : Entry} (hf : fs.root.find? here = some e) :
    fs.contains path = true := by
  have found : fs.entry path = .ok e := FileSystem.entry_eq_ok_iff.2 ⟨here, h.locate, hf⟩
  rw [FileSystem.contains, found]
  rfl

/-- A path from the working directory whose first segment, dots apart, is empty: such as a dot with a slash
behind it. -/
def Lost (path : Text) : Prop :=
  Path.isAbsolute path = false ∧ ((Path.segments path).dropWhile (· = ['.'])).head? = some []

instance (path : Text) : Decidable (Lost path) := inferInstanceAs (Decidable (_ ∧ _))

/-- From the working directory, an empty segment leads nowhere. -/
theorem follow_lost {segments : List Text} (h : (segments.dropWhile (· = ['.'])).head? = some []) :
    follow fs ['.'] segments = none := by
  induction segments with
  | nil => exact absurd h (by simp)
  | cons segment segments ih =>
    by_cases dot : segment = ['.']
    · subst dot
      rw [follow]
      show (if _ then follow fs ['.'] segments else none) = none
      rw [ih h, ite_self]
    · rw [List.dropWhile_cons_of_neg (by simpa using dot)] at h
      obtain rfl : segment = [] := Option.some.inj h
      rfl

/-- Segments that lead from one directory to another are followed. -/
theorem Denotes.follow {segments : List Text} (slash : ∀ s ∈ segments, '/' ∉ s)
    (nul : ∀ s ∈ segments, '\x00' ∉ s) :
    ∀ {path : Text} {here : List Text}, Denotes fs path here →
      (path = ['.'] → (segments.dropWhile (· = ['.'])).head? ≠ some []) →
      FileSystem.walk fs.root here segments = .ok here' →
      ∃ found, follow fs path segments = some found ∧ Denotes fs found here' := by
  induction segments with
  | nil =>
    intro path here h _ hw
    obtain rfl := Except.ok.inj hw
    exact ⟨path, rfl, h⟩
  | cons segment segments ih =>
    intro path here h kept hw
    rw [List.forall_mem_cons] at slash nul
    obtain ⟨children, hd⟩ := FileSystem.exists_directory_of_walk hw
    have parts := hw
    rw [show segment :: segments = [segment] ++ segments from rfl, FileSystem.walk_append] at parts
    obtain ⟨next, hnext, parts⟩ := bind_eq_ok_iff.1 parts
    have hne : path = ['.'] → segment ≠ [] := fun dot empty => kept dot (by rw [empty]; rfl)
    have step : Denotes fs (Search.inside path segment) next := h.inside slash.1 nul.1 hne hnext
    have kept' : Search.inside path segment = ['.'] → (segments.dropWhile (· = ['.'])).head? ≠ some [] := by
      intro dot
      by_cases hpath : isHere path = true
      · have start := h.dot hpath
        rw [Search.inside, if_pos hpath] at dot
        subst dot
        exact kept start
      · rw [Search.inside, if_neg hpath] at dot
        exact absurd (isHere_of_join (FileSystem.of_locate h.locate).1 slash.1 (by rw [dot]; rfl)) hpath
    have there : (if segment = ['.'] || segment = ['.', '.'] then fs.isDirectory path
        else fs.contains (Search.inside path segment)) = true := by
      split
      · exact h.isDirectory hd
      · next plain =>
        obtain ⟨e, he⟩ := FileSystem.exists_entry_of_walk hnext fun above => plain (by simp [above])
        exact step.contains he
    obtain ⟨found, hfound, hden⟩ := ih slash.2 nul.2 step kept' parts
    refine ⟨found, ?_, hden⟩
    rw [Search.follow]
    show (if (if segment = ['.'] || segment = ['.', '.'] then fs.isDirectory path
      else fs.contains (Search.inside path segment)) = true then _ else none) = some found
    rw [if_pos there, hfound]

/-- The directory of a path is listed, unless the path is lost. -/
theorem directory?_eq (h : fs.locate path = .ok here) :
    (Lost path → directory? fs path = none) ∧
      (¬ Lost path → ∃ found, directory? fs path = some found ∧ Denotes fs found here) := by
  obtain ⟨hne, hnul, hw⟩ := FileSystem.of_locate h
  have slash : ∀ s ∈ Path.segments path, '/' ∉ s := by
    intro s hs hm
    exact absurd (Text.eq_false_of_mem_split hs '/' hm) (by simp)
  have nul : ∀ s ∈ Path.segments path, '\x00' ∉ s := fun s hs hm => hnul (Text.mem_of_mem_split hs hm)
  unfold directory?
  by_cases absolute : Path.isAbsolute path = true
  · refine ⟨fun lost => absurd (lost.1.symm.trans absolute) (by decide), fun _ => ?_⟩
    rw [if_pos absolute]
    obtain ⟨c, t, rfl⟩ := List.exists_cons_of_ne_nil hne
    obtain rfl : c = '/' := Option.some.inj (of_decide_eq_true absolute)
    obtain ⟨s, rest, hs⟩ := List.exists_cons_of_ne_nil (Path.segments_ne_nil t)
    have top : fs.origin ('/' :: t) = [] := if_pos absolute
    rw [top, show Path.segments ('/' :: t) = [] :: Path.segments t from rfl, hs,
      FileSystem.walk_skip (Or.inl rfl), ← hs] at hw
    have start : Denotes fs ['/'] [] := by
      obtain ⟨children, hd⟩ := FileSystem.exists_directory_of_walk (hs ▸ hw)
      refine ⟨?_, fun here => absurd here (by decide)⟩
      show FileSystem.walk fs.root [] ([] :: [[]]) = .ok []
      rw [FileSystem.walk_skip (Or.inl rfl), FileSystem.walk_here (Or.inl rfl) hd]
    exact start.follow (fun s hs => slash s (List.mem_cons_of_mem _ hs))
      (fun s hs => nul s (List.mem_cons_of_mem _ hs)) (fun dot => absurd dot (by decide)) hw
  · rw [if_neg absolute]
    refine ⟨fun lost => follow_lost lost.2, fun kept => ?_⟩
    have origin : fs.origin path = fs.working := by rw [FileSystem.origin, if_neg absolute]
    obtain ⟨s, rest, hs⟩ := List.exists_cons_of_ne_nil (Path.segments_ne_nil path)
    rw [origin] at hw
    have start : Denotes fs ['.'] fs.working := ⟨locate_dot (hs ▸ hw), fun _ => rfl⟩
    exact start.follow slash nul (fun _ none => kept ⟨Bool.eq_false_iff.2 absolute, none⟩) hw

/-! ## The documents that are listed -/

mutual

/-- The documents below an entry, each by the names that lead to it. -/
def documents : Entry → List (List Text)
  | .file _ => []
  | .directory children => documentsOf children

def documentsOf : List (Text × Entry) → List (List Text)
  | [] => []
  | (name, e) :: rest =>
    (if isDocument name then [[name]] else []) ++ (documents e).map (name :: ·) ++ documentsOf rest

end

mutual

theorem below_eq : ∀ (path : Text) (e : Entry), below path e = (documents e).map (·.foldl inside path)
  | _, .file _ => rfl
  | path, .directory children => belowAll_eq path children

/-- The documents below a directory are listed by their paths. -/
theorem belowAll_eq : ∀ (path : Text) (children : List (Text × Entry)),
    belowAll path children = (documentsOf children).map (·.foldl inside path)
  | _, [] => rfl
  | path, (name, e) :: rest => by
    rw [belowAll, documentsOf, below_eq, belowAll_eq, List.map_append, List.map_append, List.map_map]
    congr 2
    split <;> rfl

end

theorem mem_documentsOf {names : List Text} {children : List (Text × Entry)} :
    names ∈ documentsOf children ↔ ∃ name e, (name, e) ∈ children ∧
      (names = [name] ∧ isDocument name = true ∨ ∃ more ∈ documents e, names = name :: more) := by
  induction children with
  | nil => simp [documentsOf]
  | cons child rest ih =>
    obtain ⟨name, e⟩ := child
    rw [documentsOf, List.mem_append, List.mem_append, ih]
    constructor
    · rintro ((h | h) | ⟨n, d, hm, h⟩)
      · split at h
        · next doc => exact ⟨name, e, List.mem_cons_self, Or.inl ⟨List.mem_singleton.1 h, doc⟩⟩
        · exact absurd h List.not_mem_nil
      · obtain ⟨more, hm, rfl⟩ := List.mem_map.1 h
        exact ⟨name, e, List.mem_cons_self, Or.inr ⟨more, hm, rfl⟩⟩
      · exact ⟨n, d, List.mem_cons_of_mem _ hm, h⟩
    · rintro ⟨n, d, hm, h⟩
      rcases List.mem_cons.1 hm with hm | hm
      · obtain ⟨rfl, rfl⟩ := Prod.mk.inj hm
        rcases h with ⟨rfl, doc⟩ | ⟨more, hmore, rfl⟩
        · exact Or.inl (Or.inl (by simp [doc]))
        · exact Or.inl (Or.inr (List.mem_map.2 ⟨more, hmore, rfl⟩))
      · exact Or.inr ⟨n, d, hm, h⟩

theorem mem_of_lookup {α : Type} {children : List (Text × α)} {e : α} (h : children.lookup name = some e) :
    (name, e) ∈ children := by
  obtain ⟨before, after, rfl, -⟩ := List.lookup_eq_some_iff.1 h
  exact List.mem_append_right before List.mem_cons_self

theorem lookup_of_mem {α : Type} {children : List (Text × α)} (distinct : (children.map Prod.fst).Nodup)
    {e : α} (h : (name, e) ∈ children) : children.lookup name = some e := by
  induction children with
  | nil => exact absurd h List.not_mem_nil
  | cons child rest ih =>
    rw [List.map_cons, List.nodup_cons] at distinct
    rcases List.mem_cons.1 h with rfl | h
    · simp
    · have other : name ≠ child.1 := fun hn => distinct.1 (hn ▸ List.mem_map_of_mem h)
      rw [List.lookup_cons, beq_eq_false_iff_ne.2 other]
      exact ih distinct.2 h

/-- The entries of each directory have distinct names. -/
def Distinct (e : Entry) : Prop :=
  ∀ names children, e.find? names = some (.directory children) → (children.map Prod.fst).Nodup

theorem find?_directory_cons {children : List (Text × Entry)} {d : Entry} (h : children.lookup name = some d)
    (names : List Text) : (Entry.directory children).find? (name :: names) = d.find? names := by
  rw [Entry.find?_cons]
  show (children.lookup name).bind _ = _
  rw [h]
  rfl

theorem Distinct.child {children : List (Text × Entry)} (h : Distinct (.directory children)) {d : Entry}
    (found : children.lookup name = some d) : Distinct d :=
  fun names cs hd => h (name :: names) cs ((find?_directory_cons found names).trans hd)

/-- The documents below an entry are what look-up finds under names of documents. -/
theorem mem_documents {names : List Text} : ∀ {e : Entry}, Distinct e →
    (names ∈ documents e ↔
      (∃ d, e.find? names = some d) ∧ ∃ front name, names = front ++ [name] ∧ isDocument name = true) := by
  induction names with
  | nil =>
    intro e _
    refine ⟨fun h => ?_, fun ⟨_, front, name, h, _⟩ => absurd h (by simp)⟩
    cases e with
    | file content => exact absurd h List.not_mem_nil
    | directory children =>
      obtain ⟨name, d, -, ⟨h, -⟩ | ⟨more, -, h⟩⟩ := mem_documentsOf.1 h
      · exact absurd h (by simp)
      · exact absurd h (by simp)
  | cons name names ih =>
    intro e distinct
    cases e with
    | file content =>
      exact ⟨fun h => absurd h List.not_mem_nil,
        fun ⟨⟨_, h⟩, _⟩ => absurd (Entry.eq_file_of_find? h).1 (by simp)⟩
    | directory children =>
      show _ ∈ documentsOf children ↔ _
      rw [mem_documentsOf]
      constructor
      · rintro ⟨n, d, hm, h⟩
        have found : children.lookup n = some d := lookup_of_mem (distinct [] children rfl) hm
        rcases h with ⟨h, doc⟩ | ⟨more, hmore, h⟩
        · obtain ⟨rfl, rfl⟩ := List.cons.inj h
          exact ⟨⟨d, find?_directory_cons found []⟩, [], name, rfl, doc⟩
        · obtain ⟨rfl, rfl⟩ := List.cons.inj h
          obtain ⟨⟨d', hd'⟩, front, last, rfl, doc⟩ := (ih (distinct.child found)).1 hmore
          exact ⟨⟨d', (find?_directory_cons found _).trans hd'⟩, name :: front, last, rfl, doc⟩
      · rintro ⟨⟨d', hd'⟩, front, last, hl, doc⟩
        rw [Entry.find?_cons, Option.bind_eq_some_iff] at hd'
        obtain ⟨d, found, hd'⟩ := hd'
        refine ⟨name, d, mem_of_lookup found, ?_⟩
        cases front with
        | nil =>
          obtain ⟨rfl, rfl⟩ := List.cons.inj hl
          exact Or.inl ⟨rfl, doc⟩
        | cons first front =>
          obtain ⟨rfl, rfl⟩ := List.cons.inj hl
          exact Or.inr ⟨_, (ih (distinct.child found)).2 ⟨⟨d', hd'⟩, front, last, rfl, doc⟩, rfl⟩

theorem ne_nil_of_mem_documents {names : List Text} {e : Entry} (h : names ∈ documents e) : names ≠ [] := by
  cases e with
  | file content => exact absurd h List.not_mem_nil
  | directory children =>
    obtain ⟨name, d, -, ⟨rfl, -⟩ | ⟨more, -, rfl⟩⟩ := mem_documentsOf.1 h <;> simp

mutual

/-- Each document below an entry is listed once. -/
theorem nodup_documents : ∀ e : Entry, Distinct e → (documents e).Nodup
  | .file _, _ => List.nodup_nil
  | .directory children, distinct =>
    nodup_documentsOf children (distinct [] children rfl) fun _ hc =>
      distinct.child (lookup_of_mem (distinct [] children rfl) hc)

theorem nodup_documentsOf : ∀ children : List (Text × Entry), (children.map Prod.fst).Nodup →
    (∀ c ∈ children, Distinct c.2) → (documentsOf children).Nodup
  | [], _, _ => List.nodup_nil
  | (name, e) :: rest, names, each => by
    rw [List.map_cons, List.nodup_cons] at names
    rw [List.forall_mem_cons] at each
    have below : ((documents e).map (name :: ·)).Nodup :=
      List.pairwise_map.2 ((nodup_documents e each.1).imp fun other h => other (List.cons.inj h).2)
    have others : (documentsOf rest).Nodup := nodup_documentsOf rest names.2 each.2
    rw [documentsOf, List.nodup_append, List.nodup_append]
    refine ⟨⟨by split <;> simp, below, ?_⟩, others, ?_⟩
    · -- The document itself is no directory above one.
      intro single hs more hm same
      obtain ⟨more, hmore, rfl⟩ := List.mem_map.1 hm
      have alone : single = [name] := by
        split at hs
        · exact List.mem_singleton.1 hs
        · exact absurd hs List.not_mem_nil
      exact ne_nil_of_mem_documents hmore (List.cons.inj (same.symm.trans alone)).2
    · -- What follows starts with other names.
      intro mine hmine other hother same
      have first : mine.head? = some name := by
        rcases List.mem_append.1 hmine with hs | hm
        · split at hs
          · rw [List.mem_singleton.1 hs]
            rfl
          · exact absurd hs List.not_mem_nil
        · obtain ⟨more, -, rfl⟩ := List.mem_map.1 hm
          rfl
      obtain ⟨name', d, hd, starts⟩ := mem_documentsOf.1 hother
      have again : other.head? = some name' := by
        rcases starts with ⟨rfl, -⟩ | ⟨more, -, rfl⟩ <;> rfl
      obtain rfl : name = name' := Option.some.inj (first.symm.trans (same ▸ again))
      exact names.1 (List.mem_map.2 ⟨_, hd, rfl⟩)

end

/-- The documents among the entries of a directory are those of a single name. -/
theorem direct_eq (path : Text) (children : List (Text × Entry)) :
    direct path children = ((documentsOf children).filter (·.length = 1)).map (·.foldl inside path) := by
  induction children with
  | nil => rfl
  | cons child rest ih =>
    obtain ⟨name, e⟩ := child
    have below : ((documents e).map (name :: ·)).filter (·.length = 1) = [] := by
      refine List.filter_eq_nil_iff.2 fun names hm => ?_
      obtain ⟨more, hmore, rfl⟩ := List.mem_map.1 hm
      simpa using ne_nil_of_mem_documents hmore
    rw [documentsOf, List.filter_append, List.filter_append, below, List.append_nil, List.map_append, ← ih, direct,
      List.filter_cons]
    split <;> rfl

/-- A directory is listed under a path that denotes it, unless its path is lost. -/
theorem list_eq {children : List (Text × Entry)} (h : fs.locate path = .ok here)
    (he : fs.root.find? here = some (.directory children)) (kept : ¬ Lost path) :
    ∃ found, directory? fs path = some found ∧ Denotes fs found here ∧
      ∀ entries, list fs path entries = entries found children := by
  obtain ⟨found, hfound, hden⟩ := (directory?_eq h).2 kept
  have entry : fs.entry found = .ok (.directory children) :=
    FileSystem.entry_eq_ok_iff.2 ⟨here, hden.locate, he⟩
  refine ⟨found, hfound, hden, fun entries => ?_⟩
  rw [list, hfound]
  simp only [entry]
  rfl

/-- The documents below a directory are found, unless its path is lost. -/
theorem documentsBelow_eq {e : Entry} (h : fs.locate path = .ok here) (he : fs.root.find? here = some e)
    (hdir : e.isDirectory = true) : (Lost path → documentsBelow fs path = []) ∧
      (¬ Lost path → ∃ found, Denotes fs found here ∧
        documentsBelow fs path = (documents e).map (·.foldl inside found)) := by
  refine ⟨fun hl => by rw [documentsBelow, list, (directory?_eq h).1 hl], fun hl => ?_⟩
  cases e with
  | file content => exact absurd hdir (by simp [Entry.isDirectory])
  | directory children =>
    obtain ⟨found, -, hden, listed⟩ := list_eq h he hl
    exact ⟨found, hden, (listed belowAll).trans (belowAll_eq found children)⟩

/-- Names that files may have lead from a directory to the paths that are listed below it. -/
theorem Denotes.foldl_inside {names : List Text} (h : ∀ n ∈ names, FileSystem.IsFileName n) :
    ∀ {path : Text} {here : List Text}, Denotes fs path here →
      FileSystem.walk fs.root here names = .ok here' → Denotes fs (names.foldl Search.inside path) here' := by
  induction names with
  | nil =>
    intro path here hp hw
    obtain rfl := Except.ok.inj hw
    exact hp
  | cons name names ih =>
    intro path here hp hw
    rw [List.forall_mem_cons] at h
    rw [show name :: names = [name] ++ names from rfl, FileSystem.walk_append] at hw
    obtain ⟨next, hnext, hw⟩ := bind_eq_ok_iff.1 hw
    exact ih h.2 (hp.inside h.1.slash h.1.nul (fun _ => h.1.ne_nil) hnext) hw

end Search

end DeclGen
