import DeclGen.Proofs.File.Search
import DeclGen.Proofs.Loader.Directory
import DeclGen.Proofs.Loader.Registry
import Mathlib.Data.List.Find

/-!
# Trees that mirror names

In a tree whose documents stand where the names of their entities lead, a directory finds by paths what a
registry of all documents finds by names.

* `Entry.Defines` : the entity of a document; `Entry.Mirrors` : the trees that mirror names;
* `find?_of_entry`, `entry_of_find?` : paths below the base and names in the tree;
* `exists_registry` : the registry of a tree, which is empty if the search loses the base;
* `isFile_pathFor?_iff`, `load_of_defines` : the directory of a tree;
* `loaders_agree` : both resolve and load the same.
-/

namespace DeclGen
open Name (IsSegment ofSegments)
open FileSystem (IsFileName)

/-! ## Trees that mirror names -/

/-- The document at the segments defines the entity and no other. -/
def Entry.Defines (e : Entry) (front : List Text) (segment : Text) (entity : Entity) : Prop :=
  ∃ t, e.find? (front ++ [documentName segment]) = some (.file (.text t)) ∧
    Document.parse t = .ok [entity]

/-- Every document of the tree stands where its name says: below the directories of its namespace inside
the scope. -/
structure Entry.Mirrors (e : Entry) (scope : Text) : Prop where
  /-- The entries of each directory have distinct names. -/
  distinct : Search.Distinct e
  directory : ∀ names name children, e.find? (names ++ [name]) = some (.directory children) →
    Search.isDocument name = false
  document : ∀ front name content, e.find? (front ++ [name]) = some (.file content) →
    Search.isDocument name = true → ∃ segment entity, name = documentName segment ∧
      (∀ s ∈ front ++ [segment], IsSegment s) ∧ (∀ n ∈ front ++ [name], IsFileName n) ∧
      e.Defines front segment entity ∧
      entity.qualifiedName = Directory.inScope scope (ofSegments (front ++ [segment]))

theorem Entry.find?_directory_cases {children : List (Text × Entry)} {names : List Text} {d : Entry}
    (h : (directory children).find? names = some d) : names = [] ∧ d = directory children ∨
      ∃ child ∈ children, ∃ rest, names = child.1 :: rest ∧ child.2.find? rest = some d := by
  cases names with
  | nil => exact Or.inl ⟨rfl, (Option.some.inj h).symm⟩
  | cons name names =>
    rw [find?_cons, Option.bind_eq_some_iff] at h
    obtain ⟨child, hc, h⟩ := h
    exact Or.inr ⟨(name, child), Search.mem_of_lookup hc, names, rfl, h⟩

/-- A document, and another one in a directory. -/
def Entry.shop : Entry :=
  .directory
    [("Shop".toList, .directory
      [("Item.xml".toList, .file (.text "<entity name=\"Item\" namespace=\"App\\Shop\"/>".toList))]),
    ("Size.xml".toList, .file (.text "<entity name=\"Size\" namespace=\"App\"/>".toList))]

theorem Entry.find?_shop {names : List Text} {d : Entry} (h : shop.find? names = some d) :
    (names = [] ∨ names = ["Shop".toList]) ∧
        (∃ children, d = directory children ∧ (children.map Prod.fst).Nodup) ∨
      (names = ["Shop".toList, "Item.xml".toList] ∨ names = ["Size.xml".toList]) ∧
        ∃ content, d = file content := by
  rcases find?_directory_cases h with ⟨rfl, rfl⟩ | ⟨child, hm, rest, rfl, hc⟩
  · exact Or.inl ⟨Or.inl rfl, _, rfl, by decide⟩
  · rcases List.mem_cons.1 hm with rfl | hm
    · rcases find?_directory_cases hc with ⟨rfl, rfl⟩ | ⟨child, hm, rest, rfl, hc⟩
      · exact Or.inl ⟨Or.inr rfl, _, rfl, by decide⟩
      · obtain rfl := List.mem_singleton.1 hm
        obtain ⟨rfl, rfl⟩ := eq_file_of_find? hc
        exact Or.inr ⟨Or.inl rfl, _, rfl⟩
    · obtain rfl := List.mem_singleton.1 hm
      obtain ⟨rfl, rfl⟩ := eq_file_of_find? hc
      exact Or.inr ⟨Or.inr rfl, _, rfl⟩

theorem Entry.mirrors_shop : shop.Mirrors (Name.normalize "App".toList) := by
  refine ⟨fun names children h => ?_, fun names name children h => ?_, fun front name content h doc => ?_⟩
  · rcases find?_shop h with ⟨-, _, hd, distinct⟩ | ⟨-, _, hd⟩
    · obtain rfl := directory.inj hd
      exact distinct
    · exact absurd hd (by simp)
  · rcases find?_shop h with ⟨hn | hn, -⟩ | ⟨-, _, hd⟩
    · exact absurd hn (by simp)
    · have whole : names ++ [name] = [] ++ ["Shop".toList] := hn
      obtain ⟨-, hs⟩ := List.append_inj' whole rfl
      rw [List.head_eq_of_cons_eq hs]
      decide
    · exact absurd hd (by simp)
  · rcases find?_shop h with ⟨-, _, hd, -⟩ | ⟨hn | hn, -⟩
    · exact absurd hd (by simp)
    · have whole : front ++ [name] = ["Shop".toList] ++ ["Item.xml".toList] := hn
      obtain ⟨rfl, hs⟩ := List.append_inj' whole rfl
      rw [List.head_eq_of_cons_eq hs]
      exact ⟨"Item".toList, ⟨"Item".toList, "App\\Shop\\Item".toList, .record, [], [], none⟩, rfl,
        by decide, by decide, ⟨_, rfl, eq_ok_of_toOption (by decide +kernel)⟩, rfl⟩
    · have whole : front ++ [name] = [] ++ ["Size.xml".toList] := hn
      obtain ⟨rfl, hs⟩ := List.append_inj' whole rfl
      rw [List.head_eq_of_cons_eq hs]
      exact ⟨"Size".toList, ⟨"Size".toList, "App\\Size".toList, .record, [], [], none⟩, rfl,
        by decide, by decide, ⟨_, rfl, eq_ok_of_toOption (by decide +kernel)⟩, rfl⟩

section Tree
variable {fs : FileSystem} {base scope : Text} {here : List Text} {e : Entry}

theorem mem_foldl_join {c : Char} {names : List Text} (slash : ∀ n ∈ names, '/' ∉ n) :
    ∀ {path : Text}, path ≠ [] → (c ∈ path ∨ ∃ n ∈ names, c ∈ n) → c ∈ names.foldl Path.join path := by
  induction names with
  | nil => exact fun _ h => h.resolve_right (by simp)
  | cons name names ih =>
    intro path hne h
    rw [List.forall_mem_cons] at slash
    refine ih slash.2 (FileSystem.join_ne_nil hne (Path.isAbsolute_of_slash slash.1)) ?_
    rw [Path.join_eq hne slash.1]
    rcases h with h | ⟨n, hn, h⟩
    · left
      split <;> exact List.mem_append_left _ h
    · rcases List.mem_cons.1 hn with rfl | hn
      · left
        split
        · exact List.mem_append_right _ h
        · exact List.mem_append_right _ (List.mem_cons_of_mem _ h)
      · exact Or.inr ⟨n, hn, h⟩

/-- What a joined path leads to is the entry that its names lead to. -/
theorem find?_of_entry (hloc : fs.locate base = .ok here) (he : fs.root.find? here = some e)
    {names : List Text} (slash : ∀ n ∈ names, '/' ∉ n)
    (plain : ∀ n ∈ names, n ≠ [] ∧ n ≠ ['.'] ∧ n ≠ ['.', '.']) {d : Entry}
    (h : fs.entry (names.foldl Path.join base) = .ok d) : e.find? names = some d := by
  obtain ⟨there, hthere, hd⟩ := FileSystem.entry_eq_ok_iff.1 h
  obtain ⟨hne, hnul, -⟩ := FileSystem.of_locate hloc
  have nul : ∀ n ∈ names, '\x00' ∉ n := fun n hn hm =>
    (FileSystem.of_locate hthere).2.1 (mem_foldl_join slash hne (Or.inr ⟨n, hn, hm⟩))
  rw [FileSystem.locate_foldl_join slash nul hne hnul, hloc, ok_bind] at hthere
  rw [FileSystem.eq_append_of_walk plain hthere, Entry.find?_append, he] at hd
  exact hd

theorem entry_of_find? (hloc : fs.locate base = .ok here) (he : fs.root.find? here = some e)
    {names : List Text} (valid : ∀ n ∈ names, IsFileName n) {d : Entry} (h : e.find? names = some d) :
    fs.entry (names.foldl Path.join base) = .ok d := by
  obtain ⟨hne, hnul, -⟩ := FileSystem.of_locate hloc
  have below : fs.root.find? (here ++ names) = some d := by
    rw [Entry.find?_append, he]
    exact h
  refine FileSystem.entry_eq_ok_iff.2 ⟨here ++ names, ?_, below⟩
  rw [FileSystem.locate_foldl_join (fun n hn => (valid n hn).slash) (fun n hn => (valid n hn).nul) hne hnul,
    hloc]
  exact FileSystem.walk_names valid below

theorem readDocument_of_entry {path t : Text} {entities : List Entity}
    (h : fs.entry path = .ok (.file (.text t))) (hp : Document.parse t = .ok entities) :
    readDocument fs path = .ok entities := by
  have read : fs.readText path = .ok t := by
    rw [FileSystem.readText, h]
    rfl
  rw [readDocument, read]
  simp only [hp]

/-- The entity, if it is valid. -/
def Entity.validated (e : Entity) : Except LoadError Entity :=
  match e.validate with
  | .ok () => .ok e
  | .error error => .error (.invalid error)

theorem Entity.validated_cases (e : Entity) :
    e.validated = .ok e ∨ ∃ error, e.validated = .error (.invalid error) := by
  unfold validated
  split
  · exact Or.inl rfl
  · exact Or.inr ⟨_, rfl⟩

theorem Registry.load_of_get? {r : Registry} {name : Text} {entity : Entity} (h : r.get? name = some entity) :
    r.load name = entity.validated := by
  rw [load, h]
  rfl

/-! ## The registry of a tree -/

theorem addFile_of_readDocument {r : Registry} {path : Text} {entities : List Entity}
    (h : readDocument fs path = .ok entities) : r.addFile fs path = .ok (r.extend entities) := by
  rw [Registry.addFile, h]
  rfl

/-- Files that define one entity each make up the registry of these entities. -/
theorem exists_entities_of_files {ι : Type} {file : ι → Text} {P : ι → Entity → Prop} {is : List ι}
    (h : ∀ i ∈ is, ∃ entity, readDocument fs (file i) = .ok [entity] ∧ P i entity) :
    ∀ r : Registry, ∃ es, (is.map file).foldlM (Registry.addFile fs) r = .ok (r.extend es) ∧
      (∀ entity ∈ es, ∃ i ∈ is, P i entity) ∧ ∀ i ∈ is, ∃ entity ∈ es, P i entity := by
  induction is with
  | nil => exact fun r => ⟨[], rfl, by simp, by simp⟩
  | cons i is ih =>
    intro r
    rw [List.forall_mem_cons] at h
    obtain ⟨⟨entity, hread, hp⟩, h⟩ := h
    obtain ⟨es, hes, sound, complete⟩ := ih h (r.extend [entity])
    refine ⟨entity :: es, ?_, ?_, ?_⟩
    · rw [List.map_cons, List.foldlM_cons, addFile_of_readDocument hread, ok_bind, hes]
      rfl
    · rw [List.forall_mem_cons]
      exact ⟨⟨i, List.mem_cons_self, hp⟩,
        fun d hd => (sound d hd).imp fun j hj => ⟨List.mem_cons_of_mem _ hj.1, hj.2⟩⟩
    · rw [List.forall_mem_cons]
      exact ⟨⟨entity, List.mem_cons_self, hp⟩,
        fun j hj => (complete j hj).imp fun d hd => ⟨List.mem_cons_of_mem _ hd.1, hd.2⟩⟩

theorem Registry.get?_extend (es : List Entity) (name : Text) :
    ∀ r : Registry, (r.extend es).get? name =
      (es.reverse.find? (·.qualifiedName = name)).or (r.get? name) := by
  induction es with
  | nil => exact fun _ => rfl
  | cons e es ih =>
    intro r
    show ((r.insert e).extend es).get? name = _
    rw [ih, get?_insert, List.reverse_cons, List.find?_append, Option.or_assoc]
    congr 1
    by_cases h : name = e.qualifiedName
    · simp [h]
    · simp [h, Ne.symm h]

/-- Entities that are determined by their names are found under them. -/
theorem Registry.get?_ofList_eq_some_iff {es : List Entity} {name : Text} {entity : Entity}
    (h : ∀ a ∈ es, ∀ b ∈ es, a.qualifiedName = b.qualifiedName → a = b) :
    (empty.extend es).get? name = some entity ↔ entity ∈ es ∧ entity.qualifiedName = name := by
  have none : empty.get? name = none := rfl
  rw [get?_extend, none, Option.or_none]
  constructor
  · intro hf
    exact ⟨List.mem_reverse.1 (List.mem_of_find?_eq_some hf), by simpa using List.find?_some hf⟩
  · rintro ⟨hm, rfl⟩
    have found : (es.reverse.find? (·.qualifiedName = entity.qualifiedName)).isSome = true :=
      List.find?_isSome.2 ⟨entity, List.mem_reverse.2 hm, decide_eq_true rfl⟩
    obtain ⟨other, hother⟩ := Option.isSome_iff_exists.1 found
    have named : other.qualifiedName = entity.qualifiedName := by simpa using List.find?_some hother
    rw [hother, h other (List.mem_reverse.1 (List.mem_of_find?_eq_some hother)) entity hm named]

theorem Entry.Defines.unique {front : List Text} {segment : Text} {a b : Entity}
    (ha : e.Defines front segment a) (hb : e.Defines front segment b) : a = b := by
  obtain ⟨t, hf, hp⟩ := ha
  obtain ⟨t', hf', hp'⟩ := hb
  rw [hf] at hf'
  obtain rfl : t = t' := by simpa using hf'
  rw [hp] at hp'
  simpa using hp'

/-- What is known of a document of the tree. -/
theorem Entry.Mirrors.of_defines (h : e.Mirrors scope) {front : List Text} {segment : Text} {entity : Entity}
    (hd : e.Defines front segment entity) :
    (∀ s ∈ front ++ [segment], IsSegment s) ∧ (∀ n ∈ front ++ [documentName segment], IsFileName n) ∧
      entity.qualifiedName = Directory.inScope scope (ofSegments (front ++ [segment])) := by
  obtain ⟨t, hf, -⟩ := id hd
  obtain ⟨other, entity', hname, segments, names, hd', named⟩ :=
    h.document front _ _ hf (isDocument_documentName segment)
  obtain rfl := documentName_injective hname
  obtain rfl := hd.unique hd'
  exact ⟨segments, names, named⟩

/-- In a tree that mirrors names, a qualified name tells the document. -/
theorem Entry.Mirrors.eq_of_qualifiedName (h : e.Mirrors scope) {front front' : List Text}
    {segment segment' : Text} {a b : Entity} (ha : e.Defines front segment a)
    (hb : e.Defines front' segment' b) (same : a.qualifiedName = b.qualifiedName) : a = b := by
  obtain ⟨segments, -, named⟩ := h.of_defines ha
  obtain ⟨segments', -, named'⟩ := h.of_defines hb
  rw [named, named'] at same
  have texts := Directory.inScope_injective same
  have both := congrArg Directory.nameSegments texts
  rw [Directory.nameSegments_ofSegments (by simp) segments,
    Directory.nameSegments_ofSegments (by simp) segments'] at both
  obtain ⟨rfl, hs⟩ := List.append_inj' both rfl
  obtain rfl := List.head_eq_of_cons_eq hs
  exact ha.unique hb

theorem Entry.Defines.mem_documents (h : e.Mirrors scope) {front : List Text} {segment : Text}
    {entity : Entity} (hd : e.Defines front segment entity) :
    front ++ [documentName segment] ∈ Search.documents e := by
  obtain ⟨t, hf, -⟩ := hd
  exact (Search.mem_documents h.distinct).2 ⟨⟨_, hf⟩, front, _, rfl, isDocument_documentName segment⟩

/-- A document that a search lists is read. -/
theorem exists_defines_of_mem_documents {path : Text} (hpath : Search.Denotes fs path here)
    (he : fs.root.find? here = some e) (h : e.Mirrors scope) {names : List Text}
    (hn : names ∈ Search.documents e) : ∃ entity,
      readDocument fs (names.foldl Search.inside path) = .ok [entity] ∧
      ∃ front segment, names = front ++ [documentName segment] ∧ e.Defines front segment entity := by
  obtain ⟨⟨d, hd⟩, front, name, rfl, doc⟩ := (Search.mem_documents h.distinct).1 hn
  cases d with
  | directory children => exact absurd (h.directory front name children hd) (by simp [doc])
  | file content =>
    obtain ⟨segment, entity, rfl, -, valid, defines, -⟩ := h.document front name content hd doc
    obtain ⟨t, hf, hp⟩ := id defines
    have below : fs.root.find? (here ++ (front ++ [documentName segment])) = some (.file (.text t)) := by
      rw [Entry.find?_append, he]
      exact hf
    have leads := hpath.foldl_inside valid (FileSystem.walk_names valid below)
    have entry := FileSystem.entry_eq_ok_iff.2 ⟨_, leads.locate, below⟩
    exact ⟨entity, readDocument_of_entry entry hp, front, segment, rfl, defines⟩

/-- The registry of a tree holds what the documents of the tree define, unless the search loses the base. -/
theorem exists_registry (hloc : fs.locate base = .ok here) (he : fs.root.find? here = some e)
    (hdir : e.isDirectory = true) (h : e.Mirrors scope) : ∃ r, Registry.ofPath fs base = .ok r ∧
      (Search.Lost base → r.entities = []) ∧
      (¬ Search.Lost base → ∀ name entity, r.get? name = some entity ↔
        ∃ front segment, e.Defines front segment entity ∧ entity.qualifiedName = name) := by
  have directory : fs.isDirectory base = true := by
    rw [FileSystem.isDirectory, FileSystem.entry_eq_ok_iff.2 ⟨here, hloc, he⟩]
    exact hdir
  obtain ⟨lost, kept⟩ := Search.documentsBelow_eq hloc he hdir
  by_cases hl : Search.Lost base
  · refine ⟨Registry.empty, ?_, fun _ => rfl, fun h => absurd hl h⟩
    rw [Registry.ofPath, if_pos directory, lost hl]
    rfl
  · obtain ⟨path, hpath, listed⟩ := kept hl
    obtain ⟨es, hes, sound, complete⟩ :=
      exists_entities_of_files (fun _ => exists_defines_of_mem_documents hpath he h) Registry.empty
    have determined : ∀ a ∈ es, ∀ b ∈ es, a.qualifiedName = b.qualifiedName → a = b := by
      intro a ha b hb same
      obtain ⟨_, _, _, _, _, da⟩ := sound a ha
      obtain ⟨_, _, _, _, _, db⟩ := sound b hb
      exact h.eq_of_qualifiedName da db same
    refine ⟨Registry.empty.extend es, ?_, fun h => absurd h hl, fun _ name entity => ?_⟩
    · rw [Registry.ofPath, if_pos directory, listed, hes]
    · rw [Registry.get?_ofList_eq_some_iff determined]
      constructor
      · rintro ⟨hm, hn⟩
        obtain ⟨-, -, front, segment, -, hd⟩ := sound entity hm
        exact ⟨front, segment, hd, hn⟩
      · rintro ⟨front, segment, hd, hn⟩
        refine ⟨?_, hn⟩
        obtain ⟨other, hother, front', segment', hn', hd'⟩ := complete _ (hd.mem_documents h)
        obtain ⟨rfl, hs⟩ := List.append_inj' hn' rfl
        obtain rfl := documentName_injective (List.head_eq_of_cons_eq hs)
        rwa [hd.unique hd']

/-! ## The directory of a tree -/

theorem pathFor?_of_defines (hloc : fs.locate base = .ok here) (he : fs.root.find? here = some e)
    (h : e.Mirrors scope) {front : List Text} {segment : Text} {entity : Entity}
    (hd : e.Defines front segment entity)
    (normal : Name.normalize entity.qualifiedName = entity.qualifiedName) :
    ∃ path t, (Directory.mk base scope).pathFor? entity.qualifiedName = some path ∧
      fs.entry path = .ok (.file (.text t)) ∧ Document.parse t = .ok [entity] := by
  obtain ⟨segments, names, named⟩ := h.of_defines hd
  obtain ⟨t, hf, hp⟩ := hd
  have valid : ∀ s ∈ front ++ [segment], IsSegment s ∧ '/' ∉ s := by
    intro s hs
    refine ⟨segments s hs, ?_⟩
    rcases List.mem_append.1 hs with hs | hs
    · exact (names s (List.mem_append_left _ hs)).slash
    · rw [List.mem_singleton.1 hs]
      have whole := names _ (List.mem_append_right _ List.mem_cons_self)
      exact fun hm => whole.slash (List.mem_append_left _ hm)
  exact ⟨_, t, Directory.pathFor?_inScope (FileSystem.of_locate hloc).1 (normal.trans named) valid,
    entry_of_find? hloc he names hf, hp⟩

/-- A plain name that has a document in the directory stands for a file of the tree. -/
theorem exists_of_isFile_pathFor? (hloc : fs.locate base = .ok here) (he : fs.root.find? here = some e) {name : Text}
    (normal : Name.normalize name = name) (plain : Directory.IsPlain name)
    (h : ((Directory.mk base scope).pathFor? name).any fs.isFile = true) : ∃ front segment content,
      (∀ s ∈ front ++ [segment], IsSegment s ∧ '/' ∉ s) ∧
      name = Directory.inScope scope (ofSegments (front ++ [segment])) ∧
      e.find? (front ++ [documentName segment]) = some (.file content) := by
  obtain ⟨path, hpath, hfile⟩ := (Option.any_eq_true _ _).1 h
  obtain ⟨front, segment, valid, rfl, rfl⟩ :=
    Directory.exists_of_pathFor? (FileSystem.of_locate hloc).1 normal plain hpath
  have names : ∀ n ∈ front ++ [documentName segment],
      '/' ∉ n ∧ n ≠ [] ∧ n ≠ ['.'] ∧ n ≠ ['.', '.'] := by
    intro n hn
    rcases List.mem_append.1 hn with hn | hn
    · have hs := valid n (List.mem_append_left _ hn)
      exact ⟨hs.2, hs.1.meant⟩
    · rw [List.mem_singleton.1 hn]
      exact ⟨slash_notMem_documentName (valid segment (by simp)).2, documentName_meant segment⟩
  obtain ⟨content, hentry⟩ := FileSystem.isFile_iff.1 hfile
  exact ⟨front, segment, content, valid, rfl,
    find?_of_entry hloc he (fun n hn => (names n hn).1) (fun n hn => (names n hn).2) hentry⟩

/-- A plain name in normal form has a document in the directory iff the tree defines its entity. -/
theorem isFile_pathFor?_iff (hloc : fs.locate base = .ok here) (he : fs.root.find? here = some e)
    (h : e.Mirrors scope) {name : Text} (normal : Name.normalize name = name)
    (plain : Directory.IsPlain name) :
    ((Directory.mk base scope).pathFor? name).any fs.isFile = true ↔
      ∃ front segment entity, e.Defines front segment entity ∧ entity.qualifiedName = name := by
  constructor
  · intro h'
    obtain ⟨front, segment, content, -, rfl, found⟩ := exists_of_isFile_pathFor? hloc he normal plain h'
    obtain ⟨other, entity, hname, -, -, defines, named⟩ :=
      h.document front _ content found (isDocument_documentName segment)
    obtain rfl := documentName_injective hname
    exact ⟨front, segment, entity, defines, named⟩
  · rintro ⟨front, segment, entity, hd, rfl⟩
    obtain ⟨path, t, hpath, hentry, -⟩ := pathFor?_of_defines hloc he h hd normal
    exact (Option.any_eq_true _ _).2 ⟨path, hpath, FileSystem.isFile_iff.2 ⟨_, hentry⟩⟩

/-- An entity that the tree defines is loaded from its document. -/
theorem load_of_defines (hloc : fs.locate base = .ok here) (he : fs.root.find? here = some e)
    (h : e.Mirrors scope) {front : List Text} {segment : Text} {entity : Entity}
    (hd : e.Defines front segment entity)
    (normal : Name.normalize entity.qualifiedName = entity.qualifiedName) :
    (Directory.mk base scope).load fs entity.qualifiedName = entity.validated := by
  obtain ⟨path, t, hpath, hentry, hp⟩ := pathFor?_of_defines hloc he h hd normal
  have picked : Directory.pick? entity.qualifiedName [entity] = some entity := by
    simp [Directory.pick?]
  rw [Directory.load, hpath]
  simp only [readDocument_of_entry hentry hp, ok_bind, normal, picked]
  rfl

end Tree

/-! ## Both ways of loading -/

/-- Candidates are made of the segments of the reference and of the scope. -/
theorem isPlain_of_mem_candidates {reference context name : Text}
    (hr : Directory.IsPlain (Name.normalize reference))
    (hc : context = [] ∨ Directory.IsPlain (Name.normalize context))
    (h : name ∈ Loader.candidates reference context) : Directory.IsPlain name := by
  unfold Loader.candidates at h
  split at h
  · rw [List.mem_singleton.1 h]
    exact hr
  · next short =>
    have inside : context ≠ [] := fun empty => short (by simp [empty])
    rcases List.mem_cons.1 h with rfl | h
    · rw [Name.join]
      split
      · exact hr
      · intro s hs
        rw [Directory.nameSegments, Text.split_append_cons (decide_eq_true rfl)] at hs
        exact (List.mem_append.1 hs).elim (hc.resolve_left inside s) (hr s)
    · rw [List.mem_singleton.1 h]
      exact hr

/-- In a tree that mirrors names, the directory resolves what its registry resolves, short names that only
the registry knows apart, and both load the same; the registry is empty if the search loses the base. -/
theorem loaders_agree {fs : FileSystem} {base scope : Text} {root : Entry} (hroot : fs.entry base = .ok root)
    (hdir : root.isDirectory = true) (h : root.Mirrors (Name.normalize scope)) :
    ∃ d r, Directory.openAt fs base scope = .ok d ∧ Registry.ofPath fs base = .ok r ∧
      (Search.Lost base → r.entities = []) ∧
      (¬ Search.Lost base → ∀ reference context, Directory.IsPlain (Name.normalize reference) →
        (context = [] ∨ Directory.IsPlain (Name.normalize context)) →
          (∀ name, d.resolve fs reference context = some name → r.resolve reference context = some name) ∧
          (Name.isQualified reference = true →
            d.resolve fs reference context = r.resolve reference context) ∧
          ∀ name, (d.resolve fs reference context = some name ∨
              r.resolve reference context = some name ∧ Name.normalize d.scope = d.scope) →
            d.load fs name = r.load name ∧
              ((∃ e, r.load name = .ok e) ∨ ∃ error, r.load name = .error (.invalid error))) := by
  obtain ⟨here, hloc, he⟩ := FileSystem.entry_eq_ok_iff.1 hroot
  obtain ⟨r, hr, lost, kept⟩ := exists_registry hloc he hdir h
  have opened : Directory.openAt fs base scope = .ok ⟨base, Name.normalize scope⟩ := by
    have directory : fs.isDirectory base = true := by
      rw [FileSystem.isDirectory, hroot]
      exact hdir
    rw [Directory.openAt, if_pos directory]
  refine ⟨_, r, opened, hr, lost, fun hl reference context href hctx => ?_⟩
  have known := kept hl
  have same : (Loader.candidates reference context).find?
        (fun name => ((Directory.mk base (Name.normalize scope)).pathFor? name).any fs.isFile) =
      (Loader.candidates reference context).find? r.contains := by
    refine List.find?_congr fun name hm => ?_
    have plain := isPlain_of_mem_candidates href hctx hm
    rw [Bool.eq_iff_iff, isFile_pathFor?_iff hloc he h (normalize_of_isPlain plain) plain,
      Registry.contains, Option.isSome_iff_exists]
    constructor
    · rintro ⟨front, segment, entity, hd, hn⟩
      exact ⟨entity, (known name entity).2 ⟨front, segment, hd, hn⟩⟩
    · rintro ⟨entity, hg⟩
      obtain ⟨front, segment, hd, hn⟩ := (known name entity).1 hg
      exact ⟨front, segment, entity, hd, hn⟩
  have agree : ∀ name, Directory.resolve fs ⟨base, Name.normalize scope⟩ reference context = some name →
      r.resolve reference context = some name := by
    intro name hd
    rw [Directory.resolve, same] at hd
    rw [Registry.resolve, hd]
  have normal : ∀ name, Directory.resolve fs ⟨base, Name.normalize scope⟩ reference context = some name →
      Name.normalize name = name := fun name hd =>
    normalize_of_isPlain (isPlain_of_mem_candidates href hctx (List.mem_of_find?_eq_some hd))
  refine ⟨agree, fun qualified => ?_, fun name resolved => ?_⟩
  · rw [Directory.resolve, same, Registry.resolve]
    split
    · next name hname => exact hname
    · next none => rw [none, if_pos qualified]
  · have inRegistry : r.resolve reference context = some name := resolved.elim (agree name) And.left
    obtain ⟨entity, hg⟩ := Registry.exists_of_resolve inRegistry
    obtain ⟨front, segment, hd, rfl⟩ := (known name entity).1 hg
    have hnormal : Name.normalize entity.qualifiedName = entity.qualifiedName := by
      rcases resolved with inDirectory | ⟨-, hs⟩
      · exact normal _ inDirectory
      · obtain ⟨segments, -, named⟩ := h.of_defines hd
        rw [named]
        exact Directory.normalize_inScope hs segments
    have loaded := Registry.load_of_get? hg
    refine ⟨(load_of_defines hloc he h hd hnormal).trans loaded.symm, ?_⟩
    rw [loaded]
    exact entity.validated_cases.imp (fun valid => ⟨entity, valid⟩) id

/-- Below the working directory as a dot both loaders know the item; below a dot with a slash behind it only
the directory does. -/
theorem loaders_agree_shop :
    let fs : FileSystem := ⟨Entry.shop, []⟩
    let item := "App\\Shop\\Item".toList
    (¬ Search.Lost ".".toList ∧ ∃ d r, Directory.openAt fs ".".toList "App".toList = .ok d ∧
      Registry.ofPath fs ".".toList = .ok r ∧
      d.resolve fs "Item".toList "App\\Shop".toList = some item ∧
      r.resolve "Item".toList "App\\Shop".toList = some item ∧ d.load fs item = r.load item) ∧
    (Search.Lost "./".toList ∧ ∃ d r, Directory.openAt fs "./".toList "App".toList = .ok d ∧
      Registry.ofPath fs "./".toList = .ok r ∧
      d.resolve fs "Item".toList "App\\Shop".toList = some item ∧ r.entities = []) := by
  intro fs item
  have plain : Directory.IsPlain (Name.normalize "Item".toList) := by decide
  have inside : Directory.IsPlain (Name.normalize "App\\Shop".toList) := by decide
  constructor
  · refine ⟨by decide, ?_⟩
    obtain ⟨d, r, hd, hr, -, kept⟩ := @loaders_agree fs ".".toList "App".toList _ rfl rfl Entry.mirrors_shop
    obtain rfl : ⟨".".toList, "App".toList⟩ = d := Except.ok.inj hd
    obtain ⟨agree, -, loads⟩ := kept (by decide) _ _ plain (Or.inr inside)
    have found :
        Directory.resolve fs ⟨".".toList, "App".toList⟩ "Item".toList "App\\Shop".toList = some item := by
      decide +kernel
    exact ⟨_, r, hd, hr, found, agree _ found, (loads _ (Or.inl found)).1⟩
  · refine ⟨by decide, ?_⟩
    obtain ⟨d, r, hd, hr, lost, -⟩ := @loaders_agree fs "./".toList "App".toList _ rfl rfl Entry.mirrors_shop
    obtain rfl : ⟨"./".toList, "App".toList⟩ = d := Except.ok.inj hd
    exact ⟨_, r, hd, hr, by decide +kernel, lost (by decide)⟩

end DeclGen
