import DeclGen.Proofs.Entity.Dependencies
import DeclGen.Proofs.Loader.Registry
import DeclGen.TypeScript.Declaration

/-!
# The imports of a file

* `TypeScript.Imports` : a text starts with imports, and one of them is that of a name;
* `TypeScript.importLine_append_inj` : imports of names without line feeds are told apart;
* `TypeScript.imports_render_iff` : a file imports the names that its entity imports, and no more;
* `Resolved.mem_imports_iff` : which names those are;
* `references_imported` : whatever a file refers to is imported or is the entity itself, and whatever
  it imports is referred to.
-/

namespace DeclGen.TypeScript
variable {options : Options}

/-- The text starts with imports of names without line feeds, and one of them is that of `name`. -/
def Imports (options : Options) (text name : Text) : Prop :=
  ∃ before rest, (∀ n ∈ name :: before, '\n' ∉ n) ∧
    text = before.flatMap (importLine options) ++ (importLine options name ++ rest)

/-- An import is a line with the name at two places. -/
theorem importLine_shape (options : Options) :
    ∃ start middle stop : Text, ('\n' ∉ start ∧ '\n' ∉ middle ∧ '\n' ∉ stop) ∧
      ∀ name, importLine options name = start ++ name ++ middle ++ name ++ stop ++ ['\n'] := by
  have regroup : ∀ a n b x c : Text,
      a ++ n ++ b ++ n ++ x ++ (c ++ ['\n']) = a ++ n ++ b ++ n ++ (x ++ c) ++ ['\n'] := by simp
  refine ⟨"import \x7b ".toList, " \x7d from './".toList,
    (if options.extension then ".ts".toList else []) ++ "';".toList, ⟨by decide, by decide, ?_⟩, ?_⟩
  · split <;> decide
  · exact fun name => regroup _ name _ _ "';".toList

theorem eq_of_append_cons {c : Char} {u v s t : Text} (hu : c ∉ u) (hv : c ∉ v)
    (h : u ++ c :: s = v ++ c :: t) : u = v ∧ s = t := by
  induction u generalizing v with
  | nil =>
    cases v with
    | nil => exact ⟨rfl, (List.cons.inj h).2⟩
    | cons d v =>
      obtain rfl : c = d := (List.cons.inj h).1
      exact absurd List.mem_cons_self hv
  | cons a u ih =>
    cases v with
    | nil =>
      obtain rfl : a = c := (List.cons.inj h).1
      exact absurd List.mem_cons_self hu
    | cons d v =>
      obtain ⟨rfl, htail⟩ := List.cons.inj h
      obtain ⟨rfl, hs⟩ := ih (fun hm => hu (List.mem_cons_of_mem _ hm))
        (fun hm => hv (List.mem_cons_of_mem _ hm)) htail
      exact ⟨rfl, hs⟩

/-- The import of a name and what follows it are determined by the text. -/
theorem importLine_append_inj {a b s t : Text} (ha : '\n' ∉ a) (hb : '\n' ∉ b)
    (h : importLine options a ++ s = importLine options b ++ t) : a = b ∧ s = t := by
  obtain ⟨start, middle, stop, ⟨hstart, hmiddle, hstop⟩, shape⟩ := importLine_shape options
  have free : ∀ {name : Text}, '\n' ∉ name → '\n' ∉ start ++ name ++ middle ++ name ++ stop := by
    intro name hn
    simp only [List.mem_append, not_or]
    exact ⟨⟨⟨⟨hstart, hn⟩, hmiddle⟩, hn⟩, hstop⟩
  rw [shape, shape, List.append_assoc, List.append_assoc _ _ t] at h
  obtain ⟨hbody, hs⟩ := eq_of_append_cons (free ha) (free hb) h
  have hl := congrArg List.length hbody
  simp only [List.length_append] at hl
  simp only [List.append_assoc] at hbody
  exact ⟨List.append_inj_left (List.append_cancel_left hbody) (by omega), hs⟩

/-- Behind the imports of `names`, a text that goes on otherwise imports nothing. -/
theorem mem_of_imports {names : List Text} (hn : ∀ n ∈ names, '\n' ∉ n) {tail : Text}
    (ht : tail.head? ≠ some 'i') {name : Text}
    (h : Imports options (names.flatMap (importLine options) ++ tail) name) : name ∈ names := by
  obtain ⟨before, rest, hb, h⟩ := h
  induction names generalizing before with
  | nil =>
    refine absurd ?_ ht
    rw [List.flatMap_nil, List.nil_append] at h
    rw [h]
    cases before <;> rfl
  | cons n names ih =>
    rw [List.forall_mem_cons] at hn
    rw [List.flatMap_cons, List.append_assoc] at h
    cases before with
    | nil =>
      obtain ⟨rfl, -⟩ := importLine_append_inj hn.1 (hb name List.mem_cons_self) h
      exact List.mem_cons_self
    | cons b before =>
      rw [List.flatMap_cons, List.append_assoc] at h
      obtain ⟨-, h⟩ := importLine_append_inj hn.1 (hb b (by simp)) h
      refine List.mem_cons_of_mem _ (ih hn.2 before ?_ h)
      intro m hm
      rcases List.mem_cons.1 hm with rfl | hm
      · exact hb m List.mem_cons_self
      · exact hb m (by simp [hm])

/-- A file consists of the imports of its entity and a rest that starts with no import. -/
theorem render_eq (options : Options) {e : Resolved}
    (h : e.kind.isEnumeration = true → e.imports = []) :
    ∃ tail : Text, tail.head? ≠ some 'i' ∧
      render options e = e.imports.flatMap (importLine options) ++ tail := by
  have head : ∀ (keyword : Text) (rest : Text), keyword.head? = some 'e' →
      (optionalDoc e.doc [] ++ (keyword ++ rest)).head? ≠ some 'i' := by
    intro keyword rest hk
    cases e.doc with
    | none =>
      have hr : (keyword ++ rest).head? = some 'e' := by rw [List.head?_append, hk, Option.some_or]
      simp [optionalDoc, hr]
    | some doc => simp [optionalDoc, docBlock]
  unfold render
  split
  · simp only [interface, importBlock, List.append_assoc]
    split
    · next hnone =>
      rw [hnone]
      exact ⟨_, head "export interface ".toList _ rfl, rfl⟩
    · rw [List.append_assoc]
      exact ⟨['\n'] ++ _, by simp, rfl⟩
  · next hk =>
    rw [h (by rw [hk]; rfl)]
    simp only [enumeration, List.append_assoc]
    exact ⟨_, head "export enum ".toList _ rfl, rfl⟩

/-- An enumeration imports nothing. -/
theorem imports_eq_nil {e : Entity} (h : e.resolve.kind.isEnumeration = true) :
    e.resolve.imports = [] := by
  have hnone : e.dependencyReferences = [] := by
    change e.kind.isEnumeration = true at h
    unfold Entity.dependencyReferences Entity.visibleFields
    cases hk : e.kind with
    | record =>
      rw [hk] at h
      exact absurd h (by simp [Kind.isEnumeration])
    | enumeration backing => simp
  have hempty : e.resolve.dependencies = .empty := by
    simp only [Entity.resolve, hnone, List.foldl_nil]
  simp [Resolved.imports, hempty, Dependencies.names, Dependencies.empty]

theorem newline_not_mem_imports {e : Entity} : ∀ n ∈ e.resolve.imports, '\n' ∉ n := by
  intro n hn hm
  obtain ⟨p, hp, rfl⟩ := List.mem_map.1 (List.mem_filter.1 hn).1
  obtain ⟨href, hshort⟩ := e.good_dependencies.entries p hp
  rw [hshort] at hm
  exact absurd (href.unblank _ (Name.mem_of_mem_short hm)) (by decide)

/-- The file of an entity imports what the entity does. -/
theorem imports_render_iff {e : Entity} {name : Text} :
    Imports options (render options e.resolve) name ↔ name ∈ e.resolve.imports := by
  obtain ⟨tail, htail, hr⟩ := render_eq options (e := e.resolve) imports_eq_nil
  rw [hr]
  refine ⟨mem_of_imports newline_not_mem_imports htail, fun h => ?_⟩
  obtain ⟨before, after, hsplit⟩ := List.append_of_mem h
  refine ⟨before, after.flatMap (importLine options) ++ tail, ?_, ?_⟩
  · intro n hn
    refine newline_not_mem_imports (e := e) n ?_
    rw [hsplit]
    rcases List.mem_cons.1 hn with rfl | hn
    · exact List.mem_append_right _ List.mem_cons_self
    · exact List.mem_append_left _ hn
  · rw [hsplit, List.flatMap_append, List.flatMap_cons, List.append_assoc, List.append_assoc]

end TypeScript

/-! ## References and imports -/

/-- A reference to the entity itself has its short name. -/
theorem Entity.short_of_isSelf {e : Entity} (hw : e.WellNamed) {name : Text}
    (hr : Name.IsReference name) (h : e.isSelf name = true) : Name.short name = e.shortName := by
  unfold Entity.isSelf at h
  split at h
  · have hname : Name.normalize name = e.qualifiedName := of_decide_eq_true h
    rw [Name.normalize_eq_self hr] at hname
    rw [hname, hw]
  · exact of_decide_eq_true h

/-- An entity imports the short names of its dependencies, its own apart. -/
theorem Resolved.mem_imports_iff {e : Entity} {short : Text} :
    short ∈ e.resolve.imports ↔
      short ≠ e.shortName ∧ ∃ name ∈ e.dependencyReferences, Name.short name = short := by
  have hnames : short ∈ e.resolve.dependencies.names ↔
      ∃ name ∈ e.dependencyReferences, Name.short name = short := by
    unfold Dependencies.names
    rw [List.mem_map]
    constructor
    · rintro ⟨⟨s, written⟩, hp, rfl⟩
      exact ⟨written, Entity.first?_eq_some (Entity.mem_entries_iff.1 hp)⟩
    · rintro ⟨name, hn, rfl⟩
      obtain ⟨first, hf⟩ := Entity.exists_first? hn
      exact ⟨_, Entity.mem_entries_iff.2 hf, rfl⟩
  unfold Resolved.imports
  rw [List.mem_filter, hnames, and_comm, bne_iff_ne]
  rfl

theorem Entity.mem_visibleFields {e : Entity} {f : Field} (h : f ∈ e.visibleFields) :
    f ∈ e.fields ∧ f.excluded = false := by
  unfold Entity.visibleFields at h
  split at h
  · obtain ⟨hf, hx⟩ := List.mem_filter.1 h
    exact ⟨hf, by simpa using hx⟩
  · exact absurd h (by simp)

/-- **A file is closed and imports nothing in vain.** Each name in the types of the fields, at any
depth, is written as its short name, which is that of the entity or is imported. Each import is the
short name of such a name in a field that is not excluded; imports are distinct, and the entity's own
name is not among them. The file imports what the entity does. -/
theorem references_imported {e : Entity} (hw : e.WellNamed) :
    (∀ f ∈ e.resolve.fields, ∀ name, TypeNode.named name ∈ f.type.nodes →
      (TypeNode.named name).toTypeScript = Name.short name ∧
        (Name.short name = e.shortName ∨ Name.short name ∈ e.resolve.imports)) ∧
    (∀ short ∈ e.resolve.imports, ∃ f ∈ e.fields, f.excluded = false ∧
      ∃ name, TypeNode.named name ∈ f.type.nodes ∧ Name.short name = short) ∧
    e.resolve.imports.Nodup ∧ e.shortName ∉ e.resolve.imports ∧
    ∀ options name, TypeScript.Imports options (TypeScript.render options e.resolve) name ↔
      name ∈ e.resolve.imports := by
  refine ⟨?_, ?_, ?_, ?_, fun options name => TypeScript.imports_render_iff⟩
  · intro f hf name hn
    obtain ⟨field, hfield, rfl⟩ := List.mem_map.1 hf
    have hr : name ∈ field.type.references := (TypeNode.mem_references_iff _).2 hn
    obtain ⟨href, hb⟩ := Field.named_of_mem hr
    have htext : (TypeNode.named name).toTypeScript = Name.short name := by
      rw [TypeNode.toTypeScript_named, mapName_eq_short hb]
    refine ⟨htext, ?_⟩
    by_cases hown : Name.short name = e.shortName
    · exact Or.inl hown
    · refine Or.inr (Resolved.mem_imports_iff.2 ⟨hown, name, ?_, rfl⟩)
      have hself : e.isSelf name = false :=
        Bool.eq_false_iff.2 fun h => hown (Entity.short_of_isSelf hw href h)
      have hd : e.dependsOn name = true := by rw [Entity.dependsOn, hb, hself]; rfl
      exact Entity.mem_dependencyReferences_iff.2 ⟨_, hf, hr, hd⟩
  · intro short hs
    obtain ⟨-, name, hn, hshort⟩ := Resolved.mem_imports_iff.1 hs
    obtain ⟨f, hf, hr, -⟩ := Entity.mem_dependencyReferences_iff.1 hn
    obtain ⟨field, hfield, rfl⟩ := List.mem_map.1 hf
    obtain ⟨hmem, hx⟩ := Entity.mem_visibleFields hfield
    exact ⟨field, hmem, hx, name, (TypeNode.mem_references_iff _).1 hr, hshort⟩
  · exact e.nodup_names_dependencies.filter _
  · intro h
    exact (Resolved.mem_imports_iff.1 h).1 rfl

/-- A reference inside a dictionary of arrays, beside one to an entity of the same short name. -/
theorem references_imported_nested :
    ∃ e : Entity, e.WellNamed ∧ e.resolve.imports = [['T']] ∧
      (∃ f ∈ e.resolve.fields, TypeNode.named "B\\T".toList ∈ f.type.nodes ∧
        (TypeNode.named "B\\T".toList).toTypeScript = ['T']) ∧
      ∃ f ∈ e.fields, f.excluded = false ∧ ∃ name, TypeNode.named name ∈ f.type.nodes ∧
        Name.short name = ['T'] := by
  let tags : Field := ⟨['t'], "array".toList, some "array<string, B.T[]>|B.E".toList, false, false, none⟩
  let e : Entity := { Entity.ofName .record "A.E".toList with fields := [tags] }
  have hw : e.WellNamed := Entity.wellNamed_ofName .record "A.E".toList
  have himports : e.resolve.imports = [['T']] := by decide +kernel
  have hf : ResolvedField.ofField tags ∈ e.resolve.fields :=
    List.mem_map_of_mem (List.mem_filter.2 ⟨List.mem_cons_self, rfl⟩)
  have hn : TypeNode.named "B\\T".toList ∈ (ResolvedField.ofField tags).type.nodes := by decide +kernel
  obtain ⟨written, used, -⟩ := references_imported hw
  have hshort : Name.short "B\\T".toList = ['T'] := by decide
  refine ⟨e, hw, himports, ⟨_, hf, hn, ?_⟩, used ['T'] (by rw [himports]; exact List.mem_cons_self)⟩
  rw [(written _ hf _ hn).1, hshort]

end DeclGen
