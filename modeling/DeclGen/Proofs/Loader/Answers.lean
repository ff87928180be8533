import DeclGen.Proofs.Document.Names
import DeclGen.Proofs.Loader.Mirror
import DeclGen.Proofs.Loader.Order

/-!
# What loaders answer

A loader resolves a reference to a name with the same last segment, and loads valid entities under the names that
it is asked for. For a registry this rests on the names of its entities, which are made together.

* `Entity.Built`, `Registry.Built` : the entities and the registries that can be put together;
  `Registry.built_ofText`, `Registry.built_ofPath` : those that are read are such;
* `Entity.Built.namedBy` : they have the names of new entities; `Registry.Built.wellNamed` : short names are last
  segments;
* `Loader.Tries` : the names that any loader tries; `Loader.short_of_tries` : they keep the short name;
* `Entity.AnswersTo` : a valid entity under a name;
* `loaders_answer` : what both loaders resolve and load.
-/

namespace DeclGen

/-! ## Entities and registries put together -/

/-- An entity made from a name or read from a document, or one of these with other contents. -/
inductive Entity.Built : Entity → Prop
  | ofName (kind : Kind) (name : Text) : (Entity.ofName kind name).Built
  | read {t : Text} {es : List Entity} {e : Entity} : Document.parse t = .ok es → e ∈ es → e.Built
  | edit {d e : Entity} : d.Built → e.shortName = d.shortName → e.qualifiedName = d.qualifiedName → e.Built

theorem Entity.Built.namedBy {e : Entity} (h : e.Built) : ∃ name, e.NamedBy name := by
  induction h with
  | ofName kind name => exact ⟨name, namedBy_ofName kind name⟩
  | read hp hm => exact Document.parse_namedBy hp _ hm
  | edit _ hs hq ih => exact ih.imp fun _ named => ⟨hs.trans named.shortName, hq.trans named.qualifiedName⟩

theorem Entity.Built.wellNamed {e : Entity} (h : e.Built) : e.WellNamed := by
  obtain ⟨name, named⟩ := h.namedBy
  exact named.wellNamed

/-- What is read from a file is the content of a document. -/
theorem exists_of_readDocument {fs : FileSystem} {path : Text} {es : List Entity}
    (h : readDocument fs path = .ok es) : ∃ t, fs.readText path = .ok t ∧ Document.parse t = .ok es := by
  unfold readDocument at h
  split at h
  · exact absurd h (by simp)
  · next t ht =>
    split at h
    · exact absurd h (by simp)
    · next hp => exact ⟨t, ht, by rw [hp, Except.ok.inj h]⟩

namespace Registry
variable {r : Registry}

/-- A registry into which such entities are inserted one after the other. -/
inductive Built : Registry → Prop
  | empty : Built empty
  | insert {r : Registry} {e : Entity} : r.Built → e.Built → (r.insert e).Built

theorem Built.extend {es : List Entity} (h : ∀ e ∈ es, e.Built) (hr : r.Built) : (r.extend es).Built := by
  induction es generalizing r with
  | nil => exact hr
  | cons e es ih =>
    rw [List.forall_mem_cons] at h
    exact ih h.2 (hr.insert h.1)

theorem Built.extend_read {t : Text} {es : List Entity} (h : Document.parse t = .ok es) (hr : r.Built) :
    (r.extend es).Built :=
  hr.extend fun _ he => .read h he

/-- The registry of a document is such a registry. -/
theorem built_ofText {t : Text} (h : ofText t = .ok r) : r.Built := by
  obtain ⟨es, hp, hr⟩ := bind_eq_ok_iff.1 h
  obtain rfl := Except.ok.inj hr
  exact Built.empty.extend_read hp

theorem Built.addFile {fs : FileSystem} {path : Text} {r' : Registry} (hr : r.Built)
    (h : r.addFile fs path = .ok r') : r'.Built := by
  obtain ⟨es, hes, h⟩ := bind_eq_ok_iff.1 h
  obtain rfl := Except.ok.inj h
  obtain ⟨t, -, hp⟩ := exists_of_readDocument hes
  exact hr.extend_read hp

/-- So is the registry of a file or of a directory. -/
theorem built_ofPath {fs : FileSystem} {path : Text} (h : ofPath fs path = .ok r) : r.Built := by
  unfold ofPath at h
  split at h
  · exact foldlM_invariant (fun hr step => hr.addFile step) _ h .empty
  · exact Built.empty.addFile h

theorem wellNamed_insert {e : Entity} (hr : r.WellNamed) (he : e.WellNamed) : (r.insert e).WellNamed := by
  intro d hd
  rcases mem_insertIn hd with rfl | hd
  · exact he
  · exact hr d hd

theorem Built.wellNamed (h : r.Built) : r.WellNamed := by
  induction h with
  | empty => exact fun e he => absurd he (by simp [Registry.empty])
  | insert _ he ih => exact wellNamed_insert ih he.wellNamed

end Registry

/-! ## Names that are tried -/

/-- The names that a loader tries for a reference used in a scope: the reference itself, and inside the scope if
it is short. -/
def Loader.Tries (reference scope name : Text) : Prop :=
  name = Name.normalize reference ∨ Name.isQualified reference = false ∧ name = Name.join scope reference

namespace Loader
variable {reference scope name : Text}

instance : Decidable (Tries reference scope name) := inferInstanceAs (Decidable (_ ∨ _ ∧ _))

theorem tries_of_mem_candidates (h : name ∈ candidates reference scope) : Tries reference scope name := by
  unfold candidates at h
  split at h
  · exact Or.inl (List.mem_singleton.1 h)
  · next short =>
    rw [Bool.or_eq_true, not_or, Bool.not_eq_true] at short
    rcases List.mem_cons.1 h with rfl | h
    · exact Or.inr ⟨short.1, rfl⟩
    · exact Or.inl (List.mem_singleton.1 h)

/-- The names that are tried for a reference without blanks have its short name. -/
theorem short_of_tries (unblank : ∀ c ∈ reference, Text.isBlank c = false) (h : Tries reference scope name) :
    Name.short name = Name.short reference := by
  rcases h with rfl | ⟨-, rfl⟩
  · exact Name.short_normalize unblank
  · exact Name.short_join unblank scope

end Loader

/-! ## Answers -/

/-- A valid entity of this qualified name, named by its last segment. -/
structure Entity.AnswersTo (e : Entity) (name : Text) : Prop where
  qualified : e.qualifiedName = name
  short : e.shortName = Name.short e.qualifiedName
  valid : e.validate = .ok ()

namespace Registry
variable {r : Registry} {reference scope name : Text}

/-- The name of the only entity with the given short name. -/
def OnlyNamed (r : Registry) (short name : Text) : Prop :=
  ∃ e ∈ r.entities, e.shortName = short ∧ e.qualifiedName = name ∧ ∀ d ∈ r.entities, d.shortName = short → d = e

theorem onlyNamed_of_eq_some {short : Text} (h : r.onlyNamed short = some name) : r.OnlyNamed short name := by
  obtain ⟨e, single, hn⟩ := onlyNamed_eq_some_iff.1 h
  have only : ∀ d ∈ r.entities, d.shortName = short → d = e := by
    intro d hd hs
    rw [← List.mem_singleton, ← single]
    exact List.mem_filter.2 ⟨hd, decide_eq_true hs⟩
  have he : e ∈ r.entities.filter (·.shortName = short) := single ▸ List.mem_cons_self
  obtain ⟨he, hs⟩ := List.mem_filter.1 he
  exact ⟨e, he, of_decide_eq_true hs, hn, only⟩

/-- The only entity with a short name is found by it. -/
theorem onlyNamed_eq_some {short : Text} (distinct : r.names.Nodup) (h : r.OnlyNamed short name) :
    r.onlyNamed short = some name := by
  obtain ⟨e, he, hs, hq, only⟩ := h
  have alone : r.entities.filter (·.shortName = short) = [e] := by
    rw [← List.perm_singleton]
    refine (List.perm_ext_iff_of_nodup ((nodup_entities distinct).filter _) (List.nodup_singleton e)).2 fun d => ?_
    rw [List.mem_filter, List.mem_singleton, decide_eq_true_eq]
    constructor
    · exact fun ⟨hd, hshort⟩ => only d hd hshort
    · rintro rfl
      exact ⟨he, hs⟩
  exact onlyNamed_eq_some_iff.2 ⟨e, alone, hq⟩

theorem answer_of_resolve (built : r.Built) (unblank : ∀ c ∈ reference, Text.isBlank c = false)
    (h : r.resolve reference scope = some name) : Name.short name = Name.short reference ∧
      (Loader.Tries reference scope name ∨
        Name.isQualified reference = false ∧ r.OnlyNamed (Name.short reference) name) := by
  rcases resolve_cases h with ⟨hc, -⟩ | ⟨hq, ho⟩
  · have tried := Loader.tries_of_mem_candidates hc
    exact ⟨Loader.short_of_tries unblank tried, Or.inl tried⟩
  · have only : r.OnlyNamed (Name.short reference) name := onlyNamed_of_eq_some ho
    refine ⟨?_, Or.inr ⟨hq, only⟩⟩
    obtain ⟨e, he, hs, rfl, -⟩ := only
    exact (built.wellNamed e he).symm.trans hs

theorem answersTo_of_load (built : r.Built) {e : Entity} (h : r.load name = .ok e) : e.AnswersTo name := by
  unfold load at h
  split at h
  · exact absurd h (by simp)
  · next d hd =>
    split at h
    · next valid =>
      obtain rfl := Except.ok.inj h
      obtain ⟨hm, hn⟩ := mem_of_get? hd
      exact ⟨hn, built.wellNamed d hm, valid⟩
    · exact absurd h (by simp)

end Registry

namespace Directory
variable {fs : FileSystem} {d : Directory} {reference scope name : Text}

theorem answer_of_resolve (unblank : ∀ c ∈ reference, Text.isBlank c = false)
    (h : d.resolve fs reference scope = some name) :
    Name.short name = Name.short reference ∧ Loader.Tries reference scope name := by
  have tried := Loader.tries_of_mem_candidates (List.mem_of_find?_eq_some h)
  exact ⟨Loader.short_of_tries unblank tried, tried⟩

/-- Of well-named entities, the one that is picked is well named under the name it is picked for. -/
theorem wellNamed_of_pick? {es : List Entity} (hes : ∀ e ∈ es, e.WellNamed) {e : Entity}
    (h : pick? name es = some e) : e.qualifiedName = name ∧ e.WellNamed := by
  unfold pick? at h
  split at h
  · next found hf =>
    obtain rfl := Option.some.inj h
    exact ⟨by simpa using List.find?_some hf, hes _ (List.mem_of_find?_eq_some hf)⟩
  · obtain ⟨found, hf, rfl⟩ := Option.map_eq_some_iff.1 h
    have short : found.shortName = Name.short name := by simpa using List.find?_some hf
    exact ⟨rfl, short⟩

theorem answersTo_of_load {e : Entity} (h : d.load fs name = .ok e) : e.AnswersTo (Name.normalize name) := by
  unfold load at h
  split at h
  · exact absurd h (by simp)
  · obtain ⟨es, hes, h⟩ := bind_eq_ok_iff.1 h
    split at h
    · exact absurd h (by simp)
    · next picked =>
      split at h
      · next valid =>
        obtain rfl := Except.ok.inj h
        obtain ⟨t, -, hp⟩ := exists_of_readDocument hes
        obtain ⟨hn, hw⟩ := wellNamed_of_pick? (Document.parse_wellNamed hp) picked
        exact ⟨hn, hw, valid⟩
      · exact absurd h (by simp)

end Directory

end DeclGen
