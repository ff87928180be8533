import DeclGen.Proofs.Generation.Order
import DeclGen.Proofs.Loader.Answers

/-!
# Entities under their own names

The roots of a generation are the names of registered entities. From outside every scope a name is looked up under
its normal form, so an entity is found there if its name is its own normal form. A name that is made by normalizing
is, unless a separator at its start hid a blank. Then only the short name may still lead to the entity.

* `Registry.Finds` : a name is found under itself; `Registry.resolve_self_iff` : this is what resolving does;
* `Entity.Built.normal_iff` : which names of entities are normal forms;
* `Registry.Finds.generateOne_ok`, `Registry.Finds.load_fails` : an entity that is found is generated, or something
  that it leads to cannot be loaded;
* `outputs_root_iff` : a closure starts with the file of the entity iff it is found;
* `exists_generateDocument_of_finds` : a document is generated if its entities are found;
* `roots_found_iff` : all of this together.
-/

namespace DeclGen

/-- The name that an entity is given is a normal form iff no blank stands at its start. -/
theorem Entity.Built.normal_iff {e : Entity} (h : e.Built) :
    Name.normalize e.qualifiedName = e.qualifiedName ↔ ∀ c ∈ e.qualifiedName.head?, Text.isBlank c = false := by
  obtain ⟨name, named⟩ := h.namedBy
  rw [named.qualifiedName]
  exact Name.normalize_normalize_iff

namespace Registry
variable {r : Registry} {e : Entity} {name : Text}

/-! ## Looking up names -/

/-- The name leads from outside every scope to the entity of this name: it is a normal form, or else its normal form
names nothing and it is the name of the only entity with its short name. -/
def Finds (r : Registry) (name : Text) : Prop :=
  Name.normalize name = name ∨
    r.contains (Name.normalize name) = false ∧ Name.isQualified name = false ∧ r.OnlyNamed (Name.short name) name

/-- A registered name is resolved to itself iff it is found. -/
theorem resolve_self_iff (distinct : r.names.Nodup) (registered : r.contains name = true) :
    r.resolve name [] = some name ↔ r.Finds name := by
  by_cases normal : Name.normalize name = name
  · exact iff_of_true (resolve_self registered normal) (Or.inl normal)
  · rw [resolve_outside, Finds, or_iff_right normal]
    cases taken : r.contains (Name.normalize name) with
    | true => exact iff_of_false (fun h => normal (Option.some.inj h)) (by simp)
    | false =>
      cases qualified : Name.isQualified name with
      | true => simp
      | false =>
        simp only [Bool.false_eq_true, if_false, true_and]
        exact ⟨onlyNamed_of_eq_some, onlyNamed_eq_some distinct⟩

/-! ## Generating entities -/

section Roots
variable {render : Renderer} {g : Generation} (distinct : r.names.Nodup) (he : e ∈ r.entities)
include distinct he

theorem Finds.resolves (found : r.Finds e.qualifiedName) : r.resolve e.qualifiedName [] = some e.qualifiedName :=
  (resolve_self_iff distinct (contains_of_mem he)).2 found

/-- Alone, a valid entity that is found is generated. -/
theorem Finds.generateOne_ok (found : r.Finds e.qualifiedName) (valid : e.validate = .ok ()) (render : Renderer) :
    generateOne r.loader render e.qualifiedName = .ok (render e.resolve) :=
  DeclGen.generateOne_ok (found.resolves distinct he) (load_of_valid distinct he valid)

/-- With what it leads to, an entity that is found fails only if something of this cannot be loaded. -/
theorem Finds.load_fails (found : r.Finds e.qualifiedName) {error : GenerationError}
    (h : generateClosure r.loader render e.qualifiedName = .error error) :
    ∃ name n cause, name ∈ r.reached (fun _ => true) e.qualifiedName n ∧ r.load name = .error cause ∧
      error = .load cause := by
  have resolved := found.resolves distinct he
  rcases generateClosure_error h with ⟨lost, -⟩ | ⟨start, name, n, cause, hn, reached, failed, rfl⟩
  · exact absurd (lost.symm.trans resolved) (by simp)
  · obtain rfl : start = e.qualifiedName := Option.some.inj (hn.symm.trans resolved)
    exact ⟨name, n, cause, reached, failed, rfl⟩

/-- The first file of a closure is that of its root iff the root is found. -/
theorem outputs_root_iff (h : generateClosure r.loader render e.qualifiedName = .ok g) :
    (∃ more, g.outputs = ⟨Name.short e.qualifiedName, e.qualifiedName, render e.resolve⟩ :: more) ↔
      r.Finds e.qualifiedName := by
  obtain ⟨o, more, outputs, resolved, short⟩ := generateClosure_first r.loader_bounded h
  rw [← resolve_self_iff distinct (contains_of_mem he)]
  constructor
  · rintro ⟨more', same⟩
    obtain ⟨rfl, -⟩ := List.cons.inj (outputs.symm.trans same)
    exact resolved
  · intro found
    have own : e.qualifiedName = o.owner := Option.some.inj (found.symm.trans resolved)
    obtain ⟨d, rendered, -⟩ := generateClosure_closed r.loader_bounded h o (outputs ▸ List.mem_cons_self)
    have loaded := get?_of_load rendered.load
    rw [← own, get?_of_mem distinct he] at loaded
    obtain rfl := Option.some.inj loaded
    refine ⟨more, outputs.trans ?_⟩
    rw [own, ← short, ← rendered.text]

end Roots

end Registry

/-! ## Documents -/

/-- A document is generated if its entities are valid and found, and for each of them there is a file of its short
name. -/
theorem exists_generateDocument_of_finds {t : Text} {es : List Entity} (hes : Document.parse t = .ok es)
    (valid : validateAll es = .ok ()) (found : ∀ e ∈ es, (Registry.empty.extend es).Finds e.qualifiedName) :
    ∃ g, generateDocument t = .ok g ∧ ∀ e ∈ es, g.Holds e.shortName := by
  obtain ⟨valid', names⟩ := validateAll_eq_ok_iff.1 valid
  have distinct := Registry.nodup_names_ofList es
  have entities := Registry.entities_ofList names
  have closures : ∀ e ∈ es, ∃ c, closureOf es e = .ok c := by
    intro e he
    cases h : closureOf es e with
    | ok c => exact ⟨c, rfl⟩
    | error error =>
      have registered : e ∈ (Registry.empty.extend es).entities := entities.symm ▸ he
      obtain ⟨name, n, cause, reached, failed, -⟩ := (found e he).load_fails distinct registered h
      obtain ⟨d, hd⟩ := Registry.get?_of_contains
        (Registry.contains_of_reached (Registry.contains_of_mem registered) reached)
      obtain ⟨hm, rfl⟩ := Registry.mem_of_get? hd
      rw [Registry.load_of_valid distinct hm (valid' d (entities ▸ hm))] at failed
      exact absurd failed (by simp)
  obtain ⟨g, hg⟩ := exists_generateDocument hes valid closures
  refine ⟨g, hg, fun e he => ?_⟩
  obtain ⟨es', cs, hes', -, hcs, rfl⟩ := generateDocument_eq_ok hg
  obtain rfl := Except.ok.inj (hes.symm.trans hes')
  obtain ⟨c, hc, closure⟩ := exists_of_mapM hcs e he
  obtain ⟨more, outputs⟩ := (Registry.outputs_root_iff distinct (entities.symm ▸ he) closure).2 (found e he)
  refine Generation.holds_foldl_merge_iff.2 (Or.inr ⟨c, hc, _, outputs ▸ List.mem_cons_self, ?_⟩)
  exact (Document.parse_wellNamed hes e he).symm

/-- **Registered entities and their names.** Whatever is inserted, an entity of the registry is resolved from its own
name iff `Registry.Finds` says so, which a name given by `Entity.ofName` or a document fails only with a blank at its
start. Where it is found, its closure starts with its own file or fails in loading an entity that it leads to, and
nowhere else; a document with valid entities that are all found is generated. -/
theorem roots_found_iff (es : List Entity) :
    (∀ e ∈ (Registry.empty.extend es).entities,
      let r := Registry.empty.extend es
      (r.resolve e.qualifiedName [] = some e.qualifiedName ↔ r.Finds e.qualifiedName) ∧
      (e.Built → (Name.normalize e.qualifiedName = e.qualifiedName ↔
        ∀ c ∈ e.qualifiedName.head?, Text.isBlank c = false)) ∧
      ∀ render : Renderer,
        (∀ g, generateClosure r.loader render e.qualifiedName = .ok g →
          ((∃ more, g.outputs = ⟨Name.short e.qualifiedName, e.qualifiedName, render e.resolve⟩ :: more) ↔
            r.Finds e.qualifiedName)) ∧
        (r.Finds e.qualifiedName →
          (e.validate = .ok () → generateOne r.loader render e.qualifiedName = .ok (render e.resolve)) ∧
          ∀ error, generateClosure r.loader render e.qualifiedName = .error error →
            ∃ name n cause, name ∈ r.reached (fun _ => true) e.qualifiedName n ∧ r.load name = .error cause ∧
              error = .load cause)) ∧
    ∀ t, Document.parse t = .ok es → validateAll es = .ok () →
      (∀ e ∈ es, (Registry.empty.extend es).Finds e.qualifiedName) →
        ∃ g, generateDocument t = .ok g ∧ ∀ e ∈ es, g.Holds e.shortName := by
  refine ⟨fun e he => ?_, fun t hes valid found => exists_generateDocument_of_finds hes valid found⟩
  have distinct := Registry.nodup_names_ofList es
  refine ⟨Registry.resolve_self_iff distinct (Registry.contains_of_mem he), fun built => built.normal_iff,
    fun render => ⟨fun g closure => Registry.outputs_root_iff distinct he closure, fun found => ⟨?_, ?_⟩⟩⟩
  · exact fun valid => found.generateOne_ok distinct he valid render
  · exact fun error failed => found.load_fails distinct he failed

/-- A separator that hides a blank: the entity has this name, but nothing resolves to it and its document is not
generated. Without a scope, the short name leads to such an entity. The last registry fails at its root, which has no
name. -/
theorem roots_found_iff_blank :
    (∃ t e, Document.parse t = .ok [e] ∧ (Registry.empty.extend [e]).resolve e.qualifiedName [] = none ∧
      ¬ (Registry.empty.extend [e]).Finds e.qualifiedName ∧ Name.normalize e.qualifiedName ≠ e.qualifiedName ∧
      generateDocument t = .error (.notFound e.qualifiedName)) ∧
    (∃ t d e g more, Document.parse t = .ok [d, e] ∧
      Name.normalize d.qualifiedName = d.qualifiedName ∧ Name.normalize e.qualifiedName ≠ e.qualifiedName ∧
      generateDocument t = .ok g ∧ g.Holds d.shortName ∧ g.Holds e.shortName ∧
      let r := Registry.empty.extend [d, e]
      generateOne r.loader Resolved.qualifiedName e.qualifiedName = .ok e.qualifiedName ∧
      ∃ c, generateClosure r.loader Resolved.qualifiedName e.qualifiedName = .ok c ∧
        c.outputs = ⟨e.shortName, e.qualifiedName, e.qualifiedName⟩ :: more) ∧
    ∃ e name cause, generateClosure (Registry.empty.extend [e]).loader Resolved.qualifiedName e.qualifiedName =
      .error (.load cause) ∧ (Registry.empty.extend [e]).load name = .error cause := by
  refine ⟨?_, ?_, ?_⟩
  · let t : Text := "<entity name=\"N\" namespace=\"\\ \\ App\"/>".toList
    let e : Entity := ⟨['N'], " App\\N".toList, .record, [], [], none⟩
    have hes : Document.parse t = .ok [e] := eq_ok_of_toOption (by decide +kernel)
    have valid : validateAll [e] = .ok () := eq_ok_of_toOption (by decide +kernel)
    have lost : (Registry.empty.extend [e]).resolve e.qualifiedName [] = none := by decide +kernel
    obtain ⟨found, normal, -⟩ := (roots_found_iff [e]).1 e List.mem_cons_self
    refine ⟨t, e, hes, lost, fun h => ?_, fun h => ?_, ?_⟩
    · exact absurd (lost.symm.trans (found.2 h)) (by simp)
    · exact absurd ((normal (.read hes List.mem_cons_self)).1 h ' ' rfl) (by decide)
    · have unresolved : generateClosure (Registry.empty.extend [e]).loader (TypeScript.render .default)
          e.qualifiedName = .error (.notFound e.qualifiedName) := generateClosure_unresolved lost
      simp only [generateDocument, hes, valid, generateAll, List.map_cons, List.foldlM_cons, unresolved]
      rfl
  · let t : Text := "<entity name=\"App\\Shop\\Item\"/><entity name=\"\\ \\ N\"/>".toList
    let d : Entity := ⟨"Item".toList, "App\\Shop\\Item".toList, .record, [], [], none⟩
    let e : Entity := ⟨['N'], " N".toList, .record, [], [], none⟩
    have hes : Document.parse t = .ok [d, e] := eq_ok_of_toOption (by decide +kernel)
    have valid : validateAll [d, e] = .ok () := eq_ok_of_toOption (by decide +kernel)
    let r := Registry.empty.extend [d, e]
    obtain ⟨foundItem, normalItem, -⟩ := (roots_found_iff [d, e]).1 d List.mem_cons_self
    obtain ⟨found, normal, generated⟩ := (roots_found_iff [d, e]).1 e (List.mem_cons_of_mem d List.mem_cons_self)
    have itemFound : r.Finds d.qualifiedName := foundItem.1 (by decide +kernel)
    have shortFound : r.Finds e.qualifiedName := found.1 (by decide +kernel)
    obtain ⟨g, hg, files⟩ := (roots_found_iff [d, e]).2 t hes valid (by simp [itemFound, shortFound, r])
    obtain ⟨starts, alone⟩ := generated Resolved.qualifiedName
    have closure : generateClosure r.loader Resolved.qualifiedName e.qualifiedName =
        .ok ⟨[⟨['N'], " N".toList, " N".toList⟩], [], []⟩ := eq_ok_of_toOption (by decide +kernel)
    obtain ⟨more, outputs⟩ := (starts _ closure).2 shortFound
    refine ⟨t, d, e, g, more, hes, ?_, fun h => ?_, hg, files d (by simp), files e (by simp), ?_, _, closure,
      outputs⟩
    · exact (normalItem (.read hes (by simp))).2 fun c hc => Option.some.inj hc ▸ by decide
    · exact absurd ((normal (.read hes (by simp))).1 h ' ' rfl) (by decide)
    · exact (alone shortFound).1 (eq_ok_of_toOption (by decide +kernel))
  · let e : Entity := .ofName .record []
    obtain ⟨found, -, generated⟩ := (roots_found_iff [e]).1 e List.mem_cons_self
    obtain ⟨-, alone⟩ := generated Resolved.qualifiedName
    cases closure : generateClosure (Registry.empty.extend [e]).loader Resolved.qualifiedName e.qualifiedName with
    | ok g =>
      have fails : (generateClosure (Registry.empty.extend [e]).loader Resolved.qualifiedName
        e.qualifiedName).toOption = none := by decide +kernel
      rw [closure] at fails
      exact absurd fails (by simp [Except.toOption])
    | error error =>
      obtain ⟨name, -, cause, -, failed, rfl⟩ := (alone (found.1 (by decide +kernel))).2 error closure
      exact ⟨e, name, cause, closure, failed⟩

end DeclGen
