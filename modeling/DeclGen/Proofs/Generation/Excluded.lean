import DeclGen.Proofs.Generation.BreadthFirst
import DeclGen.Proofs.Loader.Order

/-!
# Excluded fields

An excluded field counts with its name only, when the entity is checked. Redacting takes everything else
from such fields; nothing that a closure asks a registry for changes by it, and entities that differ in
excluded fields only are the same once they are redacted.

* `Field.ShownAlike`, `Entity.ShownAlike`, `Registry.ShownAlike` : alike except in excluded fields;
* `Field.redact`, `Entity.redact`, `Registry.redact` : excluded fields keep their names only;
* `Entity.validate_redact`, `Entity.resolve_redact` : an entity is checked and read as before;
* `generateClosure_congr` : what a closure asks a loader for;
* `closure_hides_excluded` : excluded fields do not leak into closures.
-/

namespace DeclGen

/-! ## Alike except in excluded fields -/

/-- The fields are the same, or both are excluded and have one name. -/
def Field.ShownAlike (f f' : Field) : Prop :=
  f = f' ∨ f.name = f'.name ∧ f.excluded = true ∧ f'.excluded = true

instance (f f' : Field) : Decidable (f.ShownAlike f') :=
  inferInstanceAs (Decidable (f = f' ∨ f.name = f'.name ∧ f.excluded = true ∧ f'.excluded = true))

/-- The entities are the same except in excluded fields. -/
structure Entity.ShownAlike (e e' : Entity) : Prop where
  shortName : e.shortName = e'.shortName
  qualifiedName : e.qualifiedName = e'.qualifiedName
  kind : e.kind = e'.kind
  fields : List.Forall₂ Field.ShownAlike e.fields e'.fields
  members : e.members = e'.members
  doc : e.doc = e'.doc

instance (e e' : Entity) : Decidable (e.ShownAlike e') :=
  decidable_of_iff (e.shortName = e'.shortName ∧ e.qualifiedName = e'.qualifiedName ∧ e.kind = e'.kind ∧
      List.Forall₂ Field.ShownAlike e.fields e'.fields ∧ e.members = e'.members ∧ e.doc = e'.doc)
    ⟨fun ⟨a, b, c, d, e, f⟩ => ⟨a, b, c, d, e, f⟩, fun h => ⟨h.1, h.2, h.3, h.4, h.5, h.6⟩⟩

/-- The registries hold the same entities, in whatever order, except in excluded fields. -/
structure Registry.ShownAlike (r r' : Registry) : Prop where
  forth : ∀ e ∈ r.entities, ∃ e' ∈ r'.entities, e.ShownAlike e'
  back : ∀ e' ∈ r'.entities, ∃ e ∈ r.entities, e.ShownAlike e'

instance (r r' : Registry) : Decidable (r.ShownAlike r') :=
  decidable_of_iff ((∀ e ∈ r.entities, ∃ e' ∈ r'.entities, e.ShownAlike e') ∧
      ∀ e' ∈ r'.entities, ∃ e ∈ r.entities, e.ShownAlike e')
    ⟨fun ⟨forth, back⟩ => ⟨forth, back⟩, fun h => ⟨h.forth, h.back⟩⟩

/-! ## Redaction -/

/-- An excluded field without type and documentation. -/
def Field.redact (f : Field) : Field :=
  if f.excluded then ⟨f.name, [], none, false, true, none⟩ else f

/-- The entity with its excluded fields redacted. -/
def Entity.redact (e : Entity) : Entity := { e with fields := e.fields.map Field.redact }

/-- The registry with all its entities redacted. -/
def Registry.redact (r : Registry) : Registry := ⟨r.entities.map Entity.redact⟩

namespace Field

@[simp] theorem redact_name (f : Field) : f.redact.name = f.name := by
  unfold redact
  split <;> rfl

@[simp] theorem redact_excluded (f : Field) : f.redact.excluded = f.excluded := by
  unfold redact
  split
  · next h => exact h.symm
  · rfl

theorem redact_of_shown {f : Field} (h : f.excluded = false) : f.redact = f := by simp [redact, h]

theorem ShownAlike.redact_eq {f f' : Field} (h : f.ShownAlike f') : f.redact = f'.redact := by
  rcases h with rfl | ⟨hname, hf, hf'⟩
  · rfl
  · rw [redact, redact, if_pos hf, if_pos hf', hname]

theorem map_redact_eq {fs fs' : List Field} (h : List.Forall₂ ShownAlike fs fs') :
    fs.map redact = fs'.map redact := by
  induction h with
  | nil => rfl
  | cons hf _ ih => rw [List.map_cons, List.map_cons, hf.redact_eq, ih]

theorem filter_redact (fs : List Field) :
    (fs.map redact).filter (fun f => !f.excluded) = fs.filter fun f => !f.excluded := by
  induction fs with
  | nil => rfl
  | cons f fs ih =>
    cases hf : f.excluded with
    | true => simp [hf, ih]
    | false => simp [redact_of_shown hf, hf, ih]

end Field

namespace Entity

@[simp] theorem redact_qualifiedName (e : Entity) : e.redact.qualifiedName = e.qualifiedName := rfl

@[simp] theorem redact_shortName (e : Entity) : e.redact.shortName = e.shortName := rfl

theorem ShownAlike.redact_eq {e e' : Entity} (h : e.ShownAlike e') : e.redact = e'.redact := by
  rw [redact, redact, Field.map_redact_eq h.fields, h.shortName, h.qualifiedName, h.kind, h.members,
    h.doc]

theorem checkFields_redact (entity : Text) (fs : List Field) : ∀ seen,
    checkFields entity seen (fs.map Field.redact) = checkFields entity seen fs := by
  induction fs with
  | nil => exact fun _ => rfl
  | cons f fs ih =>
    intro seen
    rw [List.map_cons, checkFields, checkFields, Field.redact_name, ih]

/-- The check of an entity looks at the names of excluded fields only. -/
theorem validate_redact (e : Entity) : e.redact.validate = e.validate := by
  unfold validate
  simp only [redact, checkFields_redact]
  rfl

theorem visibleFields_redact (e : Entity) : e.redact.visibleFields = e.visibleFields := by
  unfold visibleFields
  simp only [redact, Field.filter_redact]

/-- Redaction takes nothing from an entity that a closure reads. -/
theorem resolve_redact (e : Entity) : e.redact.resolve = e.resolve := by
  have references : e.redact.dependencyReferences = e.dependencyReferences := by
    unfold dependencyReferences
    rw [visibleFields_redact]
    rfl
  unfold resolve
  rw [visibleFields_redact, references]
  rfl

end Entity

/-! ## Loaders -/

namespace Closure
variable {loader loader' : Loader}

theorem visit_congr (hr : loader.resolve = loader'.resolve)
    (hl : loadResolved loader = loadResolved loader') (render : Renderer) :
    visit loader render = visit loader' render := by
  have hfollow : follow loader = follow loader' := by
    unfold follow
    rw [hr]
  have hnote : noteShadowed loader = noteShadowed loader' := by
    unfold noteShadowed shadowing
    rw [hr]
  have hemit : emit loader render = emit loader' render := by
    unfold emit
    rw [hfollow, hnote]
  unfold visit
  rw [hl, hemit]

theorem run_congr (hr : loader.resolve = loader'.resolve)
    (hl : loadResolved loader = loadResolved loader') (render : Renderer) (fuel : Nat) :
    ∀ s, run loader render fuel s = run loader' render fuel s := by
  induction fuel with
  | zero => exact fun _ => rfl
  | succ fuel ih =>
    intro s
    unfold run
    simp only [visit_congr hr hl, ih]

end Closure

/-- A closure asks its loader what references stand for and what the types of entities are. -/
theorem generateClosure_congr {loader loader' : Loader} (hr : loader.resolve = loader'.resolve)
    (hl : loadResolved loader = loadResolved loader') (hb : loader.bound = loader'.bound) :
    generateClosure loader = generateClosure loader' := by
  funext render root
  unfold generateClosure resolveRoot
  simp only [hr, hb, Closure.run_congr hr hl]

namespace Registry
variable (r : Registry)

theorem names_redact : r.redact.names = r.names := by simp [redact, names]

theorem get?_redact (name : Text) : r.redact.get? name = (r.get? name).map Entity.redact :=
  List.find?_map

theorem contains_redact : r.redact.contains = r.contains := by
  funext name
  rw [contains, contains, get?_redact, Option.isSome_map]

theorem onlyNamed_redact (short : Text) : r.redact.onlyNamed short = r.onlyNamed short := by
  have named : r.redact.entities.filter (·.shortName = short) =
      (r.entities.filter (·.shortName = short)).map Entity.redact := List.filter_map
  rw [onlyNamed, onlyNamed, named]
  generalize r.entities.filter (·.shortName = short) = es
  rcases es with _ | ⟨e, _ | ⟨d, es⟩⟩ <;> rfl

theorem resolve_redact : r.redact.resolve = r.resolve := by
  funext reference scope
  rw [resolve, resolve, contains_redact, onlyNamed_redact]

theorem load_redact (name : Text) : r.redact.load name = (r.load name).map Entity.redact := by
  rw [load, load, get?_redact]
  cases r.get? name with
  | none => rfl
  | some e =>
    simp only [Option.map_some, Entity.validate_redact]
    cases e.validate <;> rfl

theorem loadResolved_redact : loadResolved r.redact.loader = loadResolved r.loader := by
  funext name
  have redacted : r.redact.loader.load name = (r.loader.load name).map Entity.redact := r.load_redact name
  rw [loadResolved, loadResolved, redacted]
  cases r.loader.load name with
  | error error => rfl
  | ok e => exact congrArg Except.ok e.resolve_redact

theorem generateClosure_redact : generateClosure r.redact.loader = generateClosure r.loader :=
  generateClosure_congr r.resolve_redact r.loadResolved_redact (List.length_map Entity.redact)

variable {r} {r' : Registry}

/-- Registries that differ in excluded fields only rearrange each other once they are redacted. -/
theorem ShownAlike.rearranges (h : r.ShownAlike r') (hn : r.names.Nodup) (hn' : r'.names.Nodup) :
    r.redact.Rearranges r'.redact := by
  refine rearranges_of_mem_iff (r.names_redact ▸ hn) (r'.names_redact ▸ hn') fun d => ?_
  constructor
  · intro hd
    obtain ⟨e, he, rfl⟩ := List.mem_map.1 hd
    obtain ⟨e', he', alike⟩ := h.forth e he
    exact List.mem_map.2 ⟨e', he', alike.redact_eq.symm⟩
  · intro hd
    obtain ⟨e', he', rfl⟩ := List.mem_map.1 hd
    obtain ⟨e, he, alike⟩ := h.back e' he'
    exact List.mem_map.2 ⟨e, he, alike.redact_eq⟩

end Registry

/-- **Excluded fields do not leak.** Two registries that hold the same entities except for what is
declared of excluded fields, their names apart, have the same closure of every root: the same files,
unresolved references and collisions, or the same error. -/
theorem closure_hides_excluded {es es' : List Entity}
    (alike : (Registry.empty.extend es).ShownAlike (Registry.empty.extend es'))
    (render : Renderer) (root : Text) :
    generateClosure (Registry.empty.extend es).loader render root =
      generateClosure (Registry.empty.extend es').loader render root := by
  have same := alike.rearranges (Registry.nodup_names_ofList es) (Registry.nodup_names_ofList es')
  rw [← Registry.generateClosure_redact, same.loader_eq, Registry.generateClosure_redact]

/-- Two registries in opposite orders: the root has an excluded field that refers to an entity in one,
and to nothing in the other. Neither closure knows of it. -/
theorem closure_hides_excluded_reference :
    ∃ es es' : List Entity, ∃ g,
      (Registry.empty.extend es).ShownAlike (Registry.empty.extend es') ∧
      (∃ e ∈ es, ∃ f ∈ e.fields, f.type.references = [['S']]) ∧
      (∃ e ∈ es', ∃ f ∈ e.fields, f.type.references = [['X']]) ∧
      generateClosure (Registry.empty.extend es).loader (TypeScript.render .default) ['R'] = .ok g ∧
      generateClosure (Registry.empty.extend es').loader (TypeScript.render .default) ['R'] = .ok g ∧
      g.owners = [['R'], ['A']] ∧ g.unresolved = [] := by
  let root (secret : Field) : Entity :=
    ((Entity.ofReferences ['R'] [['A']]).addField secret).addField ⟨['n'], ['i', 'n', 't'], none, true,
      false, none⟩
  let a : Entity := .ofReferences ['A'] []
  let s : Entity := .ofReferences ['S'] [['R']]
  let es : List Entity := [root ⟨['s'], ['S'], none, false, true, none⟩, a, s]
  let es' : List Entity := [s, a, root ⟨['s'], ['a', 'n', 'y'], some ['?', 'X'], true, true, some ['d']⟩]
  let g : Generation := ⟨[⟨['R'], ['R'], TypeScript.render .default (es.headD a).resolve⟩,
    ⟨['A'], ['A'], TypeScript.render .default a.resolve⟩], [], []⟩
  have alike : (Registry.empty.extend es).ShownAlike (Registry.empty.extend es') := by decide +kernel
  have hg : generateClosure (Registry.empty.extend es).loader (TypeScript.render .default) ['R'] = .ok g :=
    eq_ok_of_toOption (by decide +kernel)
  refine ⟨es, es', g, alike, by decide +kernel, by decide +kernel, hg, ?_, rfl, rfl⟩
  rw [← closure_hides_excluded alike, hg]

end DeclGen
