import DeclGen.Entity.Validation
import DeclGen.Proofs.Distinct
import DeclGen.Proofs.Outcome
import DeclGen.Proofs.Text

/-!
# Valid entities

Each check goes through a list with what it has seen in hand and ends at the first thing wrong.

* `Naming` : names none of which is blank or stands twice; `Entity.Valid` : what is asked of an entity;
* `checkFields_eq_ok_iff`, `checkMembers_eq_ok_iff`, `validate_eq_ok_iff` : an entity passes iff it is valid;
* `exists_member_of_validate` : a value is said not to fit only if it does not;
* `validateFrom_eq_ok_iff`, `validateAll_eq_ok_iff` : a list passes iff its entities do, and their qualified names are
  distinct;
* `Entity.Fault`, `validateFrom_eq_error_iff` : the error for a list is that of the first fault in it;
* `validation_exact` : all of this together.
-/

namespace DeclGen

/-! ## Entities -/

/-- Names that tell things apart: none is blank, and none stands twice. -/
def Naming (names : List Text) : Prop := (∀ name ∈ names, ¬ Text.Blank name) ∧ names.Nodup

/-- Integers fit in enumerations of integers, and nothing else does; elsewhere texts fit. -/
theorem EnumValue.fits_iff {backing : Option Backing} {value : EnumValue} :
    value.fits backing = true ↔ ((∃ n, value = .integer n) ↔ backing = some .integer) := by
  cases value with
  | text t => simp [fits]
  | integer n => simp [fits]

namespace Entity
variable {entity : Text} {backing : Option Backing}

theorem checkFields_eq_ok_iff {seen : List Text} {fs : List Field} :
    checkFields entity seen fs = .ok () ↔ (∀ f ∈ fs, ¬ Text.Blank f.name) ∧ Fresh seen (fs.map Field.name) := by
  induction fs generalizing seen with
  | nil => simp [checkFields, fresh_nil]
  | cons f fs ih =>
    rw [checkFields, guard_eq_ok_iff, guard_eq_ok_iff, Text.trim_eq_nil_iff, ih, List.map_cons, fresh_cons,
      List.forall_mem_cons]
    exact ⟨fun ⟨named, unseen, others, fresh⟩ => ⟨⟨named, others⟩, unseen, fresh⟩,
      fun ⟨⟨named, others⟩, unseen, fresh⟩ => ⟨named, unseen, others, fresh⟩⟩

theorem checkMembers_eq_ok_iff {seen ms : List Member} : checkMembers entity backing seen ms = .ok () ↔
    (∀ m ∈ ms, ¬ Text.Blank m.name ∧ m.value.fits backing = true) ∧
      Fresh (seen.map Member.name) (ms.map Member.name) ∧ Fresh (seen.map Member.value) (ms.map Member.value) := by
  induction ms generalizing seen with
  | nil => simp [checkMembers, fresh_nil]
  | cons m ms ih =>
    rw [checkMembers, guard_eq_ok_iff, guard_eq_ok_iff, guard_eq_ok_iff, guard_eq_ok_iff, Text.trim_eq_nil_iff, ih,
      List.map_cons, List.map_cons, List.map_cons, List.map_cons, fresh_cons, fresh_cons, List.forall_mem_cons,
      Bool.not_eq_true', Bool.not_eq_false]
    constructor
    · rintro ⟨named, newName, fits, newValue, others, names, values⟩
      exact ⟨⟨⟨named, fits⟩, others⟩, ⟨newName, names⟩, newValue, values⟩
    · rintro ⟨⟨⟨named, fits⟩, others⟩, ⟨newName, names⟩, newValue, values⟩
      exact ⟨named, newName, fits, newValue, others, names, values⟩

/-- The entity and what it holds have names that tell them apart. In an enumeration no value stands twice, and all of
them are integers, or none, as the backing tells. -/
def Valid (e : Entity) : Prop :=
  ¬ Text.Blank e.shortName ∧
    match e.kind with
    | .record => Naming (e.fields.map Field.name)
    | .enumeration backing => Naming (e.members.map Member.name) ∧ (e.members.map Member.value).Nodup ∧
        ∀ m ∈ e.members, (∃ n, m.value = .integer n) ↔ backing = some .integer

theorem validate_eq_ok_iff {e : Entity} : e.validate = .ok () ↔ e.Valid := by
  rw [validate, guard_eq_ok_iff, Text.trim_eq_nil_iff, Valid]
  refine and_congr_right fun _ => ?_
  cases e.kind with
  | record =>
    show checkFields _ _ _ = _ ↔ Naming _
    rw [checkFields_eq_ok_iff, fresh_iff_nodup, Naming, List.forall_mem_map]
  | enumeration backing =>
    show checkMembers _ _ _ _ = _ ↔ Naming _ ∧ _
    rw [checkMembers_eq_ok_iff, List.map_nil, List.map_nil, fresh_iff_nodup, fresh_iff_nodup, Naming,
      List.forall_mem_map]
    simp only [EnumValue.fits_iff]
    constructor
    · rintro ⟨each, names, values⟩
      exact ⟨⟨fun m hm => (each m hm).1, names⟩, values, fun m hm => (each m hm).2⟩
    · rintro ⟨⟨named, names⟩, values, fits⟩
      exact ⟨fun m hm => ⟨named m hm, fits m hm⟩, names, values⟩

/-! ## What is wrong with an entity -/

theorem exists_of_checkFields {seen : List Text} {fs : List Field} {error : SchemaError}
    (h : checkFields entity seen fs = .error error) :
    ∃ f ∈ fs, error = .namelessField entity ∨ error = .repeatedField entity f.name := by
  induction fs generalizing seen with
  | nil => exact absurd h (by simp [checkFields])
  | cons f fs ih =>
    rw [checkFields, guard_eq_error_iff, guard_eq_error_iff] at h
    rcases h with ⟨-, rfl⟩ | ⟨-, ⟨-, rfl⟩ | ⟨-, h⟩⟩
    · exact ⟨f, List.mem_cons_self, Or.inl rfl⟩
    · exact ⟨f, List.mem_cons_self, Or.inr rfl⟩
    · obtain ⟨g, hg, wrong⟩ := ih h
      exact ⟨g, List.mem_cons_of_mem f hg, wrong⟩

theorem exists_of_checkMembers {seen ms : List Member} {error : SchemaError}
    (h : checkMembers entity backing seen ms = .error error) : ∃ m ∈ ms, ∃ fault,
      error = .invalidMember entity m.name fault ∧ (fault = .wrongBacking → m.value.fits backing = false) := by
  induction ms generalizing seen with
  | nil => exact absurd h (by simp [checkMembers])
  | cons m ms ih =>
    rw [checkMembers, guard_eq_error_iff, guard_eq_error_iff, guard_eq_error_iff, guard_eq_error_iff,
      Bool.not_eq_true'] at h
    rcases h with ⟨-, rfl⟩ | ⟨-, ⟨-, rfl⟩ | ⟨-, ⟨misfit, rfl⟩ | ⟨-, ⟨-, rfl⟩ | ⟨-, h⟩⟩⟩⟩
    · exact ⟨m, List.mem_cons_self, .emptyName, rfl, by simp⟩
    · exact ⟨m, List.mem_cons_self, .repeatedName, rfl, by simp⟩
    · exact ⟨m, List.mem_cons_self, .wrongBacking, rfl, fun _ => misfit⟩
    · exact ⟨m, List.mem_cons_self, .repeatedValue, rfl, by simp⟩
    · obtain ⟨n, hn, wrong⟩ := ih h
      exact ⟨n, List.mem_cons_of_mem m hn, wrong⟩

theorem exists_member_of_validate {e : Entity} {member : Text}
    (h : e.validate = .error (.invalidMember entity member .wrongBacking)) :
    ∃ m ∈ e.members, m.name = member ∧ m.value.fits e.kind.backing = false := by
  rw [validate, guard_eq_error_iff] at h
  rcases h with ⟨-, h⟩ | ⟨-, h⟩
  · exact absurd h (by simp)
  · split at h
    · obtain ⟨f, -, h | h⟩ := exists_of_checkFields h
      · exact absurd h (by simp)
      · exact absurd h (by simp)
    · next backing kind =>
      obtain ⟨m, hm, fault, same, misfit⟩ := exists_of_checkMembers h
      obtain ⟨-, rfl, rfl⟩ := SchemaError.invalidMember.inj same
      exact ⟨m, hm, rfl, kind ▸ misfit rfl⟩

end Entity

/-! ## Lists of entities -/

theorem validateFrom_eq_ok_iff {seen : List Text} {es : List Entity} : validateFrom seen es = .ok () ↔
    (∀ e ∈ es, e.validate = .ok ()) ∧ Fresh seen (es.map Entity.qualifiedName) := by
  induction es generalizing seen with
  | nil => simp [validateFrom, fresh_nil]
  | cons e es ih =>
    rw [validateFrom, bind_eq_ok_iff, List.map_cons, fresh_cons, List.forall_mem_cons]
    simp only [guard_eq_ok_iff, ih]
    constructor
    · rintro ⟨_, valid, unseen, others, fresh⟩
      exact ⟨⟨valid, others⟩, unseen, fresh⟩
    · rintro ⟨⟨valid, others⟩, unseen, fresh⟩
      exact ⟨(), valid, unseen, others, fresh⟩

theorem validateAll_eq_ok_iff {es : List Entity} : validateAll es = .ok () ↔
    (∀ e ∈ es, e.validate = .ok ()) ∧ (es.map Entity.qualifiedName).Nodup := by
  rw [validateAll, validateFrom_eq_ok_iff, fresh_iff_nodup]

/-! ## The first fault -/

/-- What is wrong with an entity behind others of the given names: the entity itself, or that one of them has its
name. -/
def Entity.Fault (names : List Text) (e : Entity) (error : SchemaError) : Prop :=
  e.validate = .error error ∨
    e.validate = .ok () ∧ e.qualifiedName ∈ names ∧ error = .repeatedEntity e.qualifiedName

theorem Entity.fault_congr {names names' : List Text} (same : ∀ name, name ∈ names ↔ name ∈ names') {e : Entity}
    {error : SchemaError} : e.Fault names error ↔ e.Fault names' error := by
  rw [Fault, Fault, same]

section Faults
variable {seen : List Text} {e : Entity} {es : List Entity} {error : SchemaError}

theorem validateFrom_singleton_eq_error_iff : validateFrom seen [e] = .error error ↔ e.Fault seen error := by
  rw [validateFrom, Entity.Fault]
  cases e.validate with
  | error other => simp
  | ok valid =>
    by_cases repeated : e.qualifiedName ∈ seen
    · simp [repeated, eq_comm]
    · simp [repeated, validateFrom]

theorem validateFrom_cons :
    validateFrom seen (e :: es) = validateFrom seen [e] >>= fun _ => validateFrom (e.qualifiedName :: seen) es := by
  rw [validateFrom, validateFrom]
  cases e.validate with
  | error other => rfl
  | ok valid =>
    by_cases repeated : e.qualifiedName ∈ seen
    · simp [repeated]
    · simp [repeated, validateFrom]

/-- The error is that of the first fault: there is none before it. -/
theorem validateFrom_eq_error_iff : validateFrom seen es = .error error ↔ ∃ before e after, es = before ++ e :: after ∧
      validateFrom seen before = .ok () ∧ e.Fault (before.map Entity.qualifiedName ++ seen) error := by
  induction es generalizing seen with
  | nil => simp [validateFrom]
  | cons e es ih =>
    rw [validateFrom_cons, bind_eq_error_iff, validateFrom_singleton_eq_error_iff]
    have moved (before : List Entity) (name : Text) : name ∈ before.map Entity.qualifiedName ++ e.qualifiedName :: seen ↔
        name ∈ (e :: before).map Entity.qualifiedName ++ seen := by
      simp [or_left_comm]
    constructor
    · rintro (fault | ⟨_, first, later⟩)
      · exact ⟨[], e, es, rfl, rfl, fault⟩
      · obtain ⟨before, d, after, rfl, others, fault⟩ := ih.1 later
        refine ⟨e :: before, d, after, rfl, ?_, (Entity.fault_congr (moved before)).1 fault⟩
        rw [validateFrom_cons, first, ok_bind, others]
    · rintro ⟨_ | ⟨_, before⟩, d, after, parts, others, fault⟩
      · obtain ⟨rfl, rfl⟩ := List.cons.inj parts
        exact Or.inl fault
      · obtain ⟨rfl, rfl⟩ := List.cons.inj parts
        rw [validateFrom_cons] at others
        obtain ⟨_, first, others⟩ := bind_eq_ok_iff.1 others
        exact Or.inr ⟨(), first, ih.2 ⟨before, d, after, rfl, others, (Entity.fault_congr (moved before)).2 fault⟩⟩

end Faults

/-- **Validation is exact.** An entity passes iff it is valid, and a list iff its entities are valid and have distinct
qualified names. Otherwise the error is that of the first entity that is not valid or has the qualified name of an
earlier one. -/
theorem validation_exact :
    (∀ e : Entity, e.validate = .ok () ↔ e.Valid) ∧
    ∀ es : List Entity, (validateAll es = .ok () ↔ (∀ e ∈ es, e.Valid) ∧ (es.map Entity.qualifiedName).Nodup) ∧
      ∀ error, validateAll es = .error error ↔ ∃ before e after, es = before ++ e :: after ∧
        (∀ d ∈ before, d.Valid) ∧ (before.map Entity.qualifiedName).Nodup ∧
        (e.validate = .error error ∨ e.Valid ∧ e.qualifiedName ∈ before.map Entity.qualifiedName ∧
          error = .repeatedEntity e.qualifiedName) := by
  have passes : ∀ es, validateAll es = .ok () ↔ (∀ e ∈ es, e.Valid) ∧ (es.map Entity.qualifiedName).Nodup := by
    intro es
    simp only [validateAll_eq_ok_iff, Entity.validate_eq_ok_iff]
  refine ⟨fun e => Entity.validate_eq_ok_iff, fun es => ⟨passes es, fun error => ?_⟩⟩
  rw [validateAll, validateFrom_eq_error_iff]
  refine exists_congr fun before => exists_congr fun e => exists_congr fun after => and_congr_right fun _ => ?_
  have valid := passes before
  rw [validateAll] at valid
  rw [valid, and_assoc, List.append_nil, Entity.Fault, Entity.validate_eq_ok_iff]

end DeclGen
