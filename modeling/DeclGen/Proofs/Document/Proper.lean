import DeclGen.Proofs.Docblock.Prose
import DeclGen.Proofs.Document.Attributes
import DeclGen.Proofs.Document.Names
import DeclGen.Proofs.Document.Writing
import DeclGen.Proofs.Entity.Validation

/-!
# What the entities of documents look like

* `scanType_solid`, `varType_solid`, `paramType_solid` : type expressions in documentation are trimmed and not empty;
* `Field.Proper`, `Entity.Proper` : trimmed types, values that fit the backing, prose for documentation;
* `readField_proper`, `readCase_fits` : what start tags give is so;
* `keeps_proper` : and it stays so;
* `parse_proper` : the entities of documents are proper.
-/

namespace DeclGen

/-! ## Type expressions in documentation -/

namespace Docblock
open Text (trim)

variable {raw param t rest type : Text}

theorem scanType_solid (h : scanType t = some (type, rest)) : type ≠ [] ∧ trim type = type := by
  unfold scanType at h
  obtain ⟨found, h⟩ := Option.ite_none_right_eq_some.1 h
  obtain ⟨rfl, -⟩ := Prod.mk.inj (Option.some.inj h)
  rw [Bool.and_eq_true, bne_iff_ne] at found
  exact ⟨found.2, Text.trim_trim _⟩

theorem varType_solid (h : varType raw = some type) : type ≠ [] ∧ trim type = type := by
  obtain ⟨tail, -, h⟩ := List.exists_of_findSome?_eq_some h
  obtain ⟨⟨_, rest⟩, scanned, rfl⟩ := Option.map_eq_some_iff.1 h
  exact scanType_solid scanned

theorem paramType_solid (h : paramType raw param = some type) : type ≠ [] ∧ trim type = type := by
  obtain ⟨tail, -, h⟩ := List.exists_of_findSome?_eq_some h
  split at h
  · next found after scanned =>
    obtain ⟨-, h⟩ := Option.ite_none_right_eq_some.1 h
    exact Option.some.inj h ▸ scanType_solid scanned
  · exact absurd h (by simp)

end Docblock

/-! ## Fields -/

/-- The types of the field are trimmed, a type expression says something, `null` is allowed if the declared type allows
it, and the documentation is prose. -/
structure Field.Proper (f : Field) : Prop where
  declared : Text.trim f.declared = f.declared
  typeExpr : ∀ t ∈ f.typeExpr, t ≠ [] ∧ Text.trim t = t
  allowsNull : Document.allowsNull f.declared = true → f.allowsNull = true
  doc : ∀ d ∈ f.doc, Docblock.Prose d

theorem Field.Proper.source_eq {f : Field} (h : f.Proper) {t : Text} (ht : t ∈ f.typeExpr) : f.source = t := by
  obtain ⟨nonempty, trimmed⟩ := h.typeExpr t ht
  rw [source, Option.mem_def.1 ht]
  exact if_neg (by rwa [trimmed])

/-- A type expression from documentation only stands in for a missing one. -/
theorem Field.Proper.orElse {f : Field} (h : f.Proper) {found : Option Text}
    (solid : ∀ t ∈ found, t ≠ [] ∧ Text.trim t = t) : { f with typeExpr := f.typeExpr <|> found }.Proper where
  declared := h.declared
  typeExpr t ht := by
    rcases Option.or_eq_some_iff.1 ((Option.orElse_eq_or ..).symm.trans ht) with given | ⟨-, given⟩
    · exact h.typeExpr t given
    · exact solid t given
  allowsNull := h.allowsNull
  doc := h.doc

/-! ## Members -/

theorem EnumValue.Fits.fits {name : Text} {backing : Option Backing} {value : EnumValue}
    (h : value.Fits name backing) : value.fits backing = true := by
  rcases backing with _ | _ | _
  · obtain rfl : value = .text name := h
    rfl
  · cases value with
    | text t => rfl
    | integer n => exact absurd h id
  · cases value with
    | text t => exact absurd h id
    | integer n => rfl

/-! ## Entities -/

/-- The short name is that of the qualified name, fields and documentation are as they should be, and values fit. -/
structure Entity.Proper (e : Entity) : Prop where
  named : e.WellNamed
  fields : ∀ f ∈ e.fields, f.Proper
  members : ∀ m ∈ e.members, m.value.Fits m.name e.kind.backing
  doc : ∀ d ∈ e.doc, Docblock.Prose d

theorem Entity.Proper.validate_ne {e : Entity} (h : e.Proper) (entity member : Text) :
    e.validate ≠ .error (.invalidMember entity member .wrongBacking) := by
  intro wrong
  obtain ⟨m, hm, -, misfit⟩ := exists_member_of_validate wrong
  exact absurd ((h.members m hm).fits.symm.trans misfit) (by decide)

namespace Document

variable {e : Entity} {f : Field} {m : Member} {content : Text}

/-! ## Start tags -/

theorem readEntity_proper {scope : Text} {read : Entity × Text} (h : readEntity scope content = .ok read) :
    read.1.Proper := by
  obtain ⟨found, name, -, -, rfl⟩ := readEntity_eq_ok_iff.1 h
  exact ⟨Entity.wellNamed_ofName _ _, fun _ hf => absurd hf List.not_mem_nil, fun _ hm => absurd hm List.not_mem_nil,
    fun _ hd => absurd hd (Option.not_mem_none _)⟩

/-- The types among the attributes are trimmed. -/
def FieldAttributes.Trimmed (f : FieldAttributes) : Prop :=
  Text.trim f.declared = f.declared ∧ ∀ t ∈ f.typeExpr, Text.trim t = t

theorem FieldAttributes.Trimmed.add {f f' : FieldAttributes} {a : Xml.Attribute} (h : f.Trimmed)
    (hadd : f.add a = .ok f') : f'.Trimmed := by
  simp only [FieldAttributes.add] at hadd
  split at hadd
  · exact Except.ok.inj hadd ▸ h
  · split at hadd
    · exact Except.ok.inj hadd ▸ ⟨Text.trim_trim _, h.2⟩
    · split at hadd
      · exact Except.ok.inj hadd ▸ ⟨h.1, fun t ht => Option.some.inj ht ▸ Text.trim_trim _⟩
      · split at hadd
        · obtain ⟨flag, -, hadd⟩ := bind_eq_ok_iff.1 hadd
          exact Except.ok.inj hadd ▸ h
        · split at hadd
          · obtain ⟨flag, -, hadd⟩ := bind_eq_ok_iff.1 hadd
            exact Except.ok.inj hadd ▸ h
          · exact Except.ok.inj hadd ▸ h

theorem readField_proper (h : readField content = .ok f) : f.Proper := by
  obtain ⟨found, name, hfound, -, rfl⟩ := readField_eq_ok_iff.1 h
  obtain ⟨as, -, run⟩ := foldAttributes_eq_ok_iff.1 hfound
  have trimmed : found.Trimmed := foldlM_invariant (fun h hadd => h.add hadd) as run ⟨by decide, by simp⟩
  refine ⟨trimmed.1, fun t ht => ?_, fun null => ?_, by simp⟩
  · obtain ⟨given, nonempty⟩ := Option.filter_eq_some_iff.1 ht
    exact ⟨bne_iff_ne.1 nonempty, trimmed.2 t given⟩
  · exact Bool.or_eq_true_iff.2 (Or.inr null)

/-! ## Changes -/

theorem caseValue_fits {backing : Option Backing} {name : Text} {raw : Option Text} {value : EnumValue}
    (h : caseValue backing name raw = .ok value) : value.Fits name backing := by
  unfold caseValue at h
  split at h
  · exact (Except.ok.inj h).symm
  · exact Except.ok.inj h ▸ trivial
  · next raw =>
    split at h
    · next n read =>
      rw [← Except.ok.inj h]
      unfold readInteger at read
      split at read
      · obtain ⟨bounds, read⟩ := Option.ite_none_right_eq_some.1 read
        exact Option.some.inj read ▸ bounds
      · exact absurd read (by simp)
    · exact absurd h (by simp)
  · exact absurd h (by simp)

theorem readCase_fits {backing : Option Backing} {text : Option Text} (h : readCase backing content text = .ok m) :
    m.value.Fits m.name backing := by
  obtain ⟨found, -, h⟩ := bind_eq_ok_iff.1 h
  split at h
  · exact absurd h (by simp)
  · obtain ⟨value, fits, h⟩ := bind_eq_ok_iff.1 h
    exact Except.ok.inj h ▸ caseValue_fits fits

theorem finishField_proper (h : f.Proper) (raw : Option Text) : (finishField f raw).Proper := by
  cases raw with
  | none => exact h
  | some raw =>
    have typed : { f with typeExpr := f.typeExpr <|> Docblock.varType raw }.Proper :=
      h.orElse fun _ => Docblock.varType_solid
    exact ⟨typed.declared, typed.typeExpr, typed.allowsNull, fun _ => Docblock.prose_of_clean⟩

theorem applyConstructorDoc_proper (h : e.Proper) (raw : Option Text) : (applyConstructorDoc raw e).Proper := by
  cases raw with
  | none => exact h
  | some raw =>
    refine ⟨h.named, List.forall_mem_map.2 fun f hf => ?_, h.members, h.doc⟩
    exact (h.fields f hf).orElse fun t => Docblock.paramType_solid

theorem keeps_proper : Keeps Entity.Proper Field.Proper where
  start := readEntity_proper
  doc h _ := ⟨h.named, h.fields, h.members, fun _ => Docblock.prose_of_clean⟩
  constructorDoc := applyConstructorDoc_proper
  member h read :=
    ⟨h.named, h.fields, List.forall_mem_append.2 ⟨h.members, List.forall_mem_singleton.2 (readCase_fits read)⟩, h.doc⟩
  field h hf := ⟨h.named, List.forall_mem_append.2 ⟨h.fields, List.forall_mem_singleton.2 hf⟩, h.members, h.doc⟩
  startField := readField_proper
  typeExpr h nonempty :=
    ⟨h.declared, fun _ ht => Option.some.inj ht ▸ ⟨nonempty, Text.trim_trim _⟩, h.allowsNull, h.doc⟩
  finishField := finishField_proper

/-! ## Documents -/

/-- **What reading guarantees.** A document that is read has entities, and all of them are proper: only enumerations
have a backing, the type of a field is read from its type expression if there is one, and values always fit. -/
theorem parse_proper {t : Text} {es : List Entity} (h : parse t = .ok es) : es ≠ [] ∧ ∀ e ∈ es, e.Proper ∧
    (∀ backing, e.kind.backing = some backing → e.kind.isEnumeration = true) ∧
    (∀ f ∈ e.fields, ∀ typeExpr ∈ f.typeExpr, f.source = typeExpr) ∧
    ∀ entity member, e.validate ≠ .error (.invalidMember entity member .wrongBacking) := by
  obtain ⟨nonempty, proper⟩ := keeps_proper.parse h
  refine ⟨nonempty, fun e he => ⟨proper e he, fun backing hb => ?_, fun f hf typeExpr ht => ?_, ?_⟩⟩
  · cases kind : e.kind with
    | record => exact absurd (kind ▸ hb) (by simp [Kind.backing])
    | enumeration backing => rfl
  · exact ((proper e he).fields f hf).source_eq ht
  · exact (proper e he).validate_ne

theorem parse_proper_cart :
    let t := ["<entities namespace='Shop'>", "<entity name='Cart' backing='int'>", "<doc>/** A cart. */</doc>",
      "<field name='items' type=' ?array ' ", "annotation=' '/>", "<field name='note' type='string'>",
      "<doc>@var Text\n * Why?\n * @see Cart</doc>", "</field>", "<constructor-doc>@param list&lt;int> ",
      "$items</constructor-doc></entity>", "<entity name='Level' kind='enum' backing='int'>",
      "<case name='Low'> -1 </case></entity>", "<entity namespace='' name='Mood' kind='enum'>",
      "<case name='Good' value='1'/>", "</entity></entities>"].flatMap String.toList
    let es : List Entity := [
      ⟨"Cart".toList, "Shop\\Cart".toList, .record,
        [⟨"items".toList, "?array".toList, some "list<int>".toList, true, false, none⟩,
          ⟨"note".toList, "string".toList, some "Text".toList, false, false, some "Why?\n@see Cart".toList⟩],
        [], some "A cart.".toList⟩,
      ⟨"Level".toList, "Shop\\Level".toList, .enumeration (some .integer), [],
        [⟨"Low".toList, .integer (-1)⟩], none⟩,
      ⟨"Mood".toList, "Mood".toList, .enumeration none, [], [⟨"Good".toList, .text "Good".toList⟩], none⟩]
    parse t = .ok es ∧ es ≠ [] ∧ ∀ e ∈ es, e.Proper ∧
      (∀ backing, e.kind.backing = some backing → e.kind.isEnumeration = true) ∧
      (∀ f ∈ e.fields, ∀ typeExpr ∈ f.typeExpr, f.source = typeExpr) ∧
      ∀ entity member, e.validate ≠ .error (.invalidMember entity member .wrongBacking) := by
  intro t es
  have accepted : parse t = .ok es := by decide +kernel
  exact ⟨accepted, parse_proper accepted⟩

end Document

end DeclGen
