import DeclGen.Proofs.Document.Attributes
import DeclGen.Proofs.Document.Context

/-!
# The arrangement of an entity element

* `trades_entityAttributes`, `trades_entityChild` : attributes with different keys and children with different
  names trade places;
* `entityOf_rearranged` : an entity does not depend on the order of its attributes, nor on the order of children
  with different names;
* `textsOf` : the texts of the children of a name; `typeExprOf` : where a field's type expression comes from;
* `parse_arrangement` : both of them for the entities of a document.
-/

namespace DeclGen.Document
open Xml (Markup Element Attribute)

/-! ## Attributes of an entity -/

/-- What an attribute says of an entity. -/
inductive EntityChange where
  | nothing
  | name (value : Text)
  | scope (value : Text)
  | kind (isEnumeration : Bool)
  | backing (value : Backing)

def EntityChange.key : EntityChange → Option Text
  | .nothing => none
  | .name _ => some "name".toList
  | .scope _ => some "namespace".toList
  | .kind _ => some "kind".toList
  | .backing _ => some "backing".toList

def EntityChange.of (a : Attribute) : Except DocumentError EntityChange :=
  if a.1 = "name".toList then .ok (.name a.2)
  else if a.1 = "namespace".toList then .ok (.scope a.2)
  else if a.1 = "kind".toList then
    match isEnumeration? a.2 with
    | some isEnumeration => .ok (.kind isEnumeration)
    | none => .error (.invalidAttribute "entity".toList "kind".toList a.2)
  else if a.1 = "backing".toList then
    match Backing.ofWord? a.2 with
    | some value => .ok (.backing value)
    | none => .error (.invalidAttribute "entity".toList "backing".toList a.2)
  else .ok .nothing

def EntityAttributes.apply (e : EntityAttributes) : EntityChange → EntityAttributes
  | .nothing => e
  | .name value => { e with name := some value }
  | .scope value => { e with scope := value }
  | .kind isEnumeration => { e with isEnumeration }
  | .backing value => { e with backing := some value }

theorem EntityAttributes.add_eq (e : EntityAttributes) (a : Attribute) :
    e.add a = (EntityChange.of a).map e.apply := by
  obtain ⟨key, value⟩ := a
  simp only [EntityAttributes.add, EntityChange.of]
  split
  · rfl
  · split
    · rfl
    · split
      · cases isEnumeration? value <;> rfl
      · split
        · cases Backing.ofWord? value <;> rfl
        · rfl

theorem EntityChange.key_of {a : Attribute} {d : EntityChange} (h : EntityChange.of a = .ok d) :
    d.key = none ∨ d.key = some a.1 := by
  unfold EntityChange.of at h
  split at h
  · next key =>
    obtain rfl := Except.ok.inj h
    exact Or.inr (congrArg some key.symm)
  · split at h
    · next key =>
      obtain rfl := Except.ok.inj h
      exact Or.inr (congrArg some key.symm)
    · split at h
      · next key =>
        split at h
        · obtain rfl := Except.ok.inj h
          exact Or.inr (congrArg some key.symm)
        · exact absurd h (by simp)
      · split at h
        · next key =>
          split at h
          · obtain rfl := Except.ok.inj h
            exact Or.inr (congrArg some key.symm)
          · exact absurd h (by simp)
        · obtain rfl := Except.ok.inj h
          exact Or.inl rfl

theorem EntityAttributes.apply_comm (e : EntityAttributes) {d d' : EntityChange}
    (h : d.key = none ∨ d.key ≠ d'.key) : (e.apply d).apply d' = (e.apply d').apply d := by
  cases d <;> cases d' <;> first | rfl | (exact absurd h (by simp [EntityChange.key]))

theorem trades_entityAttributes : Trades EntityAttributes.add Prod.fst := by
  refine trades_of_changes (fun _ => EntityChange.of) EntityAttributes.apply EntityAttributes.add_eq
    (fun _ _ _ => rfl) ?_
  intro e a a' d d' differ hd hd'
  refine e.apply_comm ?_
  rcases EntityChange.key_of hd with none | key
  · exact Or.inl none
  · rcases EntityChange.key_of hd' with none' | key'
    · exact Or.inr (by rw [key, none']; simp)
    · exact Or.inr (by rw [key, key']; simpa using differ)

/-! ## Children of an entity -/

/-- The name of the children that contribute this. -/
def Contribution.key : Contribution → Option Text
  | .nothing => none
  | .doc _ => some "doc".toList
  | .constructorDoc _ => some "constructor-doc".toList
  | .field _ => some "field".toList
  | .member _ => some "case".toList

variable {marked : Bool} {backing : Option Backing} {x x' : Element}

theorem key_of_contribution {d : Contribution} (h : contribution marked backing x = .ok d) :
    d.key = none ∨ d.key = some (elementName x.tag) := by
  unfold contribution at h
  dsimp only at h
  split at h
  · next name =>
    obtain ⟨f, -, rfl⟩ := map_eq_ok_iff.1 h
    exact Or.inr (congrArg some name.symm)
  · split at h
    · next name =>
      obtain ⟨text, -, h⟩ := bind_eq_ok_iff.1 h
      obtain ⟨m, -, h⟩ := bind_eq_ok_iff.1 h
      obtain rfl := Except.ok.inj h
      exact Or.inr (congrArg some name.symm)
    · split at h
      · next name =>
        obtain ⟨raw, -, h⟩ := bind_eq_ok_iff.1 h
        obtain rfl := Except.ok.inj h
        cases raw with
        | none => exact Or.inl rfl
        | some raw => exact Or.inr (congrArg some name.symm)
      · split at h
        · next name =>
          obtain ⟨raw, -, h⟩ := bind_eq_ok_iff.1 h
          obtain rfl := Except.ok.inj h
          cases raw with
          | none => exact Or.inl rfl
          | some raw => exact Or.inr (congrArg some name.symm)
        · obtain rfl := Except.ok.inj h
          exact Or.inl rfl

@[simp] theorem OpenEntity.kind_take (e : OpenEntity) (d : Contribution) : (e.take d).entity.kind = e.entity.kind := by
  cases d <;> rfl

theorem OpenEntity.take_comm (e : OpenEntity) {d d' : Contribution} (h : d.key = none ∨ d.key ≠ d'.key) :
    (e.take d).take d' = (e.take d').take d := by
  cases d <;> cases d' <;> first | rfl | exact absurd h (by simp [Contribution.key])

/-- Children with different names trade places. -/
theorem trades_entityChild (marked : Bool) : Trades (entityChild marked) fun x => elementName x.tag := by
  refine trades_of_changes (f := entityChild marked) (fun e x => contribution marked e.entity.kind.backing x)
    OpenEntity.take (fun _ _ => rfl) (fun e d x => by rw [e.kind_take]) ?_
  intro e x x' d d' differ hd hd'
  refine e.take_comm ?_
  rcases key_of_contribution hd with none | key
  · exact Or.inl none
  · rcases key_of_contribution hd' with none' | key'
    · exact Or.inr (by rw [key, none']; simp)
    · exact Or.inr (by rw [key, key']; simpa using differ)

/-! ## Rearranging -/

/-- The same attributes, and the same children, those of one name in the same order. -/
structure Rearranged (x x' : Element) : Prop where
  attributes : (Xml.attributes x.tag).Perm (Xml.attributes x'.tag)
  children : ∀ name, x.children.filter (elementName ·.tag = name) = x'.children.filter (elementName ·.tag = name)

theorem readEntity_perm {scope content content' : Text} {found : Entity × Text}
    (perm : (Xml.attributes content).Perm (Xml.attributes content')) (h : readEntity scope content = .ok found) :
    readEntity scope content' = .ok found := by
  obtain ⟨read, added, h⟩ := bind_eq_ok_iff.1 h
  exact bind_eq_ok_iff.2 ⟨read, foldAttributes_perm trades_entityAttributes perm added, h⟩

theorem entityOf_rearranged {scope : Text} {e : Entity} (h : Rearranged x x')
    (described : entityOf marked scope x = .ok e) : entityOf marked scope x' = .ok e := by
  obtain ⟨⟨entity, name⟩, read, described⟩ := bind_eq_ok_iff.1 described
  obtain ⟨last, run, described⟩ := bind_eq_ok_iff.1 described
  have read' := readEntity_perm h.attributes read
  have run' := foldlM_rearranged (trades_entityChild marked) h.children run
  exact bind_eq_ok_iff.2 ⟨(entity, name), read', bind_eq_ok_iff.2 ⟨last, run', described⟩⟩

/-! ## Texts of children -/

/-- The text inside an element, if there is one and it can be read. -/
def text? (marked : Bool) (x : Element) : Option Text := (innerText marked x).toOption.join

theorem text?_of_innerText {raw : Option Text} (h : innerText marked x = .ok raw) : text? marked x = raw := by
  rw [text?, h]
  cases raw <;> rfl

/-- The texts of the children of a name. -/
def textsOf (marked : Bool) (name : Text) (xs : List Element) : List Text :=
  (xs.filter (elementName ·.tag = name)).filterMap (text? marked)

/-- The text of an element, if it has the name. -/
def textIf (marked : Bool) (name : Text) (x : Element) : Option Text :=
  if elementName x.tag = name then text? marked x else none

theorem textsOf_cons (name : Text) (x : Element) (xs : List Element) :
    textsOf marked name (x :: xs) = (textIf marked name x).toList ++ textsOf marked name xs := by
  unfold textsOf textIf
  by_cases same : elementName x.tag = name
  · rw [List.filter_cons_of_pos (by simpa using same), List.filterMap_cons, if_pos same]
    cases text? marked x <;> rfl
  · rw [List.filter_cons_of_neg (by simpa using same), if_neg same]
    rfl

theorem getLast?_toList_append {α : Type} (o : Option α) (as : List α) :
    (o.toList ++ as).getLast? = (as.getLast? <|> o) := by
  cases o with
  | none => simp
  | some a =>
    show (a :: as).getLast? = _
    rw [List.getLast?_cons]
    cases as.getLast? <;> rfl

theorem filter_toList {α : Type} (p : α → Bool) (o : Option α) : o.toList.filter p = (o.filter p).toList := by
  cases o with
  | none => rfl
  | some a => cases h : p a <;> simp [h, Option.filter]

/-! ## The type expression of a field -/

def Nonblank (text : Text) : Bool := Text.trim text ≠ []

/-- Where the type expression of a field comes from: its last annotation that is not blank, its annotation
attribute unless that is blank, its last documentation, and what the documentation of the constructor says of
its name. -/
def typeExprOf (marked : Bool) (constructorDoc : Option Text) (x : Element) (name : Text) : Option Text :=
  ((textsOf marked "annotation".toList x.children).filter Nonblank).getLast?.map Text.trim <|>
    ((attribute? "annotation".toList x.tag).filter Nonblank).map Text.trim <|>
    (textsOf marked "doc".toList x.children).getLast?.bind Docblock.varType <|>
    constructorDoc.bind (Docblock.paramType · name)

theorem typeExpr_of_readField {tag : Text} {f : Field} (h : readField tag = .ok f) :
    f.typeExpr = ((attribute? "annotation".toList tag).filter Nonblank).map Text.trim := by
  obtain ⟨found, name, added, -, rfl⟩ := readField_eq_ok_iff.1 h
  obtain ⟨as, decoded, run⟩ := foldAttributes_eq_ok_iff.1 added
  have value := get_of_foldlM FieldAttributes.typeExpr Text.trim FieldAttributes.typeExpr_of_add
    (nodup_of_decoded decoded) run
  rw [← attribute?_of_decoded decoded] at value
  show found.typeExpr.filter (· != []) = _
  rw [value]
  cases attribute? "annotation".toList tag with
  | none => rfl
  | some text =>
    show (some (Text.trim text)).filter (· != []) = _
    by_cases blank : Text.trim text = []
    · simp [Option.filter, Nonblank, blank]
    · simp [Option.filter, Nonblank, blank]

theorem eq_of_fieldChild {f g : OpenField} (h : fieldChild marked f x = .ok g) :
    g.doc = (textIf marked "doc".toList x <|> f.doc) ∧
      g.field = { f.field with
        typeExpr := ((textIf marked "annotation".toList x).filter Nonblank).map Text.trim <|> f.field.typeExpr } := by
  simp only [fieldChild] at h
  by_cases doc : elementName x.tag = "doc".toList
  · have other : elementName x.tag ≠ "annotation".toList := by
      rw [doc]
      decide
    rw [if_pos doc] at h
    obtain ⟨raw, read, h⟩ := bind_eq_ok_iff.1 h
    obtain rfl := Except.ok.inj h
    rw [textIf, textIf, if_pos doc, if_neg other, text?_of_innerText read]
    exact ⟨rfl, rfl⟩
  rw [if_neg doc] at h
  rw [textIf, textIf, if_neg doc]
  by_cases annotation : elementName x.tag = "annotation".toList
  · rw [if_pos annotation] at h
    obtain ⟨raw, read, h⟩ := bind_eq_ok_iff.1 h
    obtain rfl := Except.ok.inj h
    rw [if_pos annotation, text?_of_innerText read]
    refine ⟨rfl, ?_⟩
    cases raw with
    | none => rfl
    | some raw =>
      by_cases blank : Text.trim raw = []
      · simp [Option.filter, Nonblank, blank]
      · simp [Option.filter, Nonblank, blank]
  · rw [if_neg annotation] at h
    obtain rfl := Except.ok.inj h
    rw [if_neg annotation]
    exact ⟨rfl, rfl⟩

/-- What the children of a field leave behind. -/
theorem foldlM_fieldChild_eq {xs : List Element} {f f' : OpenField} (h : xs.foldlM (fieldChild marked) f = .ok f') :
    f'.doc = ((textsOf marked "doc".toList xs).getLast? <|> f.doc) ∧
      f'.field = { f.field with
        typeExpr := ((textsOf marked "annotation".toList xs).filter Nonblank).getLast?.map Text.trim <|>
          f.field.typeExpr } := by
  induction xs generalizing f with
  | nil =>
    obtain rfl := Except.ok.inj h
    exact ⟨rfl, rfl⟩
  | cons x xs ih =>
    rw [List.foldlM_cons] at h
    obtain ⟨g, first, others⟩ := bind_eq_ok_iff.1 h
    obtain ⟨doc, field⟩ := ih others
    obtain ⟨doc₁, field₁⟩ := eq_of_fieldChild first
    rw [doc, field, doc₁, field₁, textsOf_cons, textsOf_cons, List.filter_append, filter_toList, getLast?_toList_append,
      getLast?_toList_append]
    constructor
    · cases (textsOf marked "doc".toList xs).getLast? <;> rfl
    · cases ((textsOf marked "annotation".toList xs).filter Nonblank).getLast? <;> rfl

theorem typeExpr_of_fieldOf {f : Field} (h : fieldOf marked x = .ok f) (constructorDoc : Option Text) :
    (f.typeExpr <|> constructorDoc.bind (Docblock.paramType · f.name)) = typeExprOf marked constructorDoc x f.name := by
  obtain ⟨field, read, h⟩ := bind_eq_ok_iff.1 h
  obtain ⟨last, run, h⟩ := bind_eq_ok_iff.1 h
  obtain rfl := Except.ok.inj h
  obtain ⟨doc, found⟩ := foldlM_fieldChild_eq run
  unfold typeExprOf closeField finishField
  rw [doc, found, ← typeExpr_of_readField read]
  cases ((textsOf marked "annotation".toList x.children).filter Nonblank).getLast? <;> cases field.typeExpr <;>
    cases (textsOf marked "doc".toList x.children).getLast? <;> rfl

/-! ## The fields of an entity -/

theorem eq_of_entityChild {e g : OpenEntity} (h : entityChild marked e x = .ok g) :
    g.constructorDoc = (textIf marked "constructor-doc".toList x <|> e.constructorDoc) ∧
      ((elementName x.tag ≠ "field".toList ∧ g.entity.fields = e.entity.fields) ∨
        elementName x.tag = "field".toList ∧
          ∃ f, fieldOf marked x = .ok f ∧ g.entity.fields = e.entity.fields ++ [f]) := by
  obtain ⟨d, given, rfl⟩ := map_eq_ok_iff.1 h
  have absent {name : Text} (same : elementName x.tag = name) (other : name ≠ "constructor-doc".toList) :
      textIf marked "constructor-doc".toList x = none := if_neg (same ▸ other)
  unfold contribution at given
  dsimp only at given
  split at given
  · next name =>
    obtain ⟨f, describes, rfl⟩ := map_eq_ok_iff.1 given
    rw [absent name (by decide)]
    exact ⟨rfl, Or.inr ⟨name, f, describes, rfl⟩⟩
  · next other =>
    split at given
    · next name =>
      obtain ⟨text, -, given⟩ := bind_eq_ok_iff.1 given
      obtain ⟨m, -, given⟩ := bind_eq_ok_iff.1 given
      obtain rfl := Except.ok.inj given
      rw [absent name (by decide)]
      exact ⟨rfl, Or.inl ⟨other, rfl⟩⟩
    · split at given
      · next name =>
        obtain ⟨raw, -, given⟩ := bind_eq_ok_iff.1 given
        obtain rfl := Except.ok.inj given
        rw [absent name (by decide)]
        cases raw <;> exact ⟨rfl, Or.inl ⟨other, rfl⟩⟩
      · split at given
        · next name =>
          obtain ⟨raw, read, given⟩ := bind_eq_ok_iff.1 given
          obtain rfl := Except.ok.inj given
          rw [textIf, if_pos name, text?_of_innerText read]
          cases raw <;> exact ⟨rfl, Or.inl ⟨other, rfl⟩⟩
        · next unknown =>
          obtain rfl := Except.ok.inj given
          rw [textIf, if_neg unknown]
          exact ⟨rfl, Or.inl ⟨other, rfl⟩⟩

/-- What the children of an entity leave behind. -/
theorem foldlM_entityChild_eq {xs : List Element} {e e' : OpenEntity} (h : xs.foldlM (entityChild marked) e = .ok e') :
    e'.constructorDoc = ((textsOf marked "constructor-doc".toList xs).getLast? <|> e.constructorDoc) ∧
      ∃ fs, e'.entity.fields = e.entity.fields ++ fs ∧
        List.Forall₂ (fun x f => fieldOf marked x = .ok f) (xs.filter (elementName ·.tag = "field".toList)) fs := by
  induction xs generalizing e with
  | nil =>
    obtain rfl := Except.ok.inj h
    exact ⟨rfl, [], (List.append_nil _).symm, .nil⟩
  | cons x xs ih =>
    rw [List.foldlM_cons] at h
    obtain ⟨g, first, others⟩ := bind_eq_ok_iff.1 h
    obtain ⟨constructorDoc, fs, fields, described⟩ := ih others
    obtain ⟨constructorDoc₁, ⟨other, fields₁⟩ | ⟨name, f, describes, fields₁⟩⟩ := eq_of_entityChild first
    all_goals
      refine ⟨?_, ?_⟩
      · rw [constructorDoc, constructorDoc₁, textsOf_cons, getLast?_toList_append]
        cases (textsOf marked "constructor-doc".toList xs).getLast? <;> rfl
    · rw [List.filter_cons, if_neg fun name => other (of_decide_eq_true name)]
      exact ⟨fs, by rw [fields, fields₁], described⟩
    · rw [List.filter_cons, if_pos (decide_eq_true name)]
      exact ⟨f :: fs, by rw [fields, fields₁, List.append_assoc]; rfl, .cons describes described⟩

theorem fields_closeEntity (e : OpenEntity) : (closeEntity e).fields = e.entity.fields.map fun f =>
    { f with typeExpr := f.typeExpr <|> e.constructorDoc.bind (Docblock.paramType · f.name) } := by
  unfold closeEntity applyConstructorDoc
  cases e.constructorDoc with
  | some raw => rfl
  | none =>
    have same (f : Field) :
        { f with typeExpr := f.typeExpr <|> (none : Option Text).bind (Docblock.paramType · f.name) } = f := by
      obtain ⟨name, declared, typeExpr, _, _, _⟩ := f
      cases typeExpr <;> rfl
    simp only [same, List.map_id']

/-- Each field of an entity has the type expression that its element and the constructor's documentation give it. -/
theorem typeExpr_of_entityOf {scope : Text} {e : Entity} (h : entityOf marked scope x = .ok e) :
    List.Forall₂ (fun y f => f.typeExpr =
        typeExprOf marked (textsOf marked "constructor-doc".toList x.children).getLast? y f.name)
      (x.children.filter (elementName ·.tag = "field".toList)) e.fields := by
  obtain ⟨⟨entity, name⟩, read, h⟩ := bind_eq_ok_iff.1 h
  obtain ⟨last, run, h⟩ := bind_eq_ok_iff.1 h
  obtain rfl := Except.ok.inj h
  obtain ⟨constructorDoc, fs, fields, described⟩ := foldlM_entityChild_eq run
  have none : entity.fields = [] := by
    obtain ⟨found, -, read⟩ := bind_eq_ok_iff.1 read
    split at read
    · exact absurd read (by simp)
    · obtain ⟨rfl, -⟩ := Prod.mk.inj (Except.ok.inj read)
      rfl
  rw [none, List.nil_append] at fields
  rw [fields_closeEntity, fields, List.forall₂_map_right_iff, constructorDoc]
  refine described.imp fun y f describes => ?_
  rw [← typeExpr_of_fieldOf describes]
  cases (textsOf marked "constructor-doc".toList x.children).getLast? <;> rfl

/-! ## Documents -/

/-- **The arrangement of an entity element does not matter**, and each of its fields takes its type expression from
the first of the places that have one. -/
theorem parse_arrangement {before after : Text} {es : List Entity} (here : OutsideEntities before) (hx : x.WellFormed)
    (name : elementName x.tag = "entity".toList) (accepted : parse (before ++ (x.source ++ after)) = .ok es) :
    (∀ x' : Element, x'.WellFormed → elementName x'.tag = "entity".toList → Rearranged x x' →
      parse (before ++ (x'.source ++ after)) = .ok es) ∧
    ∃ s e back, readUpTo before = .ok s ∧ es = s.entities ++ e :: back ∧
      List.Forall₂ (fun y f => f.typeExpr = typeExprOf (isMarked before)
          (textsOf (isMarked before) "constructor-doc".toList x.children).getLast? y f.name)
        (x.children.filter (elementName ·.tag = "field".toList)) e.fields := by
  constructor
  · intro x' hx' name' rearranged
    exact here.parse_replace hx hx' name name' (fun _ _ => entityOf_rearranged rearranged) accepted
  · obtain ⟨s, e, back, hs, described, rfl⟩ := here.exists_entity hx name accepted
    exact ⟨s, e, back, hs, rfl, typeExpr_of_entityOf described⟩

theorem filter_pair {α : Type} {p : α → Bool} {a b : α} (apart : p a = true → p b = false) :
    [a, b].filter p = [b, a].filter p := by
  cases first : p a with
  | true => simp only [List.filter_cons, first, apart first, Bool.false_eq_true, if_true, if_false]
  | false => simp only [List.filter_cons, first, Bool.false_eq_true, if_false]

/-- Behind a byte order mark the text of an annotation starts and ends early, wherever the annotation stands. -/
theorem parse_arrangement_marked :
    let field : Element := .around "field name=\"x\"".toList (.child [] (.around "annotation".toList
      (.gap "int".toList) "annotation".toList) (.gap [])) "field".toList
    let member : Element := .selfClosing "case name=\"C\"".toList
    let x : Element := .around "entity name=\"A\" kind=\"enum\"".toList
      (.child " ".toList field (.child [] member (.gap []))) "entity".toList
    let x' : Element := .around "entity kind=\"enum\" name=\"A\"".toList
      (.child [] member (.child [] field (.gap "\n".toList))) "entity".toList
    let es : List Entity := [⟨"A".toList, "A".toList, .enumeration none,
      [⟨"x".toList, "mixed".toList, some "on>".toList, false, false, none⟩],
      [⟨"C".toList, .text "C".toList⟩], none⟩]
    OutsideEntities "\uFEFF".toList ∧ x.WellFormed ∧ elementName x.tag = "entity".toList ∧ Rearranged x x' ∧
      parse ("\uFEFF".toList ++ (x.source ++ [])) = .ok es ∧ parse ("\uFEFF".toList ++ (x'.source ++ [])) = .ok es := by
  intro field member x x' es
  have here : OutsideEntities "\uFEFF".toList := ⟨[], by decide +kernel, by decide⟩
  have hx : x.WellFormed := by decide +kernel
  have hx' : x'.WellFormed := by decide +kernel
  have accepted : parse ("\uFEFF".toList ++ (x.source ++ [])) = .ok es := by decide +kernel
  have rearranged : Rearranged x x' := by
    refine ⟨?_, fun name => filter_pair fun first => ?_⟩
    have read : Xml.attributes x.tag =
        [.ok ("name".toList, "A".toList), .ok ("kind".toList, "enum".toList)] := by decide +kernel
    have read' : Xml.attributes x'.tag =
        [.ok ("kind".toList, "enum".toList), .ok ("name".toList, "A".toList)] := by decide +kernel
    · rw [read, read']
      exact .swap _ _ _
    · have other : "case".toList ≠ "field".toList := by decide
      obtain rfl : elementName field.tag = name := of_decide_eq_true first
      exact decide_eq_false other
  exact ⟨here, hx, by decide, rearranged, accepted,
    (parse_arrangement here hx (by decide) accepted).1 x' hx' (by decide) rearranged⟩

end DeclGen.Document
