import DeclGen.Proofs.Distinct
import DeclGen.Proofs.Docblock.Extraction

/-!
# The types of parameters

A documentation block may tell the type of each parameter of a function, one on a line: `@param`, the type, and the
name behind a dollar sign. A parameter is looked up by its whole name.

* `Plain.scanType_eq` : the type is read to its end, and nothing of what follows it;
* `namesParameter_iff` : a name is matched by itself alone, not by its beginnings or continuations;
* `parameterLine`, `parameterBlock` : the blocks with one line for each parameter;
* `paramType_line`, `paramType_parameterBlock` : what one line tells, and the first line with a name;
* `paramType_block` : each parameter has its own type, whatever the order of the lines.
-/

namespace DeclGen.Docblock
open Text (isSpacing isBlank trimStart trim)

variable {c : Char} {before front gap name param rest t type : Text} {ps lines : List (Text × Text)}

/-! ## Types -/

theorem Plain.at_notMem (h : Plain t) : '@' ∉ t := by
  obtain ⟨e, he⟩ := h.exists_tokenized
  intro hc
  exact absurd (he.mem_cases _ hc) (by decide)

theorem Plain.trim_eq (h : Plain t) : trim t = t := by
  rw [trim, Text.trimStart_eq_self h.isBlank_head, Text.trimEnd_eq_self h.isBlank_last]

/-- A type that a blank ends is read, and nothing else is. -/
theorem Plain.scanType_eq (h : Plain t) (blank : ∀ c ∈ gap, isBlank c = true) (hc : isSpacing c = true)
    (next : (trimStart rest).head? ≠ some '|') : scanType (gap ++ t ++ c :: rest) = some (t, c :: rest) := by
  obtain ⟨u, taken, -, reads⟩ := scan_outer (Broken.refl 0 none t) h.readable
  obtain rfl : u = t := taken.same rfl
  have found := reads false (c :: rest)
  rw [h.endsBar_eq, scan_spacing hc next] at found
  have whole : (Scan.prepend u ⟨[], 0, c :: rest⟩).taken = u := List.append_nil u
  rw [scanType, h.trimStart_append (.refl 0 none u) blank, found, whole, h.trim_eq]
  exact if_pos (by simpa [Scan.prepend] using h.ne_nil)

/-! ## Names -/

/-- The name of a parameter: letters and digits of any script, and underscores. -/
def IsParameter (name : Text) : Prop := ∀ c ∈ name, inParameter c = true

/-- A name is matched by itself alone, neither by a beginning of it nor by a longer one. -/
theorem namesParameter_iff (hp : IsParameter param) (hn : IsParameter name) (hc : inParameter c = false)
    (rest : Text) : namesParameter param ('$' :: (name ++ c :: rest)) = true ↔ name = param := by
  have word (tail : Text) (ends : ∀ c ∈ tail.head?, inParameter c = false) {name : Text} (hn : IsParameter name) :
      (name ++ tail).takeWhile inParameter = name := Text.takeWhile_append_of_head? hn ends
  rw [namesParameter]
  constructor
  · intro matched
    split at matched
    · next tail found =>
      have ends : ∀ c ∈ tail.head?, inParameter c = false := by
        intro c hc
        rw [Option.mem_def.1 hc] at matched
        simpa using matched
      rw [← word (c :: rest) (by simpa using hc) hn, Text.after?_eq_some_iff.1 found, word tail ends hp]
    · exact absurd matched (by simp)
  · rintro rfl
    have found : Text.after? name (name ++ c :: rest) = some (c :: rest) := Text.after?_eq_some_iff.2 rfl
    simp [found, hc]

/-! ## Tags -/

/-- What stands before the first at sign does not count. -/
theorem paramType_append_of_notMem (h : '@' ∉ front) (t param : Text) :
    paramType (front ++ t) param = paramType t param := by
  have parts : tagTails "@param".toList (front ++ t) = tagTails "@param".toList t := tagTails_append_of_notMem h t
  rw [paramType, paramType, parts]

/-- A type behind the tag is that of the name behind it; for other names, what follows decides. -/
theorem paramType_tag (h : Plain type) (hp : IsParameter param) (hn : IsParameter name) (hc : inParameter c = false)
    (rest : Text) : paramType ("@param".toList ++ ' ' :: (type ++ ' ' :: '$' :: (name ++ c :: rest))) param =
      if name = param then some type
      else paramType (' ' :: (type ++ ' ' :: '$' :: (name ++ c :: rest))) param := by
  generalize following : name ++ c :: rest = after
  have untagged : Untagged "@param".toList [] := fun _ _ inside => absurd inside.length_le (by simp)
  have parts : tagTails "@param".toList ("@param".toList ++ ' ' :: (type ++ ' ' :: '$' :: after)) =
      (' ' :: (type ++ ' ' :: '$' :: after)) :: tagTails "@param".toList (' ' :: (type ++ ' ' :: '$' :: after)) :=
    tagTails_append (by decide) untagged (by decide) _
  have blank : ∀ c ∈ [' '], isBlank c = true := Text.forall_mem_of_all (by decide)
  have read : scanType (' ' :: (type ++ ' ' :: '$' :: after)) = some (type, ' ' :: '$' :: after) :=
    h.scanType_eq blank (by decide) (by simp [trimStart, isBlank])
  have start : trimStart (' ' :: '$' :: after) = '$' :: after := rfl
  have matched : namesParameter param ('$' :: after) = decide (name = param) := by
    rw [Bool.eq_iff_iff, decide_eq_true_iff, ← following, namesParameter_iff hp hn hc]
  rw [paramType, paramType, parts, List.findSome?_cons, read]
  simp only [start, matched, decide_eq_true_eq]
  by_cases same : name = param
  · rw [if_pos same, if_pos same]
  · rw [if_neg same, if_neg same]

/-! ## Blocks -/

/-- The line of a documentation block that tells the type of a parameter. -/
def parameterLine (type name : Text) : Text :=
  " * ".toList ++ ("@param".toList ++ ' ' :: (type ++ ' ' :: '$' :: (name ++ ['\n'])))

/-- The documentation block with one line for each parameter, given by its type and its name. -/
def parameterBlock (ps : List (Text × Text)) : Text :=
  "/**\n".toList ++ (ps.flatMap fun p => parameterLine p.1 p.2) ++ " */".toList

theorem IsParameter.at_notMem (h : IsParameter name) : '@' ∉ name := by
  have other : inParameter '@' = false := rfl
  intro hc
  exact absurd (h '@' hc) (by simp [other])

/-- A line tells the type of its own parameter only. -/
theorem paramType_line (h : Plain type) (hp : IsParameter param) (hn : IsParameter name) (rest : Text) :
    paramType (parameterLine type name ++ rest) param =
      if name = param then some type else paramType rest param := by
  have start : parameterLine type name ++ rest =
      " * ".toList ++ ("@param".toList ++ ' ' :: (type ++ ' ' :: '$' :: (name ++ '\n' :: rest))) := by
    rw [parameterLine]
    generalize " * ".toList = margin
    generalize "@param".toList = tag
    simp only [List.append_assoc, List.cons_append, List.nil_append]
  have back : ' ' :: (type ++ ' ' :: '$' :: (name ++ '\n' :: rest)) =
      ' ' :: (type ++ ' ' :: '$' :: (name ++ ['\n'])) ++ rest := by simp
  have untagged : '@' ∉ ' ' :: (type ++ ' ' :: '$' :: (name ++ ['\n'])) := by
    simp [h.at_notMem, hn.at_notMem]
  rw [start, paramType_append_of_notMem (by decide), paramType_tag h hp hn (by decide), back,
    paramType_append_of_notMem untagged]

/-- The first line with the name of a parameter tells its type. -/
theorem paramType_parameterBlock (plain : ∀ p ∈ ps, Plain p.1) (words : ∀ p ∈ ps, IsParameter p.2)
    (hp : IsParameter param) : paramType (parameterBlock ps) param = (ps.find? (·.2 = param)).map Prod.fst := by
  rw [parameterBlock, List.append_assoc, paramType_append_of_notMem (by decide)]
  induction ps with
  | nil => exact paramType_append_of_notMem (show '@' ∉ " */".toList by decide) [] param
  | cons p ps ih =>
    rw [List.forall_mem_cons] at plain words
    rw [List.flatMap_cons, List.append_assoc, paramType_line plain.1 hp words.1, ih plain.2 words.2, List.find?_cons]
    by_cases same : p.2 = param
    · simp [same]
    · simp [same]

/-- **Parameters are told apart by their whole names.** A block with one line for each parameter, in any order, gives
each of them its own type, and no type to any other name. -/
theorem paramType_block (plain : ∀ p ∈ ps, Plain p.1) (words : ∀ p ∈ ps, IsParameter p.2)
    (distinct : (ps.map Prod.snd).Nodup) (order : lines.Perm ps) :
    (∀ p ∈ ps, paramType (parameterBlock lines) p.2 = some p.1) ∧
      ∀ name, IsParameter name → name ∉ ps.map Prod.snd → paramType (parameterBlock lines) name = none := by
  have found {name : Text} (hn : IsParameter name) :
      paramType (parameterBlock lines) name = (lines.find? (·.2 = name)).map Prod.fst :=
    paramType_parameterBlock (fun p hm => plain p (order.mem_iff.1 hm)) (fun p hm => words p (order.mem_iff.1 hm)) hn
  constructor
  · intro p hm
    have own : lines.find? (fun q => q.2 = p.2) = some p :=
      (find?_eq_some_iff_of_nodup ((order.map Prod.snd).nodup_iff.2 distinct)).2 ⟨order.mem_iff.2 hm, rfl⟩
    rw [found (words p hm), own, Option.map_some]
  · intro name hn absent
    rw [found hn, Option.map_eq_none_iff, List.find?_eq_none]
    intro p hm same
    have named : p.2 = name := by simpa using same
    exact absent (named ▸ List.mem_map_of_mem (order.mem_iff.1 hm))

/-- One name is the beginning of another, and the lines stand in another order than the parameters. -/
theorem paramType_block_users :
    paramType "/**\n * @param list<int> $users\n * @param array{id: int} $user\n */".toList "user".toList =
        some "array{id: int}".toList ∧
      paramType "/**\n * @param list<int> $users\n * @param array{id: int} $user\n */".toList "use".toList = none := by
  have plain (t : Text) (quiet : (TypeExpr.diagnose t).warnings = [])
      (unquoted : t.all fun c => c ≠ '\'' ∧ c ≠ '"') (unbroken : t.all fun c => c ≠ '\n' ∧ c ≠ '\r')
      (unblank : (outside 0 t).all fun c => isBlank c = false) : Plain t :=
    ⟨fun _ _ _ => quiet ▸ List.not_mem_nil, Text.forall_mem_of_all unquoted, Text.forall_mem_of_all unbroken,
      Text.forall_mem_of_all unblank⟩
  have word (name : Text) (letters : name.all Char.isAlphanum) : IsParameter name := fun c hc =>
    Bool.or_eq_true_iff.2 (Or.inl (Text.isAlphanumeric_of_isAlphanum (List.all_eq_true.1 letters c hc)))
  have block : "/**\n * @param list<int> $users\n * @param array{id: int} $user\n */".toList = parameterBlock
      [("list<int>".toList, "users".toList), ("array{id: int}".toList, "user".toList)] := by decide
  have types : ∀ p ∈ [("array{id: int}".toList, "user".toList), ("list<int>".toList, "users".toList)],
      Plain p.1 := by
    simp only [List.forall_mem_cons]
    exact ⟨plain _ (by decide +kernel) (by decide) (by decide) (by decide),
      plain _ (by decide +kernel) (by decide) (by decide) (by decide), List.forall_mem_nil _⟩
  have names : ∀ p ∈ [("array{id: int}".toList, "user".toList), ("list<int>".toList, "users".toList)],
      IsParameter p.2 := by
    simp only [List.forall_mem_cons]
    exact ⟨word _ (by decide), word _ (by decide), List.forall_mem_nil _⟩
  obtain ⟨own, others⟩ := paramType_block types names (by decide) (List.Perm.swap _ _ _)
  rw [block]
  exact ⟨own _ List.mem_cons_self, others "use".toList (word _ (by decide)) (by decide)⟩

end DeclGen.Docblock
