import DeclGen.Proofs.Docblock.Extraction
import DeclGen.Proofs.Text.Bytes

/-!
# Documentation blocks scanned by offsets

The scan of a type expression needs an offset into the text only: it looks at the byte there, copies whole characters,
goes over the bytes that continue a line break one by one, and cuts out the rest of the text where it looks for a bar. A
cut at an offset inside of a character fails.

* `Place`, `Place.copy`, `scanFrom` : where a scan stands, and its turns;
* `scanTypeAt` : a type expression with the number of bytes up to its end;
* `tagEnds`, `varTypeAt`, `paramTypeAt` : the places behind a tag, and the type expressions there;
* `scanFrom_eq`, `scanTypeAt_eq`, `varTypeAt_eq`, `paramTypeAt_eq` : no cut fails, and the types are those that are
  found character by character.
-/

namespace DeclGen.Docblock
open Text (bytes size isSpacing isBlank trimStart dropBytes? between? IsBoundary offset lead cut?)

/-! ## The scan -/

/-- Where a scan stands: what was taken, the number of open brackets, and the offset of the byte that comes next. -/
structure Place where
  taken : Text
  depth : Nat
  pos : Nat

/-- Is the last character taken a bar? -/
def Place.afterBar (p : Place) : Bool := p.taken.getLast? = some '|'

/-- Takes the character at the offset, with all of its bytes. -/
def Place.copy (src : Text) (p : Place) : Option Place := do
  let rest ← dropBytes? p.pos src
  let width := (rest.head?.map Char.utf8Size).getD 1
  let part ← between? p.pos (p.pos + width) src
  return ⟨p.taken ++ part, p.depth, p.pos + width⟩

/-- The number of bytes at the start that continue a line break. -/
def breakLength : List UInt8 → Nat
  | [] => 0
  | b :: bs =>
    if isSpacing (Char.ofUInt8 b) || (Char.ofUInt8 b = '*' && bs.head?.map Char.ofUInt8 != some '/') then
      breakLength bs + 1
    else 0

/-- Takes turns from a place to the end of the scan; none of them if a cut fails. -/
def scanFrom (src : Text) : (fuel : Nat) → Place → Option Place
  | 0, _ => none
  | fuel + 1, p =>
    match (bytes src)[p.pos]?.map Char.ofUInt8 with
    | none => some p
    | some c =>
      if c ∈ opening then (Place.copy src { p with depth := p.depth + 1 }).bind (scanFrom src fuel)
      else if c ∈ closing then
        if p.depth = 0 then some p else (Place.copy src { p with depth := p.depth - 1 }).bind (scanFrom src fuel)
      else if p.depth = 0 then
        if c = '$' || (c = '*' && (bytes src)[p.pos + 1]?.map Char.ofUInt8 = some '/') then some p
        else if isSpacing c then do
          let rest ← dropBytes? p.pos src
          if joinsBar p.afterBar rest then scanFrom src fuel { p with pos := size src - size (trimStart rest) }
          else some p
        else (Place.copy src p).bind (scanFrom src fuel)
      else if c = '\n' || c = '\r' then
        scanFrom src fuel ⟨p.taken ++ [' '], p.depth, p.pos + 1 + breakLength ((bytes src).drop (p.pos + 1))⟩
      else (Place.copy src p).bind (scanFrom src fuel)

/-- The type expression at the start of a text with the number of bytes up to its end. -/
def scanTypeAt (src : Text) : Option (Option (Text × Nat)) := do
  let found ← scanFrom src (size src + 1) ⟨[], 0, size src - size (trimStart src)⟩
  let type := Text.trim found.taken
  return if found.depth = 0 && type != [] then some (type, found.pos) else none

variable {src t rest taken : Text} {c : Char} {depth : Nat}

/-! ## Turns of the scan -/

theorem copy_at (h : c :: t <:+ src) : Place.copy src ⟨taken, depth, offset src (c :: t)⟩ =
    some ⟨taken ++ [c], depth, offset src t⟩ := by
  have part : between? (offset src ([c] ++ t)) (offset src t) src = some [c] := Text.between?_offset h
  rw [List.singleton_append, Text.offset_tail h] at part
  rw [Place.copy, Text.dropBytes?_offset h, Text.offset_tail h]
  simp only [Option.bind_eq_bind, Option.bind_some, List.head?_cons, Option.map_some, Option.getD_some, part]
  rfl

theorem trimStart_cons (hc : isBlank c = true) (t : Text) : trimStart (c :: t) = trimStart t :=
  List.dropWhile_cons_of_pos hc

/-- Blanks beside a bar are gone over. -/
theorem scan_joining (bar : Bool) (t : Text) :
    scan .joining depth bar t = scan .reading depth bar (trimStart t) := by
  induction t with
  | nil => rfl
  | cons c t ih =>
    by_cases hc : isBlank c = true
    · rw [scan_joining_of_isBlank hc, ih, trimStart_cons hc]
    · rw [scan_eq_reading (by simp) (by simp [hc]), trimStart, List.dropWhile_cons_of_neg hc]

theorem breakLength_cons (c : Char) (t : Text) :
    breakLength (bytes (c :: t)) = if continuesBreak c t then breakLength (bytes t) + 1 else 0 := by
  by_cases ascii : c.toNat < 128
  · have next : ((bytes t).head?.map Char.ofUInt8 = some '/') = (t.head? = some '/') := by
      rw [Text.head?_bytes, Text.head?_lead_iff (by decide)]
    rw [Text.bytes_cons, Text.encode_ascii ascii, List.singleton_append, breakLength, Text.ofUInt8_ofNat ascii]
    simp only [bne, Bool.beq_eq_decide_eq, next, continuesBreak]
  · have far := Nat.le_of_not_lt ascii
    have other : ∀ {d : Char}, 128 ≤ d.toNat → isSpacing d = false ∧ d ≠ '*' := fun hd =>
      ⟨Bool.eq_false_iff.2 fun space => Nat.not_lt_of_le hd (Text.lt_of_isSpacing space),
        fun star => absurd hd (by rw [star]; decide)⟩
    have first := other (Text.le_lead far)
    rw [Text.bytes_cons, ← List.cons_head_tail (l := String.utf8EncodeChar c) String.utf8EncodeChar_ne_nil,
      List.cons_append, breakLength]
    simp [continuesBreak, (other far).1, (other far).2, show isSpacing (Char.ofUInt8 _) = false from first.1,
      show Char.ofUInt8 _ ≠ '*' from first.2]

/-- What continues a line break is gone over byte by byte. -/
theorem scan_folding (depth : Nat) (bar : Bool) (t : Text) : ∃ front rest, t = front ++ rest ∧
    breakLength (bytes t) = size front ∧ scan .folding depth bar t = scan .reading depth bar rest := by
  induction t with
  | nil => exact ⟨[], [], rfl, rfl, rfl⟩
  | cons c t ih =>
    rw [breakLength_cons]
    by_cases hc : continuesBreak c t = true
    · obtain ⟨front, rest, rfl, hlength, hscan⟩ := ih
      have ascii : c.toNat < 128 := by
        rcases Bool.or_eq_true_iff.1 hc with space | star
        · exact Text.lt_of_isSpacing space
        · obtain rfl : c = '*' := of_decide_eq_true (Bool.and_eq_true_iff.1 star).1
          decide
      refine ⟨c :: front, rest, rfl, ?_, ?_⟩
      · rw [if_pos hc, hlength, Text.size_cons, Text.utf8Size_ascii ascii, Nat.add_comm]
      · rw [scan_folding_of_continues hc, hscan]
    · exact ⟨[], c :: t, rfl, if_neg hc, scan_folding_of_ends (Bool.eq_false_iff.2 hc) bar⟩

/-! ## The scan, by offsets and by characters -/

/-- Characters beyond ASCII are taken as they are. -/
structure Beyond (c : Char) : Prop where
  opens : c ∉ opening
  closes : c ∉ closing
  mark : c ≠ '$' ∧ c ≠ '*'
  solid : isSpacing c = false
  line : c ≠ '\n' ∧ c ≠ '\r'

theorem beyond_of_le (h : 128 ≤ c.toNat) : Beyond c := by
  have ne : ∀ {d : Char}, d.toNat < 128 → c ≠ d := fun hd same => absurd h (by rw [same]; omega)
  have notMem : ∀ {ds : List Char}, ds.all (fun d => d.toNat < 128) = true → c ∉ ds := fun hds hc => by
    have := List.all_eq_true.1 hds c hc
    simp only [decide_eq_true_eq] at this
    omega
  exact ⟨notMem (by decide), notMem (by decide), ⟨ne (by decide), ne (by decide)⟩,
    Bool.eq_false_iff.2 fun space => Nat.not_lt_of_le h (Text.lt_of_isSpacing space), ⟨ne (by decide), ne (by decide)⟩⟩

/-- A turn where a character starts, told by the character. -/
theorem scanFrom_cons {fuel : Nat} (h : c :: t <:+ src) : scanFrom src (fuel + 1) ⟨taken, depth, offset src (c :: t)⟩ =
    if c ∈ opening then scanFrom src fuel ⟨taken ++ [c], depth + 1, offset src t⟩
    else if c ∈ closing then
      if depth = 0 then some ⟨taken, depth, offset src (c :: t)⟩
      else scanFrom src fuel ⟨taken ++ [c], depth - 1, offset src t⟩
    else if depth = 0 then
      if c = '$' || (c = '*' && t.head? = some '/') then some ⟨taken, depth, offset src (c :: t)⟩
      else if isSpacing c then
        if joinsBar (taken.getLast? = some '|') (c :: t) then scanFrom src fuel ⟨taken, depth, offset src (trimStart t)⟩
        else some ⟨taken, depth, offset src (c :: t)⟩
      else scanFrom src fuel ⟨taken ++ [c], depth, offset src t⟩
    else if c = '\n' || c = '\r' then
      scanFrom src fuel ⟨taken ++ [' '], depth, offset src t + breakLength (bytes t)⟩
    else scanFrom src fuel ⟨taken ++ [c], depth, offset src t⟩ := by
  have rest : t <:+ src := Text.suffix_of_cons h
  rw [scanFrom]
  dsimp only
  rw [Text.getElem?_offset h, List.head?_cons, Option.map_some]
  dsimp only
  simp only [copy_at h, Option.bind_some]
  by_cases ascii : c.toNat < 128
  · have step : offset src (c :: t) + 1 = offset src t := by rw [Text.offset_tail h, Text.utf8Size_ascii ascii]
    have next : ((bytes src)[offset src t]?.map Char.ofUInt8 = some '/') = (t.head? = some '/') := by
      rw [Text.getElem?_offset rest, Text.head?_lead_iff (by decide)]
    rw [Text.lead_ascii ascii, step]
    simp only [next, Text.drop_offset rest, Text.dropBytes?_offset h, Option.bind_eq_bind, Option.bind_some]
    refine if_congr Iff.rfl rfl (if_congr Iff.rfl rfl (if_congr Iff.rfl (if_congr Iff.rfl rfl ?_) rfl))
    split
    · next space => rw [trimStart_cons (Text.isBlank_of_isSpacing space)]; rfl
    · rfl
  · -- A character beyond ASCII, and what its first byte is taken for, are copied.
    have far := beyond_of_le (Nat.le_of_not_lt ascii)
    have first := beyond_of_le (Text.le_lead (Nat.le_of_not_lt ascii))
    simp [far.opens, far.closes, far.mark, far.solid, far.line, first.opens, first.closes, first.mark, first.solid,
      first.line]

/-- From a place, what the scan of the rest comes to. -/
def Place.finish (src : Text) (taken : Text) (s : Scan) : Place := ⟨taken ++ s.taken, s.depth, offset src s.rest⟩

theorem finish_push (c : Char) (s : Scan) :
    Place.finish src (taken ++ [c]) s = Place.finish src taken (s.push c) := by
  rw [Place.finish, Place.finish, List.append_assoc]
  rfl

theorem finish_nil (t : Text) : Place.finish src taken ⟨[], depth, t⟩ = ⟨taken, depth, offset src t⟩ := by
  rw [Place.finish, List.append_nil]

/-- The scan by offsets comes to what the scan by characters comes to. -/
theorem scanFrom_eq (fuel : Nat) : ∀ {taken : Text} {depth : Nat} {t : Text}, t <:+ src → t.length < fuel →
    scanFrom src fuel ⟨taken, depth, offset src t⟩ =
      some (Place.finish src taken (scan .reading depth (taken.getLast? = some '|') t)) := by
  induction fuel with
  | zero => exact fun _ h => absurd h (Nat.not_lt_zero _)
  | succ fuel ih =>
    intro taken depth t ht hf
    cases t with
    | nil => rw [scanFrom, Text.getElem?_offset ht]; exact congrArg some (finish_nil []).symm
    | cons c t =>
      rw [List.length_cons] at hf
      have rest : t <:+ src := Text.suffix_of_cons ht
      have copied : ∀ depth', scanFrom src fuel ⟨taken ++ [c], depth', offset src t⟩ =
          some (Place.finish src taken ((scan .reading depth' (c = '|') t).push c)) := fun depth' => by
        rw [ih rest (by omega), finish_push, List.getLast?_concat]
        simp only [Option.some.injEq]
      have bracket : ∀ d ∈ opening ++ closing, decide (d = '|') = false := Text.forall_mem_of_all (by decide)
      rw [scanFrom_cons ht, scan_reading]
      split
      · next opens => rw [copied, bracket c (List.mem_append_left _ opens)]
      split
      · next closes =>
        split
        · rw [finish_nil]
        · rw [copied, bracket c (List.mem_append_right _ closes)]
      split
      · split
        · rw [finish_nil]
        split
        · split
          · have blanks : trimStart t <:+ t := List.dropWhile_suffix _
            have := blanks.length_le
            rw [ih (blanks.trans rest) (by omega), scan_joining]
          · rw [finish_nil]
        · exact copied depth
      split
      · obtain ⟨front, behind, rfl, hlength, hscan⟩ := scan_folding depth false t
        have shorter := (List.suffix_append front behind).length_le
        rw [hlength, ← Text.offset_of_append rest, ih ((List.suffix_append front behind).trans rest) (by omega),
          finish_push, List.getLast?_concat, hscan]
        rfl
      · exact copied depth

/-- The scan leaves an end of the text. -/
theorem suffix_scan (mode : Mode) (depth : Nat) (bar : Bool) (t : Text) : (scan mode depth bar t).rest <:+ t := by
  induction t generalizing mode depth bar with
  | nil => exact List.nil_suffix
  | cons c t ih =>
    have more : ∀ {mode depth bar}, (scan mode depth bar t).rest <:+ c :: t := (ih _ _ _).trans (List.suffix_cons c t)
    rw [scan]
    repeat' split
    all_goals first | exact more | exact List.suffix_refl _

theorem suffix_of_scanType {type : Text} (h : scanType t = some (type, rest)) : rest <:+ t := by
  rw [scanType] at h
  split at h
  · obtain ⟨-, rfl⟩ := Prod.mk.inj (Option.some.inj h)
    exact (suffix_scan .reading 0 false _).trans (List.dropWhile_suffix _)
  · cases h

theorem scanTypeAt_eq (t : Text) :
    scanTypeAt t = some ((scanType t).map fun found => (found.1, offset t found.2)) := by
  have start : trimStart t <:+ t := List.dropWhile_suffix _
  have enough : (trimStart t).length < size t + 1 := by
    have := start.length_le
    have := Text.length_le_size t
    omega
  have scanned : scanFrom t (size t + 1) ⟨[], 0, offset t (trimStart t)⟩ = _ := scanFrom_eq _ start enough
  rw [scanTypeAt, scanType, show size t - size (trimStart t) = offset t (trimStart t) from rfl, scanned]
  simp only [Option.bind_eq_bind, Option.bind_some, Place.finish, List.nil_append, List.getLast?_nil, reduceCtorEq,
    decide_false]
  split <;> rfl

/-! ## Tags -/

/-- The offsets at which a part occurs, each occurrence behind the one before. -/
def matchIndices (part : Text) : (fuel : Nat) → Text → List Nat
  | 0, _ => []
  | fuel + 1, t =>
    match cut? part t with
    | none => []
    | some (before, rest) => size before :: (matchIndices part fuel rest).map (size before + size part + ·)

/-- The offsets behind those occurrences of a tag that a blank follows. -/
def tagEnds (tag src : Text) : List Nat → Option (List Nat)
  | [] => some []
  | start :: starts => do
    let rest ← dropBytes? (start + size tag) src
    let ends ← tagEnds tag src starts
    return if rest.head?.any isBlank then (start + size tag) :: ends else ends

/-- What is found at the first of the offsets at which something is found. -/
def firstAt (find : Nat → Option (Option Text)) : List Nat → Option (Option Text)
  | [] => some none
  | start :: starts => do
    match ← find start with
    | some type => return some type
    | none => firstAt find starts

/-- The type expression that starts behind an `@var`. -/
def varAt (src : Text) (start : Nat) : Option (Option Text) := do
  let rest ← dropBytes? start src
  let found ← scanTypeAt rest
  return found.map Prod.fst

/-- The type expression that starts behind an `@param`, if the parameter's name follows it. -/
def paramAt (src param : Text) (start : Nat) : Option (Option Text) := do
  let rest ← dropBytes? start src
  match ← scanTypeAt rest with
  | none => return none
  | some (type, consumed) =>
    let after ← dropBytes? consumed rest
    return if namesParameter param (trimStart after) then some type else none

/-- The type expression after the first `@var` that one follows. -/
def varTypeAt (src : Text) : Option (Option Text) := do
  let ends ← tagEnds "@var".toList src (matchIndices "@var".toList (size src + 1) src)
  firstAt (varAt src) ends

/-- The type expression between the first `@param` and the parameter's name. -/
def paramTypeAt (src param : Text) : Option (Option Text) := do
  let ends ← tagEnds "@param".toList src (matchIndices "@param".toList (size src + 1) src)
  firstAt (paramAt src param) ends

section Tags
variable {word before : Text}

theorem tagTails_of_cut?_none {tag : Text} (h : cut? tag t = none) : tagTails tag t = [] := by
  induction t with
  | nil => rfl
  | cons c t ih =>
    rw [cut?] at h
    rw [tagTails]
    split at h
    · cases h
    · next absent =>
      rw [absent]
      exact ih (Option.map_eq_none_iff.1 h)

/-- A tag with one at sign: what follows its first occurrence comes first. -/
theorem tagTails_of_cut? (single : '@' ∉ word) (h : cut? ('@' :: word) t = some (before, rest)) :
    tagTails ('@' :: word) t = (if rest.head?.any isBlank then [rest] else []) ++ tagTails ('@' :: word) rest := by
  induction t generalizing before with
  | nil => exact absurd h (by simp [cut?])
  | cons c t ih =>
    rw [cut?] at h
    rw [tagTails]
    cases found : Text.after? ('@' :: word) (c :: t) with
    | none =>
      rw [found] at h
      obtain ⟨⟨before', rest'⟩, hc, same⟩ := Option.map_eq_some_iff.1 h
      obtain ⟨-, rfl⟩ := Prod.mk.inj same
      exact ih hc
    | some behind =>
      rw [found] at h
      obtain ⟨rfl, rfl⟩ := Prod.mk.inj (Option.some.inj h)
      have ht := (List.cons.inj (Text.after?_eq_some_iff.1 found)).2
      rw [ht, List.append_eq, tagTails_append_of_notMem single]
      cases behind with
      | nil => rfl
      | cons b behind =>
        show (if isBlank b = true then _ else _) = (if isBlank b = true then [b :: behind] else []) ++ _
        split <;> rfl

theorem tagEnds_eq (single : '@' ∉ word) (fuel : Nat) : ∀ {t : Text}, t <:+ src → t.length < fuel →
    tagEnds ('@' :: word) src ((matchIndices ('@' :: word) fuel t).map (offset src t + ·)) =
      some ((tagTails ('@' :: word) t).map (offset src)) := by
  induction fuel with
  | zero => exact fun _ h => absurd h (Nat.not_lt_zero _)
  | succ fuel ih =>
    intro t ht hf
    rw [matchIndices]
    cases hc : cut? ('@' :: word) t with
    | none => rw [tagTails_of_cut?_none hc]; rfl
    | some found =>
      obtain ⟨before, rest⟩ := found
      obtain rfl := Text.eq_append_of_cut? hc
      have hrest : rest <:+ src := (List.suffix_append _ _).trans ht
      have behind : offset src (before ++ '@' :: word ++ rest) + size before + size ('@' :: word) =
          offset src rest := by
        rw [Text.offset_of_append ht, Text.size_append, Nat.add_assoc]
      have shifted : (offset src (before ++ '@' :: word ++ rest) + ·) ∘ (size before + size ('@' :: word) + ·) =
          (offset src rest + ·) := by
        funext n
        rw [← behind, Function.comp_apply]
        omega
      rw [tagTails_of_cut? single hc, List.map_cons, List.map_map, tagEnds, behind, Text.dropBytes?_offset hrest,
        shifted, ih hrest (by rw [List.length_append, List.length_append, List.length_cons] at hf; omega)]
      simp only [Option.bind_eq_bind, Option.bind_some]
      split <;> rfl

theorem firstAt_map {find : Nat → Option (Option Text)} {f : Text → Option Text} {rests : List Text}
    (h : ∀ rest ∈ rests, find (offset src rest) = some (f rest)) :
    firstAt find (rests.map (offset src)) = some (rests.findSome? f) := by
  induction rests with
  | nil => rfl
  | cons rest rests ih =>
    rw [List.forall_mem_cons] at h
    rw [List.map_cons, firstAt, h.1, List.findSome?_cons]
    cases f rest with
    | none => exact ih h.2
    | some type => rfl

theorem suffix_of_mem_tagTails {tag : Text} (h : rest ∈ tagTails tag t) : rest <:+ t := by
  induction t with
  | nil => exact absurd h (by simp [tagTails])
  | cons c t ih =>
    have more : rest ∈ tagTails tag t → rest <:+ c :: t := fun h => (ih h).trans (List.suffix_cons c t)
    rw [tagTails] at h
    split at h
    · next b behind found =>
      split at h
      · rcases List.mem_cons.1 h with rfl | h
        · exact ⟨tag, (Text.after?_eq_some_iff.1 found).symm⟩
        · exact more h
      · exact more h
    · exact more h

end Tags

/-- All the places behind a tag. -/
theorem tagEnds_src (word : Text) (single : '@' ∉ word) (src : Text) :
    tagEnds ('@' :: word) src (matchIndices ('@' :: word) (size src + 1) src) =
      some ((tagTails ('@' :: word) src).map (offset src)) := by
  have enough : src.length < size src + 1 := Nat.lt_succ_of_le (Text.length_le_size src)
  have ends := tagEnds_eq single (size src + 1) (List.suffix_refl src) enough
  rw [offset, Nat.sub_self] at ends
  simpa using ends

theorem varTypeAt_eq (src : Text) : varTypeAt src = some (varType src) := by
  have ends : tagEnds "@var".toList src (matchIndices "@var".toList (size src + 1) src) =
      some ((tagTails "@var".toList src).map (offset src)) := tagEnds_src "var".toList (by decide) src
  rw [varTypeAt, ends, Option.bind_eq_bind, Option.bind_some]
  refine firstAt_map fun rest hrest => ?_
  rw [varAt, Text.dropBytes?_offset (suffix_of_mem_tagTails hrest), Option.bind_eq_bind, Option.bind_some,
    scanTypeAt_eq]
  cases scanType rest <;> rfl

theorem paramTypeAt_eq (src param : Text) : paramTypeAt src param = some (paramType src param) := by
  have ends : tagEnds "@param".toList src (matchIndices "@param".toList (size src + 1) src) =
      some ((tagTails "@param".toList src).map (offset src)) := tagEnds_src "param".toList (by decide) src
  rw [paramTypeAt, ends, Option.bind_eq_bind, Option.bind_some]
  refine firstAt_map fun rest hrest => ?_
  rw [paramAt, Text.dropBytes?_offset (suffix_of_mem_tagTails hrest), Option.bind_eq_bind, Option.bind_some,
    scanTypeAt_eq]
  cases found : scanType rest with
  | none => rfl
  | some result =>
    obtain ⟨type, after⟩ := result
    show (dropBytes? (offset rest after) rest).bind _ = _
    rw [Text.dropBytes?_offset (suffix_of_scanType found), Option.bind_some]
    rfl

end DeclGen.Docblock
