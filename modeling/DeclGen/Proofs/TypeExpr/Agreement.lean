import DeclGen.Proofs.TypeExpr.Cursor

/-!
# Bytes and characters are read alike

* `Mirrors` : what reading byte by byte comes to, told by what reading character by character comes to;
  `Mirrors.bind`, `Mirrors.map`, `Mirrors.after` : of readings put together;
* `inner`, `mirrors_nested` : one nesting more;
* `Follows` : all readers mirror those of the grammar, with fuel for what is left of the text; `Follows.next` : with one
  call more, from one lemma a reader;
* `root_mirrors`, `diagnose_eq` : whole texts.
-/

namespace DeclGen.TypeExpr.Bytewise
open Text (bytes size isSpacing skipSpacing Uniform lead offset)

variable {α β σ : Type} {src : Text} {k : Nat} {noted : List Text} {t : Text}

/-! ## Readings that come to the same -/

/-- Bytes are read as characters are: from a cursor with `k` nestings open and the keys `noted` taken down, at the rest
`t` of the text, to the value and the rest, or to the place and the reason where reading gave up. -/
inductive Mirrors (src : Text) (k : Nat) (noted : List Text) (t : Text) :
    Except TypeExpr.Malformed (Parsed α) → Except Stop α × Cursor → Prop
  | ok (p : Parsed α) (rest : p.rest <:+ t) :
    Mirrors src k noted t (.ok p) (.ok p.value, cursorAt src k (noted ++ p.redeclared) p.rest)
  | error (m : TypeExpr.Malformed) (keys : List Text) (rest : m.rest <:+ t) :
    Mirrors src k noted t (.error m)
      (.error (.malformed (offset src m.rest) m.reason), cursorAt src k (noted ++ keys) m.rest)

theorem Mirrors.mono {u : Text} {m : Except TypeExpr.Malformed (Parsed α)} {out : Except Stop α × Cursor}
    (h : Mirrors src k noted u m out) (hu : u <:+ t) : Mirrors src k noted t m out := by
  cases h with
  | ok p rest => exact .ok p (rest.trans hu)
  | error m keys rest => exact .error m keys (rest.trans hu)

theorem mirrors_pure (value : α) : Mirrors src k noted t (.ok ⟨value, [], t⟩)
    ((pure value : Reading α).run (cursorAt src k noted t)) := by
  have same : Mirrors src k noted t _ (.ok value, cursorAt src k (noted ++ []) t) :=
    .ok ⟨value, [], t⟩ (List.suffix_refl t)
  rwa [List.append_nil] at same

theorem mirrors_malformed (reason : Reason) : Mirrors src k noted t (.error ⟨reason, t⟩)
    ((malformed reason : Reading α).run (cursorAt src k noted t)) := by
  have same : Mirrors src k noted t _
      ((.error (.malformed (offset src t) reason) : Except Stop α), cursorAt src k (noted ++ []) t) :=
    .error ⟨reason, t⟩ [] (List.suffix_refl t)
  rwa [List.append_nil] at same

/-- The second of two readings starts where the first one ends. -/
theorem Mirrors.bind {u : Text} {keys : List Text} {m : Except TypeExpr.Malformed (Parsed α)}
    {g : Parsed α → Except TypeExpr.Malformed (Parsed β)} {x : Reading α} {f : α → Reading β} {c : Cursor}
    (first : Mirrors src k (noted ++ keys) u m (x.run c)) (hu : u <:+ t)
    (next : ∀ p : Parsed α, m = .ok p → p.rest <:+ u →
      Mirrors src k noted t (g p) ((f p.value).run (cursorAt src k (noted ++ (keys ++ p.redeclared)) p.rest))) :
    Mirrors src k noted t (m >>= g) ((x >>= f).run c) := by
  generalize ho : x.run c = out at first
  cases first with
  | ok p rest =>
    rw [run_bind_ok ho, ok_bind, List.append_assoc]
    exact next p rfl rest
  | error m more rest =>
    rw [run_bind_error ho, error_bind, List.append_assoc]
    exact .error m (keys ++ more) (rest.trans hu)

theorem Mirrors.bind_fresh {u : Text} {m : Except TypeExpr.Malformed (Parsed α)}
    {g : Parsed α → Except TypeExpr.Malformed (Parsed β)} {x : Reading α} {f : α → Reading β} {c : Cursor}
    (first : Mirrors src k noted u m (x.run c)) (hu : u <:+ t)
    (next : ∀ p : Parsed α, m = .ok p → p.rest <:+ u →
      Mirrors src k noted t (g p) ((f p.value).run (cursorAt src k (noted ++ p.redeclared) p.rest))) :
    Mirrors src k noted t (m >>= g) ((x >>= f).run c) := by
  have fresh : Mirrors src k (noted ++ []) u m (x.run c) := by rwa [List.append_nil]
  exact fresh.bind hu next

theorem Mirrors.map {m : Except TypeExpr.Malformed (Parsed α)} {x : Reading α} {c : Cursor}
    (h : Mirrors src k noted t m (x.run c)) (f : α → β) :
    Mirrors src k noted t (do let p ← m; return p.map f) ((do let a ← x; return f a).run c) :=
  h.bind_fresh (List.suffix_refl t) fun p _ hp => .ok (p.map f) hp

/-- What a reading comes to that goes on where keys were taken down already. -/
theorem Mirrors.after {u : Text} {keys : List Text} {m : Except TypeExpr.Malformed (Parsed α)}
    {out : Except Stop α × Cursor} (h : Mirrors src k (noted ++ keys) u m out) (hu : u <:+ t) :
    Mirrors src k noted t (do let p ← m; return ⟨p.value, keys ++ p.redeclared, p.rest⟩) out := by
  cases h with
  | ok p rest =>
    rw [List.append_assoc]
    exact .ok ⟨p.value, keys ++ p.redeclared, p.rest⟩ (rest.trans hu)
  | error m more rest =>
    rw [List.append_assoc]
    exact .error m (keys ++ more) (rest.trans hu)

/-- What is read into a list after `first`, where the reading has `acc` and `first` before it. -/
theorem Mirrors.onto {u : Text} {keys : List Text} {first : α} {m : Except TypeExpr.Malformed (Parsed (List α))}
    {out : Except Stop (List α) × Cursor} (acc : List α)
    (h : Mirrors src k (noted ++ keys) u (do let more ← m; return more.map (acc ++ [first] ++ ·)) out)
    (hu : u <:+ t) :
    Mirrors src k noted t
      (do let more ← m; return ⟨acc ++ first :: more.value, keys ++ more.redeclared, more.rest⟩) out := by
  have whole := h.after hu
  cases m with
  | error m => exact whole
  | ok more => simpa [Parsed.map, Bind.bind, Except.bind, Pure.pure, Except.pure] using whole

/-- The readers of the next deeper nesting, if `k` nestings are open. -/
def inner (k : Nat) : Option Level := if k < maxNesting then some (level (maxNesting - (k + 1))) else none

theorem level_eq (hk : k ≤ maxNesting) : level (maxNesting - k) = layer (inner k) := by
  rw [inner]
  by_cases room : k < maxNesting
  · obtain ⟨n, hn⟩ := Nat.exists_eq_add_of_lt room
    rw [if_pos room, show maxNesting - k = n + 1 by omega, show maxNesting - (k + 1) = n by omega]
    rfl
  · rw [if_neg room, show maxNesting - k = 0 by omega]
    rfl

theorem nested_of_lt {x : Reading α} {m : Except TypeExpr.Malformed (Parsed α)} (hk : k < maxNesting)
    (h : Mirrors src (k + 1) noted t m (x.run (cursorAt src (k + 1) noted t))) :
    Mirrors src k noted t m ((nested x).run (cursorAt src k noted t)) := by
  generalize inside : x.run (cursorAt src (k + 1) noted t) = out at h
  rw [run_nested hk inside]
  cases h with
  | ok p rest => exact .ok p rest
  | error m keys rest => exact .error m keys rest

/-- A reading with one more nesting open, and the readers of the next deeper nesting. -/
theorem mirrors_nested {x : Reading α} (read : Level → Text → Except TypeExpr.Malformed (Parsed α))
    (h : Mirrors src (k + 1) noted t (read (layer (inner (k + 1))) t) (x.run (cursorAt src (k + 1) noted t))) :
    Mirrors src k noted t
      (match inner k with
        | none => .error ⟨.tooDeep, t⟩
        | some level => read level t)
      ((nested x).run (cursorAt src k noted t)) := by
  by_cases room : k < maxNesting
  · have deep := nested_of_lt room h
    rw [← level_eq room] at deep
    rw [inner, if_pos room]
    exact deep
  · rw [inner, if_neg room, run_nested_of_le (Nat.le_of_not_lt room)]
    exact mirrors_malformed .tooDeep

/-! ## Readers, called one less deep -/

/-- What the readers come to from a rest of the text, if the fuel is enough for it. -/
structure Follows (src : Text) (fuel : Nat) (r : Readers) : Prop where
  type : ∀ {k noted t}, t <:+ src → 6 * t.length + 6 ≤ fuel →
    Mirrors src k noted t (TypeExpr.type (inner k) t) (r.type.run (cursorAt src k noted t))
  union : ∀ {k noted t}, t <:+ src → 6 * t.length + 5 ≤ fuel →
    Mirrors src k noted t (TypeExpr.union (inner k) t) (r.union.run (cursorAt src k noted t))
  member : ∀ {k noted t}, t <:+ src → 6 * t.length + 5 ≤ fuel →
    Mirrors src k noted t (TypeExpr.member (inner k) t) (r.member.run (cursorAt src k noted t))
  suffixed : ∀ {k noted t}, t <:+ src → 6 * t.length + 4 ≤ fuel →
    Mirrors src k noted t (TypeExpr.suffixed (inner k) t) (r.suffixed.run (cursorAt src k noted t))
  atom : ∀ {k noted t}, t <:+ src → 6 * t.length + 3 ≤ fuel →
    Mirrors src k noted t (TypeExpr.atom (inner k) t) (r.atom.run (cursorAt src k noted t))
  afterName : ∀ {k noted t name}, t <:+ src → 6 * t.length + 3 ≤ fuel →
    Mirrors src k noted t (TypeExpr.afterName (inner k) name t) ((r.afterName name).run (cursorAt src k noted t))
  record : ∀ {k noted t}, '{' :: t <:+ src → 6 * t.length + 8 ≤ fuel →
    Mirrors src k noted ('{' :: t) (TypeExpr.record (layer (inner k)) ('{' :: t))
      (r.record.run (cursorAt src k noted ('{' :: t)))
  arguments : ∀ {k noted t}, '<' :: t <:+ src → 6 * t.length + 8 ≤ fuel →
    Mirrors src k noted ('<' :: t) (TypeExpr.arguments (layer (inner k)) (t.length + 2) t)
      (r.arguments.run (cursorAt src k noted ('<' :: t)))
  argument : ∀ {k noted t}, t <:+ src → 6 * t.length + 7 ≤ fuel →
    Mirrors src k noted t (TypeExpr.argument (layer (inner k)) t) (r.argument.run (cursorAt src k noted t))

section Steps
variable {fuel : Nat} {r : Readers}

/-- A reading with a `?` in front, or another. -/
theorem prefixed_mirrors {x y : Reading TypeNode} (read : Level → Reader) {other : Reader} (ht : t <:+ src)
    (deep : ∀ rest, '?' :: rest <:+ t →
      Mirrors src (k + 1) noted rest (read (layer (inner (k + 1))) rest) (x.run (cursorAt src (k + 1) noted rest)))
    (plain : Mirrors src k noted (skipSpacing t) (other (skipSpacing t))
      (y.run (cursorAt src k noted (skipSpacing t)))) :
    Mirrors src k noted t
      (match skipSpacing t with
        | '?' :: rest => do
          let found ← deeper (inner k) read rest
          return found.map .nullable
        | t => other t)
      ((do
        skip src isSpacing
        if ← eat src '?' then
          let inner ← nested x
          return inner.nullable
        else y : Reading TypeNode).run (cursorAt src k noted t)) := by
  have blanks := suffix_skipSpacing t
  have hs := blanks.trans ht
  rw [run_bind_ok (skipSpacing_at ht)]
  split
  · next rest heq =>
    rw [heq] at blanks hs ⊢
    rw [run_bind_ok (eat_cons (by decide) hs), if_pos rfl]
    exact (Mirrors.map (mirrors_nested read (deep rest blanks)) _).mono (Text.suffix_of_cons blanks)
  · next hne =>
    rw [run_bind_ok (eat_of_ne (by decide) hs fun rest heq => hne rest heq), if_neg (by simp)]
    exact plain.mono blanks

theorem Follows.typeStep (hr : Follows src fuel r) (ht : t <:+ src)
    (hf : 6 * t.length + 5 ≤ fuel) :
    Mirrors src k noted t (TypeExpr.type (inner k) t) ((r.typeStep src).run (cursorAt src k noted t)) := by
  refine prefixed_mirrors Level.type ht (fun rest hrest => ?_) ?_
  · refine hr.type (Text.suffix_of_cons (hrest.trans ht)) ?_
    have := hrest.length_le
    rw [List.length_cons] at this
    omega
  · refine hr.union ((suffix_skipSpacing t).trans ht) ?_
    have := (suffix_skipSpacing t).length_le
    omega

theorem Follows.memberStep (hr : Follows src fuel r) (ht : t <:+ src)
    (hf : 6 * t.length + 4 ≤ fuel) :
    Mirrors src k noted t (TypeExpr.member (inner k) t) ((r.memberStep src).run (cursorAt src k noted t)) := by
  refine prefixed_mirrors Level.suffixed ht (fun rest hrest => ?_) ?_
  · refine hr.suffixed (Text.suffix_of_cons (hrest.trans ht)) ?_
    have := hrest.length_le
    rw [List.length_cons] at this
    omega
  · refine hr.suffixed ((suffix_skipSpacing t).trans ht) ?_
    have := (suffix_skipSpacing t).length_le
    omega

theorem suffixTurn_at (k : Nat) (noted : List Text) (node : TypeNode) (ht : t <:+ src) :
    (Readers.suffixTurn src node).run (cursorAt src k noted t) =
      match skipSpacing t with
      | '[' :: rest =>
        match skipSpacing rest with
        | ']' :: rest => (.ok (.again (.array node)), cursorAt src k noted rest)
        | rest => (.error (.malformed (offset src rest) .missingBracket), cursorAt src k noted rest)
      | _ => (.ok (.done node), cursorAt src k noted t) := by
  have hs := (suffix_skipSpacing t).trans ht
  rw [Readers.suffixTurn, run_bind_ok position_at, run_bind_ok (skipSpacing_at ht)]
  split
  · next rest heq =>
    rw [heq] at hs ⊢
    have hrest : rest <:+ src := Text.suffix_of_cons hs
    have hblanks := (suffix_skipSpacing rest).trans hrest
    rw [run_bind_ok (eat_cons (by decide) hs), if_pos rfl, run_bind_ok (skipSpacing_at hrest)]
    split
    · next following heq =>
      rw [heq] at hblanks ⊢
      rw [run_bind_ok (eat_cons (by decide) hblanks), if_pos rfl]
      rfl
    · next hne =>
      rw [run_bind_ok (eat_of_ne (by decide) hblanks fun following heq => hne following heq), if_neg (by simp)]
      rfl
  · next hne =>
    rw [run_bind_ok (eat_of_ne (by decide) hs fun rest heq => hne rest heq), if_neg (by simp), run_bind_ok moveTo_at]
    rfl

theorem suffixes_mirrors {keys : List Text} (n : Nat) : ∀ {turns : Nat} {node : TypeNode} {u : Text}, u <:+ t →
    t <:+ src → u.length ≤ n → u.length < turns →
    Mirrors src k noted t (suffixes n ⟨node, keys, u⟩)
      ((loop (Readers.suffixTurn src) turns node).run (cursorAt src k (noted ++ keys) u)) := by
  induction n with
  | zero =>
    intro turns node u hu ht hn hturns
    obtain rfl := List.eq_nil_of_length_eq_zero (Nat.le_zero.1 hn)
    obtain ⟨turns, rfl⟩ := Nat.exists_eq_succ_of_ne_zero (Nat.ne_of_gt hturns)
    rw [loop_done (suffixTurn_at k _ node List.nil_suffix)]
    exact .ok ⟨node, keys, []⟩ hu
  | succ n ih =>
    intro turns node u hu ht hn hturns
    obtain ⟨turns, rfl⟩ := Nat.exists_eq_succ_of_ne_zero (Nat.ne_of_gt (Nat.zero_lt_of_lt hturns))
    have turn := suffixTurn_at k (noted ++ keys) node (hu.trans ht)
    rw [suffixes]
    have blanks := suffix_skipSpacing u
    split
    · next rest heq =>
      simp only [heq] at blanks turn
      have inside := suffix_skipSpacing rest
      have shorter := blanks.length_le
      rw [List.length_cons] at shorter
      split
      · next following heq =>
        simp only [heq] at inside turn
        have shorter' := inside.length_le
        rw [List.length_cons] at shorter'
        rw [loop_again turn]
        refine ih ?_ ht (by omega) (by omega)
        exact ((Text.suffix_of_cons inside).trans (List.suffix_cons _ _)).trans (blanks.trans hu)
      · next hne =>
        rw [loop_error (turn.trans ?_)]
        · exact .error ⟨.missingBracket, skipSpacing rest⟩ keys
            ((inside.trans (List.suffix_cons _ _)).trans (blanks.trans hu))
        · split
          · next following heq => exact absurd heq (hne following)
          · rfl
    · next hne =>
      rw [loop_done (turn.trans ?_)]
      · exact .ok ⟨node, keys, u⟩ hu
      · split
        · next rest heq => exact absurd heq (hne rest)
        · rfl

theorem Follows.suffixedStep (hr : Follows src fuel r) (ht : t <:+ src)
    (hf : 6 * t.length + 3 ≤ fuel) :
    Mirrors src k noted t (TypeExpr.suffixed (inner k) t) ((r.suffixedStep src fuel).run (cursorAt src k noted t)) := by
  refine Mirrors.bind_fresh (hr.atom ht hf) (List.suffix_refl t) fun p _ hp => ?_
  have := hp.length_le
  exact suffixes_mirrors _ hp ht (Nat.le_refl _) (by omega)

theorem members_of_ne {i : Option Level} {n : Nat} (hne : ∀ rest, t ≠ '|' :: rest) :
    members i n t = .ok ⟨[], [], t⟩ := by
  rw [members.eq_def]
  split
  · next _ _ rest => exact absurd rfl (hne rest)
  · rfl

/-- The machine has read `acc` before the members. -/
theorem members_mirrors (hr : Follows src fuel r) (k n : Nat) :
    ∀ (turns : Nat) (noted : List Text) (acc : List TypeNode) {t : Text}, t <:+ src → t.length ≤ n →
    t.length < turns → 6 * t.length ≤ fuel →
    Mirrors src k noted t (do let more ← members (inner k) n t; return more.map (acc ++ ·))
      ((loop (r.memberTurn src) turns acc).run (cursorAt src k noted t)) := by
  have last : ∀ {turns : Nat} {noted : List Text} {t : Text} {acc : List TypeNode}, t <:+ src →
      (∀ rest, t ≠ '|' :: rest) → t.length < turns →
      Mirrors src k noted t (.ok ⟨acc ++ [], [], t⟩)
        ((loop (r.memberTurn src) turns acc).run (cursorAt src k noted t)) := by
    intro turns noted t acc ht hne hturns
    obtain ⟨turns, rfl⟩ := Nat.exists_eq_succ_of_ne_zero (Nat.ne_of_gt (Nat.zero_lt_of_lt hturns))
    rw [List.append_nil, loop, Readers.memberTurn, run_bind_assoc, run_bind_ok (eat_of_ne (by decide) ht hne),
      if_neg (by simp)]
    exact mirrors_pure acc
  induction n with
  | zero =>
    intro turns noted acc t ht hn hturns hf
    obtain rfl := List.eq_nil_of_length_eq_zero (Nat.le_zero.1 hn)
    exact last ht (by simp) hturns
  | succ n ih =>
    intro turns noted acc t ht hn hturns hf
    by_cases bar : ∃ rest, t = '|' :: rest
    · obtain ⟨rest, rfl⟩ := bar
      obtain ⟨turns, rfl⟩ := Nat.exists_eq_succ_of_ne_zero (Nat.ne_of_gt (Nat.zero_lt_of_lt hturns))
      rw [List.length_cons] at hn hturns hf
      have hrest : rest <:+ src := Text.suffix_of_cons ht
      rw [loop, Readers.memberTurn, run_bind_assoc, run_bind_ok (eat_cons (by decide) ht), if_pos rfl, run_bind_assoc,
        members, bind_assoc]
      refine Mirrors.bind_fresh (hr.member hrest (by omega)) (List.suffix_cons _ _) fun p _ hp => ?_
      have blanks := suffix_skipSpacing p.rest
      have shorter := (blanks.trans hp).length_le
      rw [run_bind_assoc, run_bind_ok (skipSpacing_at (hp.trans hrest)), run_pure_bind]
      have more := ih turns (noted ++ p.redeclared) (acc ++ [p.value])
        ((blanks.trans hp).trans hrest) (by omega) (by omega) (by omega)
      simp only [bind_assoc, pure_bind]
      exact more.onto acc ((blanks.trans hp).trans (List.suffix_cons '|' rest))
    · have hne : ∀ rest, t ≠ '|' :: rest := fun rest hrest => bar ⟨rest, hrest⟩
      rw [members_of_ne hne]
      exact last ht hne hturns

theorem members_bar {i : Option Level} {n : Nat} {rest : Text} {more : Parsed (List TypeNode)}
    (h : members i (n + 1) ('|' :: rest) = .ok more) : more.value.isEmpty = false := by
  rw [members] at h
  cases hm : TypeExpr.member i rest with
  | error m => rw [hm] at h; exact absurd h (by simp)
  | ok first =>
    rw [hm, ok_bind] at h
    cases hs : members i n (skipSpacing first.rest) with
    | error m => rw [hs] at h; exact absurd h (by simp)
    | ok others =>
      rw [hs, ok_bind] at h
      cases h
      rfl

theorem Follows.unionStep (hr : Follows src fuel r) (ht : t <:+ src)
    (hf : 6 * t.length + 4 ≤ fuel) :
    Mirrors src k noted t (TypeExpr.union (inner k) t) ((r.unionStep src fuel).run (cursorAt src k noted t)) := by
  refine Mirrors.bind_fresh (hr.suffixed ht hf) (List.suffix_refl t) fun p _ hp => ?_
  have blanks := suffix_skipSpacing p.rest
  have hs := (blanks.trans hp).trans ht
  rw [run_bind_ok (skipSpacing_at (hp.trans ht)), run_bind_ok (peek_at hs)]
  have shorter := (blanks.trans hp).length_le
  by_cases bar : ∃ rest, skipSpacing p.rest = '|' :: rest
  · obtain ⟨rest, heq⟩ := bar
    rw [if_pos ((map_lead_eq_iff (by decide)).2 ⟨rest, heq⟩)]
    have more := members_mirrors hr k (skipSpacing p.rest).length fuel (noted ++ p.redeclared) [p.value] hs
      (Nat.le_refl _) (by omega) (by omega)
    have whole := (more.map TypeNode.union).after (blanks.trans hp)
    dsimp only
    cases hm : members (inner k) (skipSpacing p.rest).length (skipSpacing p.rest) with
    | error m => rwa [hm] at whole
    | ok q =>
      rw [hm] at whole
      rw [heq] at hm
      have some := members_bar hm
      simpa [Parsed.map, Bind.bind, Except.bind, Pure.pure, Except.pure, some] using whole
  · have hne : ∀ rest, skipSpacing p.rest ≠ '|' :: rest := fun rest heq => bar ⟨rest, heq⟩
    rw [if_neg fun same => bar ((map_lead_eq_iff (by decide)).1 same)]
    dsimp only
    rw [members_of_ne hne]
    have alone : Mirrors src k (noted ++ p.redeclared) (skipSpacing p.rest) _ _ := mirrors_pure p.value
    have whole := alone.after (blanks.trans hp)
    simpa [Bind.bind, Except.bind, Pure.pure, Except.pure] using whole

theorem suffix_of_entryKey? {name rest : Text} {optional : Bool} (h : entryKey? t = some (name, optional, rest)) :
    rest <:+ t := by
  rw [entryKey?] at h
  cases hk : key? t with
  | none => rw [hk] at h; exact absurd h (by simp)
  | some key =>
    rw [hk] at h
    dsimp only at h
    split at h
    · next following heq =>
      have behind : ':' :: following <:+ t :=
        heq ▸ (((suffix_skipSpacing _).trans (suffix_optional? _)).trans (suffix_skipSpacing _)).trans
          (suffix_of_key? hk)
      cases h
      exact Text.suffix_of_cons behind
    · exact absurd h (by simp)

theorem Follows.entry (hr : Follows src fuel r) (ht : t <:+ src) (hf : 6 * t.length + 6 ≤ fuel)
    (index : Nat) :
    Mirrors src k noted t (TypeExpr.entry (layer (inner k)) index t)
      ((r.entry src index).run (cursorAt src k noted t)) := by
  have keyed : (entryKey src).run (cursorAt src k noted t) = _ := entryKey_at ht
  rw [Readers.entry, TypeExpr.entry]
  cases he : entryKey? t with
  | none =>
    rw [he] at keyed
    rw [run_bind_ok keyed]
    exact (hr.type ht hf).map _
  | some found =>
    obtain ⟨name, optional, rest⟩ := found
    rw [he] at keyed
    have hrest := suffix_of_entryKey? he
    have shorter := hrest.length_le
    rw [run_bind_ok keyed]
    exact ((hr.type (hrest.trans ht) (by omega)).map _).mono hrest

theorem entries_mirrors (hr : Follows src fuel r) (n : Nat) :
    ∀ {turns index : Nat} {declared : List (RecordEntry TypeNode)} {noted : List Text} {t : Text}, t <:+ src →
    t.length < n → t.length < turns → 6 * t.length + 6 ≤ fuel →
    Mirrors src k noted t (entries (layer (inner k)) n index declared t)
      ((loop (r.entryTurn src) turns (declared, index)).run (cursorAt src k noted t)) := by
  induction n with
  | zero => exact fun _ hn _ _ => absurd hn (Nat.not_lt_zero _)
  | succ n ih =>
    intro turns index declared noted t ht hn hturns hf
    obtain ⟨turns, rfl⟩ := Nat.exists_eq_succ_of_ne_zero (Nat.ne_of_gt (Nat.zero_lt_of_lt hturns))
    have blanks := suffix_skipSpacing t
    have hs := blanks.trans ht
    have shorter := blanks.length_le
    rw [loop, Readers.entryTurn, run_bind_assoc, run_bind_ok (skipSpacing_at ht), entries, run_bind_assoc]
    split
    · next rest heq =>
      rw [heq] at hs blanks ⊢
      rw [run_bind_ok (eat_cons (by decide) hs), if_pos rfl]
      exact (mirrors_pure declared).mono (Text.suffix_of_cons blanks)
    · next hne =>
      rw [run_bind_ok (eat_of_ne (by decide) hs fun rest heq => hne rest heq), if_neg (by simp), run_bind_assoc]
      refine Mirrors.bind_fresh (hr.entry hs (by omega) index) blanks fun p _ hp => ?_
      obtain ⟨⟨entry, index⟩, keys, rest⟩ := p
      have inside := suffix_skipSpacing rest
      have hi : skipSpacing rest <:+ src := (inside.trans hp).trans hs
      have hshort := (inside.trans hp).length_le
      rcases hd : declare entry declared with ⟨declared', again⟩
      simp only [hd]
      generalize hkeys : (keys ++ if again = true then [entry.key] else []) = keys'
      rw [run_bind_assoc, run_bind_ok note_at, List.append_assoc, hkeys, run_bind_assoc,
        run_bind_ok (skipSpacing_at (hp.trans hs)), run_bind_assoc]
      have place := (inside.trans hp).trans blanks
      split
      · next following heq =>
        rw [heq] at hi hshort place ⊢
        rw [List.length_cons] at hshort
        have hfollowing : following <:+ src := Text.suffix_of_cons hi
        rw [run_bind_ok (eat_cons (by decide) hi), if_pos rfl, run_pure_bind]
        exact (ih hfollowing (by omega) (by omega) (by omega)).after (Text.suffix_of_cons place)
      · next following heq =>
        rw [heq] at hi place ⊢
        rw [run_bind_ok (eat_of_ne (by decide) hi (by simp)), if_neg (by simp), run_bind_assoc,
          run_bind_ok (eat_cons (by decide) hi), if_pos rfl]
        exact .ok ⟨declared', keys', following⟩ (Text.suffix_of_cons place)
      · next hcomma hbrace =>
        rw [run_bind_ok (eat_of_ne (by decide) hi fun following heq => hcomma following heq), if_neg (by simp),
          run_bind_assoc, run_bind_ok (eat_of_ne (by decide) hi fun following heq => hbrace following heq),
          if_neg (by simp)]
        exact .error ⟨.missingEntryEnd, skipSpacing rest⟩ keys' place

theorem Follows.recordStep (hr : Follows src fuel r) (ht : '{' :: t <:+ src)
    (hf : 6 * t.length + 7 ≤ fuel) :
    Mirrors src k noted ('{' :: t) (TypeExpr.record (layer (inner k)) ('{' :: t))
      ((r.recordStep src fuel).run (cursorAt src k noted ('{' :: t))) := by
  have hrest : t <:+ src := Text.suffix_of_cons ht
  have shorter : t.length < ('{' :: t).length + 1 := by
    rw [List.length_cons]
    omega
  rw [Readers.recordStep, run_bind_ok (eat_cons (by decide) ht), if_pos rfl]
  exact ((entries_mirrors hr _ hrest shorter (by omega) (by omega)).map _).mono (List.suffix_cons _ _)

theorem lt_of_startsBound {c : Char} (h : (decide (c = '-') || c.isDigit) = true) : c.toNat < 128 := by
  rcases Bool.or_eq_true _ _ ▸ h with hyphen | digit
  · obtain rfl := of_decide_eq_true hyphen
    decide
  · have := Text.isDigit_iff.1 digit
    omega

theorem Follows.argumentStep (hr : Follows src fuel r) (ht : t <:+ src)
    (hf : 6 * t.length + 6 ≤ fuel) :
    Mirrors src k noted t (TypeExpr.argument (layer (inner k)) t)
      ((r.argumentStep src).run (cursorAt src k noted t)) := by
  have blanks := suffix_skipSpacing t
  have hs := blanks.trans ht
  have shorter := blanks.length_le
  rw [Readers.argumentStep, run_bind_ok (skipSpacing_at ht), run_bind_ok (peek_at hs), TypeExpr.argument]
  have typed : Mirrors src k noted t (TypeExpr.type (inner k) (skipSpacing t)) _ := (hr.type hs (by omega)).mono blanks
  split
  · next c rest heq =>
    rw [heq] at hs blanks typed ⊢
    have hrest : rest <:+ src := Text.suffix_of_cons hs
    dsimp only [List.head?_cons, Option.map_some]
    rw [(Text.uniform_of_lt fun _ => lt_of_startsBound).lead_eq]
    split
    · next bound =>
      rw [run_bind_ok (bump_at (lt_of_startsBound bound) hs), run_bind_ok (skip_at Text.uniform_isDigit hrest)]
      exact (mirrors_pure _).mono ((List.dropWhile_suffix _).trans (Text.suffix_of_cons blanks))
    · exact typed
  · next heq =>
    rw [heq] at typed ⊢
    exact typed

/-- Reads what follows a type argument, up to the closing angle. -/
def moreArguments (level : Level) (fuel : Nat) (t : Text) : Except TypeExpr.Malformed (Parsed (List TypeNode)) :=
  match skipSpacing t with
  | ',' :: rest => TypeExpr.arguments level fuel rest
  | '>' :: rest => .ok ⟨[], [], rest⟩
  | rest => .error ⟨.missingArgumentEnd, rest⟩

theorem arguments_succ (level : Level) (fuel : Nat) (t : Text) :
    TypeExpr.arguments level (fuel + 1) t = do
      let first ← TypeExpr.argument level t
      let more ← moreArguments level fuel first.rest
      return ⟨first.value :: more.value, first.redeclared ++ more.redeclared, more.rest⟩ := by
  rw [TypeExpr.arguments]
  refine congrArg (TypeExpr.argument level t >>= ·) (funext fun first => ?_)
  split
  · next heq =>
    rw [moreArguments, heq]
    rfl
  · next heq =>
    rw [moreArguments, heq]
    simp [Pure.pure, Except.pure]
  · next hcomma hangle =>
    rw [moreArguments]
    split
    · next heq => exact absurd heq (hcomma _)
    · next heq => exact absurd heq (hangle _)
    · rfl

/-- The machine has read `acc` before. -/
theorem moreArguments_mirrors (hr : Follows src fuel r) (k n : Nat) :
    ∀ (turns : Nat) (noted : List Text) (acc : List TypeNode) {t : Text}, t <:+ src → t.length < n →
    t.length < turns → 6 * t.length + 1 ≤ fuel →
    Mirrors src k noted t (do let more ← moreArguments (layer (inner k)) n t; return more.map (acc ++ ·))
      ((loop (r.argumentTurn src) turns acc).run (cursorAt src k noted t)) := by
  induction n with
  | zero => exact fun _ _ _ _ _ hn _ _ => absurd hn (Nat.not_lt_zero _)
  | succ n ih =>
    intro turns noted acc t ht hn hturns hf
    obtain ⟨turns, rfl⟩ := Nat.exists_eq_succ_of_ne_zero (Nat.ne_of_gt (Nat.zero_lt_of_lt hturns))
    have blanks := suffix_skipSpacing t
    have hs := blanks.trans ht
    have shorter := blanks.length_le
    rw [loop, Readers.argumentTurn, run_bind_assoc, run_bind_ok (skipSpacing_at ht), moreArguments, run_bind_assoc]
    split
    · next rest heq =>
      rw [heq] at hs blanks shorter ⊢
      rw [List.length_cons] at shorter
      have hrest : rest <:+ src := Text.suffix_of_cons hs
      rw [run_bind_ok (eat_cons (by decide) hs), if_pos rfl, run_bind_assoc, arguments_succ, bind_assoc]
      refine Mirrors.bind_fresh (hr.argument hrest (by omega)) (Text.suffix_of_cons blanks) fun p _ hp => ?_
      have := hp.length_le
      rw [run_pure_bind]
      have more := ih turns (noted ++ p.redeclared) (acc ++ [p.value])
        (hp.trans hrest) (by omega) (by omega) (by omega)
      simp only [bind_assoc, pure_bind]
      exact more.onto acc (hp.trans (Text.suffix_of_cons blanks))
    · next rest heq =>
      rw [heq] at hs blanks ⊢
      rw [run_bind_ok (eat_of_ne (by decide) hs (by simp)), if_neg (by simp), run_bind_assoc,
        run_bind_ok (eat_cons (by decide) hs), if_pos rfl, run_pure_bind, ok_bind]
      have last : Mirrors src k noted rest _ _ := mirrors_pure acc
      have whole := last.mono (Text.suffix_of_cons blanks)
      simpa [Parsed.map, Pure.pure, Except.pure] using whole
    · next hcomma hangle =>
      rw [run_bind_ok (eat_of_ne (by decide) hs fun rest heq => hcomma rest heq), if_neg (by simp), run_bind_assoc,
        run_bind_ok (eat_of_ne (by decide) hs fun rest heq => hangle rest heq), if_neg (by simp)]
      exact (mirrors_malformed .missingArgumentEnd).mono blanks

theorem Follows.argumentsStep (hr : Follows src fuel r) (ht : '<' :: t <:+ src)
    (hf : 6 * t.length + 7 ≤ fuel) :
    Mirrors src k noted ('<' :: t) (TypeExpr.arguments (layer (inner k)) (t.length + 2) t)
      ((r.argumentsStep src fuel).run (cursorAt src k noted ('<' :: t))) := by
  have hrest : t <:+ src := Text.suffix_of_cons ht
  rw [Readers.argumentsStep, run_bind_ok (eat_cons (by decide) ht), if_pos rfl, arguments_succ]
  refine Mirrors.bind_fresh (hr.argument hrest hf) (List.suffix_cons _ _) fun p _ hp => ?_
  have := hp.length_le
  have more := moreArguments_mirrors hr k (t.length + 1) fuel (noted ++ p.redeclared) [p.value] (hp.trans hrest)
    (by omega) (by omega) (by omega)
  exact more.onto [] (hp.trans (List.suffix_cons '<' t))

theorem deeper_applied (i : Option Level) (name rest : Text) :
    deeper i (applied name) ('<' :: rest) =
      (match i with
        | none => Except.error ⟨.tooDeep, '<' :: rest⟩
        | some level => TypeExpr.arguments level (rest.length + 2) rest) >>= fun args =>
      if isCollection name then
        match collectionOf? args.value with
        | some type => return args.map fun _ => type
        | none => .error ⟨.tooManyArguments, args.rest⟩
      else return args.map fun _ => resolveName name := by
  cases i <;> rfl

theorem Follows.afterNameStep (hr : Follows src fuel r) (ht : t <:+ src)
    (hf : 6 * t.length + 2 ≤ fuel) (name : Text) :
    Mirrors src k noted t (TypeExpr.afterName (inner k) name t)
      ((r.afterNameStep src name).run (cursorAt src k noted t)) := by
  have blanks := suffix_skipSpacing t
  have hs := blanks.trans ht
  have shorter := blanks.length_le
  rw [Readers.afterNameStep, run_bind_ok position_at, run_bind_ok (skipSpacing_at ht), run_bind_ok (peek_at hs),
    TypeExpr.afterName]
  split
  · next rest heq =>
    rw [heq] at hs blanks shorter ⊢
    rw [List.length_cons] at shorter
    rw [List.head?_cons, Option.map_some, Text.lead_ascii (by decide)]
    by_cases shape : takesShape name = true
    · rw [if_pos shape, if_pos ⟨rfl, shape⟩]
      exact (mirrors_nested TypeExpr.record (hr.record hs (by omega))).mono blanks
    · rw [if_neg shape, if_neg fun both => shape both.2, if_neg (by simp), run_bind_ok moveTo_at]
      exact mirrors_pure _
  · next rest heq =>
    rw [heq] at hs blanks shorter ⊢
    rw [List.length_cons] at shorter
    rw [List.head?_cons, Option.map_some, Text.lead_ascii (by decide), if_neg (by simp), if_pos rfl, deeper_applied]
    refine Mirrors.bind_fresh (mirrors_nested (fun level _ => TypeExpr.arguments level (rest.length + 2) rest)
      (hr.arguments hs (by omega))) blanks fun p _ hp => ?_
    by_cases collection : isCollection name = true
    · rw [if_pos collection, if_pos collection]
      cases collectionOf? p.value with
      | none => exact .error ⟨.tooManyArguments, p.rest⟩ p.redeclared (hp.trans blanks)
      | some type => exact .ok (p.map fun _ => type) (hp.trans blanks)
    · rw [if_neg collection, if_neg collection]
      exact .ok (p.map fun _ => resolveName name) (hp.trans blanks)
  · next hbrace hangle =>
    rw [if_neg fun both => map_lead_ne (by decide) (fun rest heq => hbrace rest heq) both.1,
      if_neg (map_lead_ne (by decide) fun rest heq => hangle rest heq), run_bind_ok moveTo_at]
    exact mirrors_pure _

theorem uniform_isNameStart : Uniform isNameStart :=
  (Text.uniform_isAlpha.or (Text.uniform_eq (by decide))).or (Text.uniform_eq (by decide))

theorem Follows.atomStep (hr : Follows src fuel r) (ht : t <:+ src)
    (hf : 6 * t.length + 2 ≤ fuel) :
    Mirrors src k noted t (TypeExpr.atom (inner k) t) ((r.atomStep src).run (cursorAt src k noted t)) := by
  have blanks := suffix_skipSpacing t
  have hs := blanks.trans ht
  have shorter := blanks.length_le
  rw [Readers.atomStep, run_bind_ok (skipSpacing_at ht), run_bind_ok (peek_at hs), TypeExpr.atom]
  split
  · next heq =>
    rw [heq] at blanks ⊢
    exact (mirrors_malformed .endOfText).mono blanks
  · next rest heq =>
    rw [heq] at hs blanks shorter ⊢
    rw [List.length_cons] at shorter
    rw [List.head?_cons, Option.map_some, Text.lead_ascii (by decide)]
    exact (mirrors_nested TypeExpr.record (hr.record hs (by omega))).mono blanks
  · next rest heq =>
    rw [heq] at hs blanks shorter ⊢
    rw [List.length_cons] at shorter
    rw [List.head?_cons, Option.map_some, Text.lead_ascii (by decide)]
    have hrest : rest <:+ src := Text.suffix_of_cons hs
    dsimp only
    rw [if_neg (by decide), if_pos rfl, run_bind_ok (bump_at (by decide) hs), TypeExpr.parenthesized]
    refine Mirrors.bind_fresh (mirrors_nested Level.type (hr.type hrest (by omega)))
      (Text.suffix_of_cons blanks) fun p _ hp => ?_
    have inside := (suffix_skipSpacing p.rest).trans hp
    have hi := inside.trans hrest
    have place := inside.trans (Text.suffix_of_cons blanks)
    rw [run_bind_ok (skipSpacing_at (hp.trans hrest))]
    split
    · next following heq =>
      rw [heq] at hi place ⊢
      rw [run_bind_ok (eat_cons (by decide) hi), if_pos rfl]
      exact .ok ⟨p.value, p.redeclared, following⟩ (Text.suffix_of_cons place)
    · next hne =>
      rw [run_bind_ok (eat_of_ne (by decide) hi fun following heq => hne following heq), if_neg (by simp)]
      exact .error ⟨.missingParenthesis, skipSpacing p.rest⟩ p.redeclared place
  · next c rest hbrace hparenthesis heq =>
    rw [heq] at hs blanks shorter ⊢
    rw [List.head?_cons, Option.map_some]
    dsimp only
    rw [if_neg fun same => hbrace ((Text.lead_eq_iff (by decide)).1 same),
      if_neg fun same => hparenthesis ((Text.lead_eq_iff (by decide)).1 same), uniform_isNameStart.lead_eq]
    by_cases start : isNameStart c = true
    · rw [if_pos start, if_pos start, run_bind_ok (word_at uniform_inName hs)]
      have hrest : (c :: rest).dropWhile inName <:+ c :: rest := List.dropWhile_suffix _
      have shorter' : ((c :: rest).dropWhile inName).length ≤ rest.length := by
        rw [List.dropWhile_cons_of_pos (inName_of_isNameStart start)]
        exact (List.dropWhile_suffix _).length_le
      rw [List.length_cons] at shorter
      exact (hr.afterName (hrest.trans hs) (by omega)).mono (hrest.trans blanks)
    · rw [if_neg start, if_neg start]
      exact (mirrors_malformed .missingType).mono blanks

theorem Follows.next (hr : Follows src fuel r) : Follows src (fuel + 1) (r.next src fuel) where
  type ht hf := hr.typeStep ht (by omega)
  union ht hf := hr.unionStep ht (by omega)
  member ht hf := hr.memberStep ht (by omega)
  suffixed ht hf := hr.suffixedStep ht (by omega)
  atom ht hf := hr.atomStep ht (by omega)
  afterName ht hf := hr.afterNameStep ht (by omega) _
  record ht hf := hr.recordStep ht (by omega)
  arguments ht hf := hr.argumentsStep ht (by omega)
  argument ht hf := hr.argumentStep ht (by omega)

end Steps

/-! ## Whole texts -/

theorem follows_readers (src : Text) (fuel : Nat) : Follows src fuel (readers src fuel) := by
  induction fuel with
  | zero => constructor <;> (intros; omega)
  | succ fuel ih => exact ih.next

theorem root_mirrors {fuel : Nat} (hf : 6 * src.length + 6 ≤ fuel) :
    Mirrors src 0 [] src (parseRoot src) ((root src fuel).run (cursorAt src 0 [] src)) := by
  have whole : src <:+ src := List.suffix_refl src
  have blanks := suffix_skipSpacing src
  have shorter := blanks.length_le
  rw [root, run_bind_ok (skipSpacing_at whole), run_bind_ok (peek_at blanks), parseRoot]
  split
  · next heq =>
    rw [heq] at blanks ⊢
    exact (mirrors_malformed .emptyText).mono blanks
  · next hne =>
    have some : (skipSpacing src).head?.map lead ≠ none := by simpa using fun heq => hne heq
    rw [if_neg some]
    refine Mirrors.bind_fresh ((follows_readers src fuel).type blanks (by omega)) blanks fun p _ hp => ?_
    have hi := ((suffix_skipSpacing p.rest).trans hp).trans blanks
    rw [run_bind_ok (skipSpacing_at (hp.trans blanks)), run_bind_ok (peek_at hi)]
    split
    · next heq =>
      rw [heq] at hi ⊢
      exact .ok ⟨p.value, p.redeclared, []⟩ hi
    · next hne =>
      have some : (skipSpacing p.rest).head?.map lead ≠ none := by simpa using fun heq => hne heq
      rw [if_neg some]
      exact .error ⟨.trailingInput, skipSpacing p.rest⟩ p.redeclared hi

/-- Reading byte by byte comes to what reading character by character comes to. -/
theorem diagnose_eq {t : Text} {fuel : Nat} (hf : 6 * t.length + 6 ≤ fuel) :
    diagnose t fuel = some (TypeExpr.diagnose t) := by
  have start : cursorAt t 0 [] t = ⟨0, 0, []⟩ := by
    rw [cursorAt, offset, Nat.sub_self]
  have run := root_mirrors hf
  rw [start] at run
  rw [diagnose, TypeExpr.diagnose]
  generalize parseRoot t = m at run ⊢
  generalize (root t fuel).run ⟨0, 0, []⟩ = out at run ⊢
  cases run with
  | ok p _ => rfl
  | error m keys _ => rfl

end DeclGen.TypeExpr.Bytewise
