import DeclGen.Proofs.TypeExpr.Agreement

/-!
# Reading type expressions moves on

From any cursor, with any fuel: a reader that gives a value has moved on within the text, a turn of a loop that calls
for another one has moved on, and the nestings that a reader opens are closed again, whether it gives a value or stops.
So the fuel that is needed falls with every byte; where nothing is read, it falls with the order of the readers.

* `Reaches`, `Advances`, `Moves` : how far a cursor gets;
* `Meets` : what holds behind a reading, and that it does not use up its fuel; `Meets.bind`, `MovesOn.nested` : of
  readings put together;
* `key_meets`, `entryKey_meets` : a key, or the cursor as it was;
* `Turned`, `loop_meets` : loops whose turns move on;
* `Progresses`, `Progresses.next` : all readers, and with one call more;
* `reading_ends` : all of it; `afterName_stays` : the reader that need not move on.
-/

namespace DeclGen.TypeExpr.Bytewise
open Text (bytes size isSpacing)

variable {α β σ : Type} {src : Text} {c c' : Cursor} {enough : Prop}

/-! ## Moves of a cursor -/

/-- From `c` to `c'` it does not go back, and not beyond the end. -/
abbrev Reaches (src : Text) (c c' : Cursor) : Prop := c.pos ≤ c'.pos ∧ c'.pos ≤ max c.pos (size src)

/-- From `c` to `c'` it goes on, within the text. -/
abbrev Advances (src : Text) (c c' : Cursor) : Prop := c.pos < c'.pos ∧ c'.pos ≤ size src

/-! ## What a reading meets -/

/-- From `c`, the reading leaves the count of open nestings as it is; a value and the cursor behind it are as `Q` has
it; and the fuel is not used up, if it is enough. -/
structure Meets (x : Reading α) (enough : Prop) (c : Cursor) (Q : α → Cursor → Prop) : Prop where
  nesting : (x.run c).2.nesting = c.nesting
  value : ∀ {a c'}, x.run c = (.ok a, c') → Q a c'
  fuel : enough → ∀ {c'}, x.run c ≠ (.error .exhausted, c')

variable {Q : α → Cursor → Prop} {R : β → Cursor → Prop}

theorem Meets.mono {x : Reading α} {enough' : Prop} {Q' : α → Cursor → Prop} (h : Meets x enough c Q)
    (he : enough' → enough) (hQ : ∀ a c', Q a c' → Q' a c') : Meets x enough' c Q' :=
  ⟨h.nesting, fun run => hQ _ _ (h.value run), fun e => h.fuel (he e)⟩

theorem Meets.weaken {x : Reading α} {enough' : Prop} (h : Meets x enough c Q) (he : enough' → enough) :
    Meets x enough' c Q :=
  h.mono he fun _ _ hQ => hQ

theorem meets_ok {x : Reading α} {a : α} (run : x.run c = (.ok a, c')) (hn : c'.nesting = c.nesting) (hQ : Q a c') :
    Meets x enough c Q where
  nesting := by rw [run]; exact hn
  value h := by
    rw [run] at h
    cases h
    exact hQ
  fuel _ _ h := by
    rw [run] at h
    cases h

theorem meets_pure {a : α} (hQ : Q a c) : Meets (pure a : Reading α) enough c Q := meets_ok rfl rfl hQ

theorem meets_error {x : Reading α} {why : Stop} (run : x.run c = (.error why, c')) (hn : c'.nesting = c.nesting)
    (hw : enough → why ≠ .exhausted) : Meets x enough c Q where
  nesting := by rw [run]; exact hn
  value h := by
    rw [run] at h
    cases h
  fuel e _ h := by
    rw [run] at h
    cases h
    exact hw e rfl

theorem Meets.bind {x : Reading α} {f : α → Reading β} (hx : Meets x enough c Q)
    (hf : ∀ a c', Q a c' → c'.nesting = c.nesting → Meets (f a) enough c' R) : Meets (x >>= f) enough c R := by
  have same := hx.nesting
  rcases run : x.run c with ⟨why | a, c'⟩
  · rw [run] at same
    have stopped := run_bind_error (f := f) run
    refine ⟨by rw [stopped]; exact same, fun h => ?_, fun e _ h => ?_⟩
    · rw [stopped] at h
      cases h
    · rw [stopped] at h
      cases h
      exact hx.fuel e run
  · rw [run] at same
    have next := hf a c' (hx.value run) same
    have went := run_bind_ok (f := f) run
    exact ⟨by rw [went, next.nesting, same], fun h => next.value (went ▸ h), fun e _ h => next.fuel e (went ▸ h)⟩

/-- A step before whose outcome is known. -/
theorem meets_of_run {x : Reading α} {f : α → Reading β} {a : α} (run : x.run c = (.ok a, c'))
    (hn : c'.nesting = c.nesting) (hf : Meets (f a) enough c' R) : Meets (x >>= f) enough c R :=
  (meets_ok (Q := fun b d => b = a ∧ d = c') run hn ⟨rfl, rfl⟩).bind fun _ _ same _ => by
    obtain ⟨rfl, rfl⟩ := same
    exact hf

/-- So much fuel that all that is left at the cursor can be read, and `n` calls more. -/
abbrev Enough (src : Text) (fuel n : Nat) (c : Cursor) : Prop := 6 * (size src - c.pos) + n ≤ fuel

/-- From any cursor: the reading moves on if it gives a value, closes the nestings that it opens, and does not use up
fuel for what is left and `n` calls. -/
abbrev MovesOn (src : Text) (fuel n : Nat) (x : Reading α) : Prop :=
  ∀ c, Meets x (Enough src fuel n c) c fun _ => Advances src c

theorem MovesOn.nested {fuel n : Nat} {x : Reading α} (h : MovesOn src fuel n x) : MovesOn src fuel n (nested x) := by
  intro c
  by_cases deep : c.nesting < maxNesting
  · have inner := h { c with nesting := c.nesting + 1 }
    have same := inner.nesting
    rcases inside : x.run { c with nesting := c.nesting + 1 } with ⟨why | a, c'⟩
    · rw [inside] at same
      exact meets_error (run_nested deep inside) (by rw [same]; rfl) fun e stopped => inner.fuel e (stopped ▸ inside)
    · rw [inside] at same
      have ahead : Advances src c c' := inner.value inside
      exact meets_ok (run_nested deep inside) (by rw [same]; rfl) ahead
  · exact meets_error (run_nested_of_le (Nat.le_of_not_lt deep)) rfl (by simp)

/-! ## Steps -/

/-- The byte at the cursor, as the character of its code. -/
abbrev here (src : Text) (c : Cursor) : Option Char := (bytes src)[c.pos]?.map Char.ofUInt8

theorem lt_of_here {d : Char} (h : here src c = some d) : c.pos < size src := by
  obtain ⟨b, hb, _⟩ := Option.map_eq_some_iff.1 h
  obtain ⟨hlt, _⟩ := List.getElem?_eq_some_iff.1 hb
  rwa [Text.length_bytes] at hlt

/-- From `c` to `c'` only the offset has moved. -/
abbrev Moves (src : Text) (c c' : Cursor) : Prop := Reaches src c c' ∧ c'.redeclared = c.redeclared

theorem skip_meets {p : Char → Bool} : Meets (skip src p) enough c fun _ c' =>
    Moves src c c' ∧ ∀ d, here src c = some d → p d = true → c.pos < c'.pos := by
  refine meets_ok rfl rfl ⟨⟨⟨Nat.le_add_right _ _, ?_⟩, rfl⟩, fun d hd hp => ?_⟩
  · have := (List.takeWhile_sublist (l := (bytes src).drop c.pos) fun b => p (Char.ofUInt8 b)).length_le
    rw [List.length_drop, Text.length_bytes] at this
    dsimp only
    omega
  · obtain ⟨b, hb, rfl⟩ := Option.map_eq_some_iff.1 hd
    obtain ⟨hlt, hget⟩ := List.getElem?_eq_some_iff.1 hb
    dsimp only
    rw [List.drop_eq_getElem_cons hlt, hget, List.takeWhile_cons_of_pos (p := fun b => p (Char.ofUInt8 b)) hp,
      List.length_cons]
    omega

theorem note_meets {keys : List Text} : Meets (note keys) enough c fun _ c' => c'.pos = c.pos := meets_ok rfl rfl rfl

theorem bump_meets (h : c.pos < size src) : Meets bump enough c fun _ c' => Moves src c c' ∧ c.pos < c'.pos :=
  meets_ok rfl rfl ⟨⟨⟨Nat.le_succ _, by dsimp only; omega⟩, rfl⟩, Nat.lt_succ_self _⟩

theorem eat_meets {d : Char} : Meets (eat src d) enough c fun eaten c' =>
    Moves src c c' ∧ (eaten = true → Advances src c c') ∧ (eaten = false → c' = c) := by
  refine meets_of_run rfl rfl ?_
  split
  · next found =>
    have inside := lt_of_here found
    exact (bump_meets inside).bind fun _ _ moved _ => meets_pure ⟨moved.1, fun _ => by omega, nofun⟩
  · exact meets_pure ⟨⟨by omega, rfl⟩, nofun, fun _ => rfl⟩

theorem slice_meets {start stop : Nat} : Meets (slice src start stop) enough c fun _ c' => c' = c := by
  cases cut : Text.between? start stop src with
  | some part => exact meets_ok (by rw [slice]; dsimp only; rw [cut]) rfl rfl
  | none => exact meets_error (by rw [slice]; dsimp only; rw [cut]) rfl (by simp)

theorem word_meets {p : Char → Bool} : Meets (word src p) enough c fun _ c' =>
    Moves src c c' ∧ ∀ d, here src c = some d → p d = true → c.pos < c'.pos := by
  refine meets_of_run rfl rfl (skip_meets.bind fun _ c' moved same => meets_of_run rfl rfl ?_)
  exact slice_meets.mono id fun _ _ stays => stays ▸ moved

/-- Goes back to where the reading started. -/
theorem meets_moveTo {f : Unit → Reading β} (hr : c'.redeclared = c.redeclared) (hn : c'.nesting = c.nesting)
    (hf : Meets (f ()) enough c R) : Meets (moveTo c.pos >>= f) enough c' R := by
  have back : (⟨c.pos, c'.nesting, c'.redeclared⟩ : Cursor) = c := by rw [hn, hr]
  exact meets_of_run (congrArg (fun c => (Except.ok (), c)) back) hn.symm hf

theorem key_meets : Meets (key src) enough c fun found c' =>
    Moves src c c' ∧ (found = none → c' = c) ∧ (found.isSome = true → c.pos < c'.pos) := by
  refine meets_of_run rfl rfl (meets_of_run rfl rfl ?_)
  split
  · exact meets_pure ⟨⟨by omega, rfl⟩, fun _ => rfl, nofun⟩
  · next d found =>
    split
    · refine (bump_meets (lt_of_here found)).bind fun _ c₁ ⟨moved, further⟩ same => ?_
      refine word_meets.bind fun name c₂ ⟨moved', _⟩ same' => ?_
      refine eat_meets.bind fun eaten c₃ ⟨moved'', ahead, _⟩ same'' => ?_
      split
      · exact meets_pure ⟨⟨by omega, by rw [moved''.2, moved'.2, moved.2]⟩, nofun, fun _ => by omega⟩
      · exact meets_moveTo (by rw [moved''.2, moved'.2, moved.2]) (by rw [same'', same', same])
          (meets_pure ⟨⟨by omega, rfl⟩, fun _ => rfl, nofun⟩)
    · split
      · next bare =>
        exact word_meets.bind fun name c₁ ⟨moved, further⟩ _ =>
          meets_pure ⟨moved, nofun, fun _ => further d found bare⟩
      · exact meets_pure ⟨⟨by omega, rfl⟩, fun _ => rfl, nofun⟩

/-- Without a key and its colon, nothing has changed. -/
theorem entryKey_meets : Meets (entryKey src) enough c fun found c' =>
    Moves src c c' ∧ (found = none → c' = c) ∧ (found.isSome = true → c.pos < c'.pos) := by
  refine meets_of_run rfl rfl (key_meets.bind fun found c₁ ⟨moved₁, stays, further⟩ same₁ => ?_)
  split
  · exact meets_pure ⟨moved₁, fun _ => stays rfl, nofun⟩
  · refine skip_meets.bind fun _ c₂ ⟨moved₂, _⟩ same₂ => eat_meets.bind fun optional c₃ ⟨moved₃, _⟩ same₃ => ?_
    refine skip_meets.bind fun _ c₄ ⟨moved₄, _⟩ same₄ => eat_meets.bind fun colon c₅ ⟨moved₅, _⟩ same₅ => ?_
    have kept : c₅.redeclared = c.redeclared := by rw [moved₅.2, moved₄.2, moved₃.2, moved₂.2, moved₁.2]
    have further := further rfl
    split
    · exact meets_pure ⟨⟨by omega, kept⟩, nofun, fun _ => by omega⟩
    · exact meets_moveTo kept (by rw [same₅, same₄, same₃, same₂, same₁])
        (meets_pure ⟨⟨by omega, rfl⟩, fun _ => rfl, nofun⟩)

/-! ## Loops -/

/-- A turn that calls for another one has moved on. -/
abbrev Turned (src : Text) (c : Cursor) : Turn σ α → Cursor → Prop
  | .again _, c' => Advances src c c'
  | .done _, c' => Reaches src c c'

/-- A loop of such turns ends, and does not go back behind where it starts. -/
theorem loop_meets {turn : σ → Reading (Turn σ α)} {start : Nat}
    (h : ∀ state c, start ≤ c.pos → Meets (turn state) enough c (Turned src c)) (turns : Nat) :
    ∀ state c, start ≤ c.pos → (enough → size src - c.pos < turns) →
      Meets (loop turn turns state) enough c fun _ => Reaches src c := by
  induction turns with
  | zero => exact fun state c _ he => meets_error rfl rfl fun e => absurd (he e) (Nat.not_lt_zero _)
  | succ turns ih =>
    intro state c hstart he
    refine (h state c hstart).bind fun out c₁ turned _ => ?_
    cases out with
    | again state =>
      exact (ih state c₁ (by omega) fun e => by have := he e; omega).mono id fun _ _ reached => by omega
    | done value => exact meets_pure turned

/-! ## Readers, called one less deep -/

/-- What holds of the readers from any cursor. -/
structure Progresses (src : Text) (fuel : Nat) (r : Readers) : Prop where
  type : MovesOn src fuel 6 r.type
  union : MovesOn src fuel 5 r.union
  member : MovesOn src fuel 5 r.member
  suffixed : MovesOn src fuel 4 r.suffixed
  atom : MovesOn src fuel 3 r.atom
  /-- Without a record or type arguments it stays where it is. -/
  afterName : ∀ name c, Meets (r.afterName name) (Enough src fuel 3 c) c fun _ c' => c' = c ∨ Advances src c c'
  record : MovesOn src fuel 2 r.record
  arguments : MovesOn src fuel 2 r.arguments
  argument : MovesOn src fuel 7 r.argument

section Steps
variable {fuel : Nat} {r : Readers}

/-- A reading with a `?` in front, or another. -/
theorem prefixed_moves {n : Nat} {x y : Reading TypeNode} (hx : MovesOn src fuel (n + 6) x)
    (hy : MovesOn src fuel n y) : MovesOn src fuel n (do
      skip src isSpacing
      if ← eat src '?' then
        let inner ← nested x
        return inner.nullable
      else y) := by
  refine fun c => skip_meets.bind fun _ c₁ ⟨moved, _⟩ _ => eat_meets.bind fun eaten c₂ ⟨_, ahead, stays⟩ _ => ?_
  cases eaten with
  | true =>
    have ahead := ahead rfl
    exact ((hx.nested c₂).weaken fun e => by omega).bind fun _ _ further _ => meets_pure (by omega)
  | false =>
    obtain rfl := stays rfl
    exact (hy c₂).mono (fun e => by omega) fun _ _ further => by omega

theorem Progresses.typeStep (hr : Progresses src fuel r) : MovesOn src fuel 5 (r.typeStep src) :=
  prefixed_moves (fun c => (hr.type c).weaken fun e => by omega) hr.union

theorem Progresses.memberStep (hr : Progresses src fuel r) : MovesOn src fuel 4 (r.memberStep src) :=
  prefixed_moves (fun c => (hr.suffixed c).weaken fun e => by omega) hr.suffixed

theorem Progresses.memberTurn (hr : Progresses src fuel r) (members : List TypeNode) (c : Cursor) :
    Meets (r.memberTurn src members) (Enough src fuel 0 c) c (Turned src c) := by
  refine eat_meets.bind fun eaten c₁ ⟨_, ahead, stays⟩ _ => ?_
  cases eaten with
  | true =>
    have ahead := ahead rfl
    exact ((hr.member c₁).weaken fun e => by omega).bind fun next c₂ further _ =>
      skip_meets.bind fun _ c₃ ⟨moved, _⟩ _ => meets_pure (show Advances src c c₃ by omega)
  | false =>
    obtain rfl := stays rfl
    exact meets_pure (show Reaches src c₁ c₁ by omega)

theorem Progresses.unionStep (hr : Progresses src fuel r) : MovesOn src fuel 4 (r.unionStep src fuel) := by
  intro c
  refine (hr.suffixed c).bind fun first c₁ ahead _ => skip_meets.bind fun _ c₂ ⟨moved, _⟩ _ => ?_
  refine meets_of_run rfl rfl ?_
  split
  · have turns : ∀ members c', c₂.pos ≤ c'.pos →
        Meets (r.memberTurn src members) (Enough src fuel 4 c) c' (Turned src c') := fun members c' started =>
      (hr.memberTurn members c').weaken fun e => by omega
    exact (loop_meets turns fuel [first] c₂ (Nat.le_refl _) fun e => by omega).bind fun members c₃ reached _ =>
      meets_pure (by omega)
  · exact meets_pure (by omega)

theorem suffixTurn_meets (node : TypeNode) (c : Cursor) :
    Meets (Readers.suffixTurn src node) enough c (Turned src c) := by
  refine meets_of_run rfl rfl (skip_meets.bind fun _ c₁ ⟨moved, _⟩ same => ?_)
  refine eat_meets.bind fun eaten c₂ ⟨_, ahead, stays⟩ _ => ?_
  cases eaten with
  | true =>
    have ahead := ahead rfl
    refine skip_meets.bind fun _ c₃ ⟨moved₃, _⟩ _ => eat_meets.bind fun closed c₄ ⟨moved₄, _⟩ _ => ?_
    split
    · exact meets_pure (show Advances src c c₄ by omega)
    · exact meets_error rfl rfl (by simp)
  | false =>
    obtain rfl := stays rfl
    exact meets_moveTo moved.2 same (meets_pure (show Reaches src c c by omega))

theorem Progresses.suffixedStep (hr : Progresses src fuel r) : MovesOn src fuel 3 (r.suffixedStep src fuel) :=
  fun c => (hr.atom c).bind fun node c₁ ahead _ =>
    (loop_meets (fun node c' _ => suffixTurn_meets node c') fuel node c₁ (Nat.zero_le _) fun e => by omega).mono id
      fun _ _ reached => by omega

theorem Progresses.atomStep (hr : Progresses src fuel r) : MovesOn src fuel 2 (r.atomStep src) := by
  refine fun c => skip_meets.bind fun _ c₁ ⟨moved, _⟩ _ => meets_of_run rfl rfl ?_
  split
  · exact meets_error rfl rfl (by simp)
  · next d found =>
    have inside := lt_of_here found
    split
    · exact (hr.record.nested c₁).mono (fun e => by omega) fun _ _ further => by omega
    · split
      · refine (bump_meets inside).bind fun _ c₂ ⟨moved₂, further⟩ _ => ?_
        refine ((hr.type.nested c₂).weaken fun e => by omega).bind fun inner c₃ further₃ _ => ?_
        refine skip_meets.bind fun _ c₄ ⟨moved₄, _⟩ _ => eat_meets.bind fun closed c₅ ⟨moved₅, _⟩ _ => ?_
        split
        · exact meets_pure (by omega)
        · exact meets_error rfl rfl (by simp)
      · split
        · next start =>
          refine word_meets.bind fun name c₂ ⟨moved₂, further⟩ _ => ?_
          have further := further d found (inName_of_isNameStart start)
          refine (hr.afterName name c₂).mono (fun e => by omega) fun _ c₃ behind => ?_
          rcases behind with rfl | ahead <;> omega
        · exact meets_error rfl rfl (by simp)

theorem Progresses.afterNameStep (hr : Progresses src fuel r) (name : Text) (c : Cursor) :
    Meets (r.afterNameStep src name) (Enough src fuel 2 c) c fun _ c' => c' = c ∨ Advances src c c' := by
  refine meets_of_run rfl rfl (skip_meets.bind fun _ c₁ ⟨moved, _⟩ same => meets_of_run rfl rfl ?_)
  split
  · exact (hr.record.nested c₁).mono (fun e => by omega) fun _ _ further => .inr (by omega)
  · split
    · refine ((hr.arguments.nested c₁).weaken fun e => by omega).bind fun types c₂ further _ => ?_
      split
      · split
        · exact meets_pure (.inr (by omega))
        · exact meets_error rfl rfl (by simp)
      · exact meets_pure (.inr (by omega))
    · exact meets_moveTo moved.2 same (meets_pure (.inl rfl))

theorem Progresses.entry (hr : Progresses src fuel r) (index : Nat) : MovesOn src fuel 6 (r.entry src index) := by
  refine fun c => entryKey_meets.bind fun found c₁ ⟨moved, stays, further⟩ _ => ?_
  split
  · have further := further rfl
    exact ((hr.type c₁).weaken fun e => by omega).bind fun _ _ ahead _ => meets_pure (by omega)
  · obtain rfl := stays rfl
    exact (hr.type c₁).bind fun _ _ ahead _ => meets_pure ahead

theorem Progresses.entryTurn (hr : Progresses src fuel r) (state : List (RecordEntry TypeNode) × Nat) (c : Cursor) :
    Meets (r.entryTurn src state) (Enough src fuel 6 c) c (Turned src c) := by
  refine skip_meets.bind fun _ c₁ ⟨moved, _⟩ _ => eat_meets.bind fun closed c₂ ⟨moved₂, ahead, stays⟩ _ => ?_
  cases closed with
  | true => exact meets_pure (show Reaches src c c₂ by omega)
  | false =>
    obtain rfl := stays rfl
    refine ((hr.entry _ c₂).weaken fun e => by omega).bind fun read c₃ further _ => ?_
    refine note_meets.bind fun _ c' noted _ => ?_
    refine skip_meets.bind fun _ c₄ ⟨moved₄, _⟩ _ => eat_meets.bind fun comma c₅ ⟨moved₅, _⟩ _ => ?_
    split
    · exact meets_pure (show Advances src c c₅ by omega)
    · refine eat_meets.bind fun closed c₆ ⟨moved₆, _⟩ _ => ?_
      split
      · exact meets_pure (show Reaches src c c₆ by omega)
      · exact meets_error rfl rfl (by simp)

theorem Progresses.recordStep (hr : Progresses src fuel r) : MovesOn src fuel 1 (r.recordStep src fuel) := by
  refine fun c => eat_meets.bind fun opened c₁ ⟨_, ahead, _⟩ _ => ?_
  split
  · next here =>
    have ahead := ahead here
    have turns : ∀ state c', c₁.pos ≤ c'.pos →
        Meets (r.entryTurn src state) (Enough src fuel 1 c) c' (Turned src c') := fun state c' started =>
      (hr.entryTurn state c').weaken fun e => by omega
    exact (loop_meets turns fuel _ c₁ (Nat.le_refl _) fun e => by omega).bind fun entries c₂ reached _ =>
      meets_pure (by omega)
  · exact meets_error rfl rfl (by simp)

theorem Progresses.argumentTurn (hr : Progresses src fuel r) (types : List TypeNode) (c : Cursor) :
    Meets (r.argumentTurn src types) (Enough src fuel 1 c) c (Turned src c) := by
  refine skip_meets.bind fun _ c₁ ⟨moved, _⟩ _ => eat_meets.bind fun comma c₂ ⟨moved₂, ahead, _⟩ _ => ?_
  cases comma with
  | true =>
    have ahead := ahead rfl
    exact ((hr.argument c₂).weaken fun e => by omega).bind fun next c₃ further _ =>
      meets_pure (show Advances src c c₃ by omega)
  | false =>
    refine eat_meets.bind fun closed c₃ ⟨moved₃, _⟩ _ => ?_
    split
    · exact meets_pure (show Reaches src c c₃ by omega)
    · exact meets_error rfl rfl (by simp)

theorem Progresses.argumentsStep (hr : Progresses src fuel r) : MovesOn src fuel 1 (r.argumentsStep src fuel) := by
  refine fun c => eat_meets.bind fun opened c₁ ⟨_, ahead, _⟩ _ => ?_
  split
  · next here =>
    have ahead := ahead here
    refine ((hr.argument c₁).weaken fun e => by omega).bind fun first c₂ further _ => ?_
    have turns : ∀ types c', c₂.pos ≤ c'.pos →
        Meets (r.argumentTurn src types) (Enough src fuel 1 c) c' (Turned src c') := fun types c' started =>
      (hr.argumentTurn types c').weaken fun e => by omega
    exact (loop_meets turns fuel _ c₂ (Nat.le_refl _) fun e => by omega).mono id fun _ _ reached => by omega
  · exact meets_error rfl rfl (by simp)

theorem Progresses.argumentStep (hr : Progresses src fuel r) : MovesOn src fuel 6 (r.argumentStep src) := by
  refine fun c => skip_meets.bind fun _ c₁ ⟨moved, _⟩ _ => meets_of_run rfl rfl ?_
  have typed : Meets r.type (Enough src fuel 6 c) c₁ fun _ => Advances src c :=
    (hr.type c₁).mono (fun e => by omega) fun _ _ ahead => by omega
  split
  · exact typed
  · next d found =>
    split
    · exact (bump_meets (lt_of_here found)).bind fun _ c₂ ⟨moved₂, further⟩ _ =>
        skip_meets.bind fun _ c₃ ⟨moved₃, _⟩ _ => meets_pure (by omega)
    · exact typed

theorem Progresses.next (hr : Progresses src fuel r) : Progresses src (fuel + 1) (r.next src fuel) where
  type c := (hr.typeStep c).weaken fun e => by omega
  union c := (hr.unionStep c).weaken fun e => by omega
  member c := (hr.memberStep c).weaken fun e => by omega
  suffixed c := (hr.suffixedStep c).weaken fun e => by omega
  atom c := (hr.atomStep c).weaken fun e => by omega
  afterName name c := (hr.afterNameStep name c).weaken fun e => by omega
  record c := (hr.recordStep c).weaken fun e => by omega
  arguments c := (hr.argumentsStep c).weaken fun e => by omega
  argument c := (hr.argumentStep c).weaken fun e => by omega

end Steps

theorem progresses_readers (src : Text) (fuel : Nat) : Progresses src fuel (readers src fuel) := by
  induction fuel with
  | zero =>
    have used : ∀ {α : Type} {n : Nat}, 0 < n → MovesOn src 0 n (stop .exhausted : Reading α) := fun hn c =>
      meets_error rfl rfl fun e => by omega
    exact {
      type := used (by decide), union := used (by decide), member := used (by decide), suffixed := used (by decide),
      atom := used (by decide), afterName := fun _ c => meets_error rfl rfl fun e => by omega,
      record := used (by decide), arguments := used (by decide), argument := used (by decide) }
  | succ fuel ih => exact ih.next

theorem root_moves (src : Text) (fuel : Nat) : MovesOn src fuel 6 (root src fuel) := by
  refine fun c => skip_meets.bind fun _ c₁ ⟨moved, _⟩ _ => meets_of_run rfl rfl ?_
  split
  · exact meets_error rfl rfl (by simp)
  · refine (((progresses_readers src fuel).type c₁).weaken fun e => by omega).bind fun type c₂ ahead _ => ?_
    refine skip_meets.bind fun _ c₃ ⟨moved₃, _⟩ _ => meets_of_run rfl rfl ?_
    split
    · exact meets_pure (by omega)
    · exact meets_error rfl rfl (by simp)

/-! ## Whole readings -/

/-- Reading type expressions ends: every reader that gives a value has moved on within the text, except that what
follows a name may be nothing; so has every turn of a loop that calls for another one; without a key the cursor is what
it was; the nestings that were opened are closed again, also where reading stops; and fuel for so many calls as the
text's length tells is not used up. -/
theorem reading_ends (src : Text) (fuel : Nat) :
    Progresses src fuel (readers src fuel) ∧ MovesOn src fuel 6 (root src fuel) ∧
    (∀ node c, Meets (Readers.suffixTurn src node) True c (Turned src c)) ∧
    (∀ members c, Meets ((readers src fuel).memberTurn src members) (Enough src fuel 0 c) c (Turned src c)) ∧
    (∀ state c, Meets ((readers src fuel).entryTurn src state) (Enough src fuel 6 c) c (Turned src c)) ∧
    (∀ types c, Meets ((readers src fuel).argumentTurn src types) (Enough src fuel 1 c) c (Turned src c)) ∧
    (∀ c, Meets (entryKey src) True c fun found c' => Reaches src c c' ∧ (found = none → c' = c)) ∧
    diagnose src (6 * size src + 6 + fuel) = some (TypeExpr.diagnose src) := by
  have hr := progresses_readers src fuel
  refine ⟨hr, root_moves src fuel, suffixTurn_meets, hr.memberTurn, hr.entryTurn, hr.argumentTurn, fun c => ?_, ?_⟩
  · exact entryKey_meets.mono id fun _ _ ⟨moved, stays, _⟩ => ⟨moved.1, stays⟩
  · have := Text.length_le_size src
    exact diagnose_eq (by omega)

/-- Behind a name with nothing after it, `afterName` gives a value and stays where it is. -/
theorem afterName_stays :
    ¬ ∀ (src : Text) (fuel : Nat) (name : Text), MovesOn src fuel 3 ((readers src fuel).afterName name) := by
  intro h
  have ahead := (h "int".toList 1 "int".toList ⟨3, 0, []⟩).value rfl
  exact absurd ahead.1 (by decide)

end DeclGen.TypeExpr.Bytewise
