import DeclGen.Proofs.TypeExpr.Bytewise
import DeclGen.Proofs.TypeExpr.Soundness

/-!
# Cursors at the rest of a text

Where a cursor stands at the start of a rest of the text, a step that moves it byte by byte leaves it at the start of
the rest that is left when characters are taken instead.

* `run_bind_ok`, `run_bind_error`, `run_bind_assoc`, `loop_again`, `loop_done`, `loop_error` : steps and turns in a row;
* `cursorAt` : the cursor at the start of a rest;
* `peek_at`, `eat_cons`, `eat_of_ne`, `skip_at`, `word_at`, `key_at`, `entryKey_at` : each step from there.
-/

namespace DeclGen.TypeExpr.Bytewise
open Text (bytes size isSpacing skipSpacing Uniform lead offset)

variable {α β σ : Type} {src : Text}

/-! ## Steps in a row -/

theorem run_bind_ok {x : Reading α} {f : α → Reading β} {c c' : Cursor} {a : α} (h : x.run c = (.ok a, c')) :
    (x >>= f).run c = (f a).run c' := by
  simp only [bind, h]

theorem run_bind_error {x : Reading α} {f : α → Reading β} {c c' : Cursor} {why : Stop}
    (h : x.run c = (.error why, c')) : (x >>= f).run c = (.error why, c') := by
  simp only [bind, h]

theorem run_bind_assoc {γ : Type} {x : Reading α} {f : α → Reading β} {g : β → Reading γ} {c : Cursor} :
    ((x >>= f) >>= g).run c = (x >>= fun a => f a >>= g).run c := by
  rcases ho : x.run c with ⟨_ | _, c'⟩
  · rw [run_bind_error ho, run_bind_error (run_bind_error ho)]
  · rw [run_bind_ok ho]
    rcases hf : (f _).run c' with ⟨_ | _, c''⟩
    · rw [run_bind_error hf, run_bind_error ((run_bind_ok ho).trans hf)]
    · rw [run_bind_ok hf, run_bind_ok ((run_bind_ok ho).trans hf)]

theorem run_pure_bind {a : α} {f : α → Reading β} {c : Cursor} : ((pure a : Reading α) >>= f).run c = (f a).run c :=
  rfl

theorem run_nested {x : Reading α} {result : Except Stop α} {c c' : Cursor} (h : c.nesting < maxNesting)
    (inside : x.run { c with nesting := c.nesting + 1 } = (result, c')) :
    (nested x).run c = (result, { c' with nesting := c'.nesting - 1 }) := by
  simp only [nested, if_neg (Nat.not_le_of_lt h), inside]

theorem run_nested_of_le {x : Reading α} {c : Cursor} (h : maxNesting ≤ c.nesting) :
    (nested x).run c = (malformed .tooDeep).run c :=
  if_pos h

/-! ## Loops -/

section Loops
variable {turn : σ → Reading (Turn σ α)} {turns : Nat} {state : σ} {c c' : Cursor}

theorem loop_again {state' : σ} (h : (turn state).run c = (.ok (.again state'), c')) :
    (loop turn (turns + 1) state).run c = (loop turn turns state').run c' := by
  rw [loop, run_bind_ok h]

theorem loop_done {value : α} (h : (turn state).run c = (.ok (.done value), c')) :
    (loop turn (turns + 1) state).run c = (.ok value, c') := by
  rw [loop, run_bind_ok h]
  rfl

theorem loop_error {why : Stop} (h : (turn state).run c = (.error why, c')) :
    (loop turn (turns + 1) state).run c = (.error why, c') := by
  rw [loop, run_bind_error h]

end Loops

/-! ## Cursors at a rest -/

/-- The cursor where a rest of the text starts. -/
def cursorAt (src : Text) (nesting : Nat) (noted : List Text) (rest : Text) : Cursor :=
  ⟨offset src rest, nesting, noted⟩

variable {k : Nat} {noted : List Text} {t : Text}

theorem peek_at (h : t <:+ src) :
    (peek src).run (cursorAt src k noted t) = (.ok (t.head?.map lead), cursorAt src k noted t) := by
  rw [← Text.getElem?_offset h]
  rfl

theorem position_at : position.run (cursorAt src k noted t) = (.ok (offset src t), cursorAt src k noted t) := rfl

theorem moveTo_at {u : Text} :
    (moveTo (offset src t)).run (cursorAt src k noted u) = (.ok (), cursorAt src k noted t) := rfl

theorem skip_at {p : Char → Bool} (hp : Uniform p) (h : t <:+ src) :
    (skip src p).run (cursorAt src k noted t) = (.ok (), cursorAt src k noted (t.dropWhile p)) := by
  have parts : t.takeWhile p ++ t.dropWhile p = t := List.takeWhile_append_dropWhile
  have behind : offset src (t.dropWhile p) = offset src (t.takeWhile p ++ t.dropWhile p) + size (t.takeWhile p) :=
    Text.offset_of_append (parts.symm ▸ h)
  have moved : offset src t + (((bytes src).drop (offset src t)).takeWhile fun b => p (Char.ofUInt8 b)).length =
      offset src (t.dropWhile p) := by
    rw [Text.drop_offset h, Text.takeWhile_bytes hp, Text.length_bytes, behind, parts]
  exact congrArg (fun pos => (Except.ok (), (⟨pos, k, noted⟩ : Cursor))) moved

theorem skipSpacing_at (h : t <:+ src) :
    (skip src isSpacing).run (cursorAt src k noted t) = (.ok (), cursorAt src k noted (skipSpacing t)) :=
  skip_at Text.uniform_isSpacing h

theorem note_at {keys : List Text} :
    (note keys).run (cursorAt src k noted t) = (.ok (), cursorAt src k (noted ++ keys) t) := rfl

theorem bump_at {d : Char} (hd : d.toNat < 128) (h : d :: t <:+ src) :
    bump.run (cursorAt src k noted (d :: t)) = (.ok (), cursorAt src k noted t) := by
  have moved : offset src (d :: t) + 1 = offset src t := by rw [Text.offset_tail h, Text.utf8Size_ascii hd]
  exact congrArg (fun pos => (Except.ok (), (⟨pos, k, noted⟩ : Cursor))) moved

theorem eat_cons {d : Char} (hd : d.toNat < 128) (h : d :: t <:+ src) :
    (eat src d).run (cursorAt src k noted (d :: t)) = (.ok true, cursorAt src k noted t) := by
  rw [eat, run_bind_ok (peek_at h), List.head?_cons, Option.map_some, Text.lead_ascii hd, if_pos rfl,
    run_bind_ok (bump_at hd h)]
  rfl

theorem map_lead_eq_iff {d : Char} (hd : d.toNat < 128) : t.head?.map lead = some d ↔ ∃ rest, t = d :: rest := by
  rw [Text.head?_lead_iff hd, List.head?_eq_some_iff]

theorem map_lead_ne {d : Char} (hd : d.toNat < 128) (hne : ∀ rest, t ≠ d :: rest) : t.head?.map lead ≠ some d := by
  rw [ne_eq, map_lead_eq_iff hd, not_exists]
  exact hne

theorem eat_of_ne {d : Char} (hd : d.toNat < 128) (h : t <:+ src) (hne : ∀ rest, t ≠ d :: rest) :
    (eat src d).run (cursorAt src k noted t) = (.ok false, cursorAt src k noted t) := by
  rw [eat, run_bind_ok (peek_at h), if_neg (map_lead_ne hd hne)]
  rfl

theorem slice_append {u : Text} {c : Cursor} (h : u ++ t <:+ src) :
    (slice src (offset src (u ++ t)) (offset src t)).run c = (.ok u, c) := by
  simp only [slice, Text.between?_offset h]

theorem word_at {p : Char → Bool} (hp : Uniform p) (h : t <:+ src) :
    (word src p).run (cursorAt src k noted t) = (.ok (t.takeWhile p), cursorAt src k noted (t.dropWhile p)) := by
  have parts : t.takeWhile p ++ t.dropWhile p = t := List.takeWhile_append_dropWhile
  have cut := slice_append (c := cursorAt src k noted (t.dropWhile p)) (t := t.dropWhile p) (parts.symm ▸ h)
  rw [parts] at cut
  rw [word, run_bind_ok position_at, run_bind_ok (skip_at hp h), run_bind_ok position_at, cut]

/-! ## Keys -/

theorem uniform_inName : Uniform inName :=
  (((Text.uniform_isAlphanum.or (Text.uniform_eq (by decide))).or (Text.uniform_eq (by decide))).or
    (Text.uniform_eq (by decide))).or (Text.uniform_eq (by decide))

theorem uniform_inKey : Uniform inKey :=
  ((Text.uniform_isAlphanum.or (Text.uniform_eq (by decide))).or (Text.uniform_eq (by decide))).or
    (Text.uniform_eq (by decide))

theorem key_at (h : t <:+ src) : (key src).run (cursorAt src k noted t) =
    match key? t with
    | some (name, rest) => (.ok (some name), cursorAt src k noted rest)
    | none => (.ok none, cursorAt src k noted t) := by
  rw [key, run_bind_ok position_at, run_bind_ok (peek_at h)]
  cases t with
  | nil => rfl
  | cons c t =>
    have tail : t <:+ src := Text.suffix_of_cons h
    rw [List.head?_cons, Option.map_some, key?]
    dsimp only
    by_cases quoted : (decide (c = '\'') || decide (c = '"')) = true
    · have ascii : c.toNat < 128 := by
        rw [Bool.or_eq_true, decide_eq_true_eq, decide_eq_true_eq] at quoted
        rcases quoted with rfl | rfl <;> decide
      have hp : Uniform (· != c) := by simpa [bne, Bool.beq_eq_decide_eq] using (Text.uniform_eq ascii).not
      have rest : t.dropWhile (· != c) <:+ src := (List.dropWhile_suffix _).trans tail
      rw [Text.lead_ascii ascii, if_pos quoted, if_pos quoted, run_bind_ok (bump_at ascii h),
        run_bind_ok (word_at hp tail)]
      cases hd : t.dropWhile (· != c) with
      | nil =>
        rw [run_bind_ok (eat_of_ne ascii List.nil_suffix (by simp)), if_neg (by simp), run_bind_ok moveTo_at]
        rfl
      | cons d following =>
        have closing : d = c := by
          have := List.head_dropWhile_not (· != c) (l := t) (by simp [hd])
          simpa [hd] using this
        subst closing
        rw [hd] at rest
        rw [run_bind_ok (eat_cons ascii rest), if_pos rfl]
        rfl
    · have unquoted : ¬ (decide (lead c = '\'') || decide (lead c = '"')) = true := by
        rw [Bool.or_eq_true, decide_eq_true_eq, decide_eq_true_eq] at quoted ⊢
        rwa [Text.lead_eq_iff (by decide), Text.lead_eq_iff (by decide)]
      rw [if_neg unquoted, if_neg quoted, uniform_inKey.lead_eq]
      by_cases bare : inKey c = true
      · rw [if_pos bare, if_pos bare, run_bind_ok (word_at uniform_inKey h)]
        rfl
      · rw [if_neg bare, if_neg bare]
        rfl

theorem suffix_of_key? {name rest : Text} (h : key? t = some (name, rest)) : rest <:+ t :=
  let ⟨key, _, _, ht⟩ := exists_token_of_key? h
  ⟨key.token, ht.symm⟩

theorem eat_optional (h : t <:+ src) :
    (eat src '?').run (cursorAt src k noted t) = (.ok (optional? t).1, cursorAt src k noted (optional? t).2) := by
  rw [optional?.eq_def]
  split
  · exact eat_cons (by decide) h
  · next hne => exact eat_of_ne (by decide) h fun rest ht => hne rest ht

theorem suffix_optional? (t : Text) : (optional? t).2 <:+ t := by
  rcases optional?_cases t with ⟨u, rfl, ho⟩ | ho
  · rw [ho]
    exact List.suffix_cons '?' u
  · simp [ho]

theorem suffix_skipSpacing (t : Text) : skipSpacing t <:+ t := List.dropWhile_suffix _

theorem entryKey_at (h : t <:+ src) : (entryKey src).run (cursorAt src k noted t) =
    match entryKey? t with
    | some (name, optional, rest) => (.ok (some (name, optional)), cursorAt src k noted rest)
    | none => (.ok none, cursorAt src k noted t) := by
  have found : (key src).run (cursorAt src k noted t) = _ := key_at h
  rw [entryKey, run_bind_ok position_at, entryKey?]
  cases hk : key? t with
  | none =>
    rw [hk] at found
    rw [run_bind_ok found]
    rfl
  | some key =>
    obtain ⟨name, rest⟩ := key
    rw [hk] at found
    have hr : skipSpacing rest <:+ src := ((suffix_skipSpacing rest).trans (suffix_of_key? hk)).trans h
    have ho : (optional? (skipSpacing rest)).2 <:+ src := (suffix_optional? _).trans hr
    have hs := (suffix_skipSpacing _).trans ho
    rw [run_bind_ok found, run_bind_ok (skipSpacing_at ((suffix_of_key? hk).trans h)), run_bind_ok (eat_optional hr),
      run_bind_ok (skipSpacing_at ho)]
    dsimp only
    by_cases colon : ∃ following, skipSpacing (optional? (skipSpacing rest)).2 = ':' :: following
    · obtain ⟨following, hc⟩ := colon
      rw [hc] at hs ⊢
      rw [run_bind_ok (eat_cons (by decide) hs), if_pos rfl]
      rfl
    · have hne : ∀ following, skipSpacing (optional? (skipSpacing rest)).2 ≠ ':' :: following :=
        fun following hc => colon ⟨following, hc⟩
      rw [run_bind_ok (eat_of_ne (by decide) hs hne), if_neg (by simp), run_bind_ok moveTo_at]
      split
      · next heq =>
        split at heq
        · next following hc => exact absurd hc (hne following)
        · exact absurd heq (by simp)
      · rfl

end DeclGen.TypeExpr.Bytewise
