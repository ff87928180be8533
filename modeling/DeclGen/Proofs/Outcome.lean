/-!
# Computations that may fail

* `ok_bind`, `bind_eq_ok_iff`, `bind_eq_error_iff` : a computation in two steps gives a result if both steps do;
* `guard_eq_ok_iff`, `guard_eq_error_iff` : a check in front of a computation;
* `map_eq_bind`, `map_eq_ok_iff` : a result that is only changed;
* `foldlM_invariant`, `foldlM_invariant_of_mem` : what each step keeps, a run keeps;
* `Trades`, `foldlM_rearranged` : a run over a list in which what has different keys trades places;
* `Alike` : two computations give similar results or the same error, but for errors of some kind;
* `exists_of_mem_mapM`, `exists_of_mapM` : what `mapM` gives, and what it gives it for.
-/

namespace DeclGen

variable {ε α β : Type}

@[simp] theorem ok_bind (a : α) (f : α → Except ε β) : (Except.ok a >>= f) = f a := rfl

@[simp] theorem error_bind (e : ε) (f : α → Except ε β) : (Except.error e >>= f) = .error e := rfl

theorem bind_eq_ok_iff {x : Except ε α} {f : α → Except ε β} {b : β} :
    x >>= f = .ok b ↔ ∃ a, x = .ok a ∧ f a = .ok b := by
  cases x with
  | ok a => simp
  | error e => simp

theorem bind_eq_error_iff {x : Except ε α} {f : α → Except ε β} {e : ε} :
    x >>= f = .error e ↔ x = .error e ∨ ∃ a, x = .ok a ∧ f a = .error e := by
  cases x with
  | ok a => simp
  | error e => simp

theorem guard_eq_ok_iff {p : Prop} [Decidable p] {e : ε} {x : Except ε α} {a : α} :
    (if p then .error e else x) = .ok a ↔ ¬ p ∧ x = .ok a := by
  by_cases hp : p
  · rw [if_pos hp]
    exact iff_of_false (by simp) fun h => h.1 hp
  · rw [if_neg hp, and_iff_right hp]

theorem guard_eq_error_iff {p : Prop} [Decidable p] {e e' : ε} {x : Except ε α} :
    (if p then .error e else x) = .error e' ↔ p ∧ e = e' ∨ ¬ p ∧ x = .error e' := by
  by_cases hp : p
  · simp [hp]
  · simp [hp]

theorem map_eq_bind (f : α → β) (x : Except ε α) : x.map f = x >>= fun a => .ok (f a) := by
  cases x <;> rfl

theorem map_eq_ok_iff {f : α → β} {x : Except ε α} {b : β} : x.map f = .ok b ↔ ∃ a, x = .ok a ∧ f a = b := by
  cases x with
  | ok a => simp [Except.map]
  | error e => simp [Except.map]

theorem eq_ok_of_toOption {x : Except ε α} {a : α} (h : x.toOption = some a) : x = .ok a := by
  cases x with
  | ok b => rw [Option.some.inj h]
  | error e => exact absurd h (by simp [Except.toOption])

theorem foldlM_invariant_of_mem {P : β → Prop} {f : β → α → Except ε β} :
    ∀ {as : List α}, (∀ {b a b'}, a ∈ as → P b → f b a = .ok b' → P b') →
      ∀ {b b' : β}, as.foldlM f b = .ok b' → P b → P b' := by
  intro as
  induction as with
  | nil =>
    intro step b b' h hb
    obtain rfl := Except.ok.inj h
    exact hb
  | cons a as ih =>
    intro step b b' h hb
    rw [List.foldlM_cons] at h
    obtain ⟨c, hc, h⟩ := bind_eq_ok_iff.1 h
    exact ih (fun ha => step (List.mem_cons_of_mem _ ha)) h (step List.mem_cons_self hb hc)

theorem foldlM_invariant {P : β → Prop} {f : β → α → Except ε β}
    (step : ∀ {b a b'}, P b → f b a = .ok b' → P b') (as : List α) :
    ∀ {b b' : β}, as.foldlM f b = .ok b' → P b → P b' :=
  foldlM_invariant_of_mem fun _ => step

/-- Two steps may trade places if their keys differ. -/
def Trades {κ : Type} (f : β → α → Except ε β) (key : α → κ) : Prop :=
  ∀ a a' b c d, key a ≠ key a' → f b a = .ok c → f c a' = .ok d → ∃ c', f b a' = .ok c' ∧ f c' a = .ok d

section Trading
variable {κ : Type} {f : β → α → Except ε β} {key : α → κ} {b d : β} {a : α}

/-- Steps that apply changes trade places if the changes do. -/
theorem trades_of_changes {δ : Type} (change : β → α → Except ε δ) (apply : β → δ → β)
    (eq : ∀ b a, f b a = (change b a).map (apply b))
    (stable : ∀ b d a, change (apply b d) a = change b a)
    (comm : ∀ {b a a' d d'}, key a ≠ key a' → change b a = .ok d → change b a' = .ok d' →
      apply (apply b d) d' = apply (apply b d') d) : Trades f key := by
  intro a a' b c d differ hc hd
  rw [eq, map_eq_ok_iff] at hc
  obtain ⟨first, hf, rfl⟩ := hc
  rw [eq, stable, map_eq_ok_iff] at hd
  obtain ⟨second, hs, rfl⟩ := hd
  refine ⟨apply b second, by rw [eq, hs]; rfl, ?_⟩
  rw [eq, stable, hf, comm differ hf hs]
  rfl

theorem Trades.to_front (trades : Trades f key) {front back : List α} (other : ∀ a' ∈ front, key a' ≠ key a)
    (h : (front ++ a :: back).foldlM f b = .ok d) : (a :: (front ++ back)).foldlM f b = .ok d := by
  induction front generalizing b with
  | nil => exact h
  | cons a' front ih =>
    rw [List.forall_mem_cons] at other
    rw [List.cons_append, List.foldlM_cons] at h
    obtain ⟨c, hc, h⟩ := bind_eq_ok_iff.1 h
    have h := ih other.2 h
    rw [List.foldlM_cons] at h
    obtain ⟨c₁, hc₁, h⟩ := bind_eq_ok_iff.1 h
    obtain ⟨c', hc', hc₁⟩ := trades a' a b c c₁ other.1 hc hc₁
    rw [List.foldlM_cons, hc', ok_bind, List.cons_append, List.foldlM_cons, hc₁]
    exact h

/-- What has the same key keeps its order: then the order of the others does not matter. -/
theorem foldlM_rearranged [DecidableEq κ] (trades : Trades f key) {as as' : List α}
    (same : ∀ k, as.filter (key · = k) = as'.filter (key · = k)) (h : as.foldlM f b = .ok d) :
    as'.foldlM f b = .ok d := by
  induction as' generalizing as b with
  | nil =>
    cases as with
    | nil => exact h
    | cons a as => exact absurd (same (key a)) (by simp)
  | cons a as' ih =>
    have first := same (key a)
    rw [List.filter_cons_of_pos (by simp), List.filter_eq_cons_iff] at first
    obtain ⟨front, back, rfl, other, -, rest⟩ := first
    have other : ∀ a' ∈ front, key a' ≠ key a := fun a' ha => by simpa using other a' ha
    have h := trades.to_front other h
    rw [List.foldlM_cons] at h ⊢
    obtain ⟨c, hc, h⟩ := bind_eq_ok_iff.1 h
    rw [hc]
    refine ih (fun k => ?_) h
    have all := same k
    rw [List.filter_append] at all ⊢
    by_cases hk : key a = k
    · subst hk
      rw [List.filter_eq_nil_iff.2 fun a' ha => by simpa using other a' ha]
      exact rest
    · rwa [List.filter_cons_of_neg (by simpa using hk), List.filter_cons_of_neg (by simpa using hk)] at all

end Trading

/-- The results are related or the errors the same, unless one of the two is an error of the kind `K`. -/
inductive Alike (K : ε → Prop) (R : α → β → Prop) : Except ε α → Except ε β → Prop
  | ok {a : α} {b : β} (h : R a b) : Alike K R (.ok a) (.ok b)
  | error (e : ε) : Alike K R (.error e) (.error e)
  | left {e : ε} (h : K e) (y : Except ε β) : Alike K R (.error e) y
  | right (x : Except ε α) {e : ε} (h : K e) : Alike K R x (.error e)

section Relating
variable {K : ε → Prop} {α' β' : Type} {R : α → β → Prop}

theorem Alike.same (x : Except ε α) : Alike K Eq x x := by
  cases x with
  | ok a => exact .ok rfl
  | error e => exact .error e

theorem Alike.bind {S : α' → β' → Prop} {x : Except ε α} {y : Except ε β} {f : α → Except ε α'} {g : β → Except ε β'}
    (h : Alike K R x y) (next : ∀ a b, R a b → Alike K S (f a) (g b)) : Alike K S (x >>= f) (y >>= g) := by
  cases h with
  | ok h => exact next _ _ h
  | error e => exact .error e
  | left h y => exact .left h _
  | right x h => exact .right _ h

/-- Runs are alike if their steps are. -/
theorem Alike.foldlM {f : α → α' → Except ε α} {g : β → α' → Except ε β} {a : α} {b : β}
    (step : ∀ a b c, R a b → Alike K R (f a c) (g b c)) (h : R a b) (cs : List α') :
    Alike K R (cs.foldlM f a) (cs.foldlM g b) := by
  induction cs generalizing a b with
  | nil => exact .ok h
  | cons c cs ih =>
    rw [List.foldlM_cons, List.foldlM_cons]
    exact (step a b c h).bind fun _ _ h => ih h

end Relating

theorem exists_of_mem_mapM {f : α → Except ε β} {as : List α} :
    ∀ {bs : List β}, as.mapM f = .ok bs → ∀ b ∈ bs, ∃ a ∈ as, f a = .ok b := by
  induction as with
  | nil =>
    intro bs h b hb
    obtain rfl := Except.ok.inj h
    exact absurd hb (by simp)
  | cons a as ih =>
    intro bs h b hb
    rw [List.mapM_cons] at h
    obtain ⟨c, hc, h⟩ := bind_eq_ok_iff.1 h
    obtain ⟨cs, hcs, h⟩ := bind_eq_ok_iff.1 h
    obtain rfl := Except.ok.inj h
    rcases List.mem_cons.1 hb with rfl | hb
    · exact ⟨a, List.mem_cons_self, hc⟩
    · obtain ⟨d, hd, hf⟩ := ih hcs b hb
      exact ⟨d, List.mem_cons_of_mem _ hd, hf⟩

theorem exists_of_mapM {f : α → Except ε β} {as : List α} :
    ∀ {bs : List β}, as.mapM f = .ok bs → ∀ a ∈ as, ∃ b ∈ bs, f a = .ok b := by
  induction as with
  | nil => exact fun _ a ha => absurd ha (by simp)
  | cons a as ih =>
    intro bs h d hd
    rw [List.mapM_cons] at h
    obtain ⟨c, hc, h⟩ := bind_eq_ok_iff.1 h
    obtain ⟨cs, hcs, h⟩ := bind_eq_ok_iff.1 h
    obtain rfl := Except.ok.inj h
    rcases List.mem_cons.1 hd with rfl | hd
    · exact ⟨c, List.mem_cons_self, hc⟩
    · obtain ⟨b, hb, hf⟩ := ih hcs d hd
      exact ⟨b, List.mem_cons_of_mem _ hb, hf⟩

end DeclGen
