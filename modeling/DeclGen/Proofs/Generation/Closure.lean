import DeclGen.Generation
import DeclGen.Proofs.Loader.Registry
import DeclGen.Proofs.Outcome

/-!
# What a closure generates

The names that had their turn and those in the queue are the names visited, without repetition. Each
name that had its turn is accounted for, and the references of what was generated are followed. As
the loader gives at most `bound` names, the queue is empty at the end.

* `Generation.Accounts`, `Generation.Holds` : a name was generated or skipped in a collision; there
  is an output under a short name;
* `Output.Renders` : the entity of an output;
* `Closure.Follows` : what following dependencies does to the state;
* `Closure.visit_cases` : what a turn can do;
* `Closure.Invariant` : the invariant; `visit_invariant` is one turn, `Turns.keeps` any number of
  them, with whatever else the turns keep;
* `generateClosure_stops`, `generateClosure_turns` : a closure takes turns until none follows;
  `generateClosure_final` : the state at the end;
* `Closed`, `generateClosure_closed` : no dependency of what is generated is lost;
* `generateClosure_named` : files stand under the short names of their entities;
* `generateClosure_first`, `generateClosure_root` : the entity that a closure starts from has the
  first file, which is the file of its short name.
-/

namespace DeclGen

/-! ## Outputs and collisions -/

/-- The entity of the name is generated, or a collision tells that it was skipped. -/
def Generation.Accounts (g : Generation) (name : Text) : Prop :=
  (∃ o ∈ g.outputs, o.owner = name) ∨ ∃ c ∈ g.collisions, c.skipped = name

/-- There is an output under the short name. -/
def Generation.Holds (g : Generation) (short : Text) : Prop := ∃ o ∈ g.outputs, o.shortName = short

/-- Nothing of `g` is lost in `g'`. -/
structure Generation.Grows (g g' : Generation) : Prop where
  outputs : ∀ o ∈ g.outputs, o ∈ g'.outputs
  unresolved : ∀ short ∈ g.unresolved, short ∈ g'.unresolved
  collisions : ∀ c ∈ g.collisions, c ∈ g'.collisions

theorem Generation.Accounts.mono {g g' : Generation} (h : g.Grows g') {name : Text}
    (ha : g.Accounts name) : g'.Accounts name := by
  rcases ha with ⟨o, ho, hn⟩ | ⟨c, hc, hn⟩
  · exact Or.inl ⟨o, h.outputs o ho, hn⟩
  · exact Or.inr ⟨c, h.collisions c hc, hn⟩

theorem Generation.Holds.mono {g g' : Generation} (h : g.Grows g') {short : Text}
    (hs : g.Holds short) : g'.Holds short := by
  obtain ⟨o, ho, hn⟩ := hs
  exact ⟨o, h.outputs o ho, hn⟩

/-- The output is the file of the entity that the loader gives for its owner. -/
structure Output.Renders (loader : Loader) (render : Renderer) (o : Output) (e : Entity) : Prop where
  load : loader.load o.owner = .ok e
  shortName : o.shortName = Name.short o.owner
  text : o.text = render e.resolve

theorem mem_addNew_iff {α : Type} [DecidableEq α] {xs : List α} {x y : α} :
    y ∈ addNew xs x ↔ y ∈ xs ∨ y = x := by
  rw [addNew]
  split
  · next h => exact ⟨Or.inl, fun hy => hy.elim id fun he => he ▸ h⟩
  · rw [List.mem_append, List.mem_singleton]

namespace Closure
variable {loader : Loader} {render : Renderer} {s s' : State}

/-! ## Dependencies -/

/-- What following the dependencies `ds` does to the state. -/
structure Follows (loader : Loader) (scope : Text) (ds : List (Text × Text)) (s s' : State) : Prop where
  queued : ∃ new, s'.visited = s.visited ++ new ∧ s'.queue = s.queue ++ new
  nodup : s.visited.Nodup → s'.visited.Nodup
  answers : (∀ name ∈ s.visited, loader.Answers name) → ∀ name ∈ s'.visited, loader.Answers name
  outputs : s'.generated.outputs = s.generated.outputs
  collisions : s'.generated.collisions = s.generated.collisions
  unresolved : ∀ short ∈ s.generated.unresolved, short ∈ s'.generated.unresolved
  found : ∀ d ∈ ds, ∀ name, loader.resolve d.2 scope = some name → name ∈ s'.visited
  missed : ∀ d ∈ ds, loader.resolve d.2 scope = none → d.1 ∈ s'.generated.unresolved

theorem Follows.visited {scope : Text} {ds : List (Text × Text)} (h : Follows loader scope ds s s') :
    ∀ name ∈ s.visited, name ∈ s'.visited := by
  obtain ⟨new, hv, -⟩ := h.queued
  intro name hn
  rw [hv]
  exact List.mem_append_left _ hn

theorem follows_nil (scope : Text) (s : State) : Follows loader scope [] s s where
  queued := ⟨[], by simp, by simp⟩
  nodup h := h
  answers h := h
  outputs := rfl
  collisions := rfl
  unresolved _ h := h
  found _ h := absurd h (by simp)
  missed _ h := absurd h (by simp)

theorem follows_follow (scope : Text) (s : State) (d : Text × Text) :
    Follows loader scope [d] s (follow loader scope s d) := by
  cases hr : loader.resolve d.2 scope with
  | none =>
    have hs : follow loader scope s d = { s with generated :=
        { s.generated with unresolved := addNew s.generated.unresolved d.1 } } := by
      simp only [follow, hr]
    rw [hs]
    refine ⟨⟨[], by simp, by simp⟩, fun h => h, fun h => h, rfl, rfl, ?_, ?_, ?_⟩
    · exact fun short h => mem_addNew_iff.2 (Or.inl h)
    · intro d' hd name hn
      obtain rfl := List.mem_singleton.1 hd
      rw [hr] at hn
      exact absurd hn (by simp)
    · intro d' hd _
      obtain rfl := List.mem_singleton.1 hd
      exact mem_addNew_iff.2 (Or.inr rfl)
  | some name =>
    have missed : ∀ d' ∈ [d], loader.resolve d'.2 scope = none →
        d'.1 ∈ (follow loader scope s d).generated.unresolved := by
      intro d' hd hn
      obtain rfl := List.mem_singleton.1 hd
      rw [hr] at hn
      exact absurd hn (by simp)
    have found : name ∈ (follow loader scope s d).visited → ∀ d' ∈ [d], ∀ n,
        loader.resolve d'.2 scope = some n → n ∈ (follow loader scope s d).visited := by
      intro hm d' hd n hn
      obtain rfl := List.mem_singleton.1 hd
      rw [hr] at hn
      obtain rfl := Option.some.inj hn
      exact hm
    by_cases hv : name ∈ s.visited
    · have hs : follow loader scope s d = s := by
        simp only [follow, hr, if_pos hv]
      rw [hs] at missed found ⊢
      exact ⟨⟨[], by simp, by simp⟩, fun h => h, fun h => h, rfl, rfl, fun _ h => h, found hv, missed⟩
    · have hs : follow loader scope s d =
          { s with visited := s.visited ++ [name], queue := s.queue ++ [name] } := by
        simp only [follow, hr, if_neg hv]
      rw [hs] at missed found ⊢
      have hm : name ∈ s.visited ++ [name] := List.mem_append_right _ List.mem_cons_self
      refine ⟨⟨[name], rfl, rfl⟩, ?_, ?_, rfl, rfl, fun _ h => h, found hm, missed⟩
      · intro hn
        rw [List.nodup_append]
        refine ⟨hn, by simp, ?_⟩
        rintro a ha b hb rfl
        exact hv (List.mem_singleton.1 hb ▸ ha)
      · intro ha n hn
        rcases List.mem_append.1 hn with hn | hn
        · exact ha n hn
        · exact ⟨d.2, scope, by rw [hr, List.mem_singleton.1 hn]⟩

theorem Follows.append {scope : Text} {ds ds' : List (Text × Text)} {s'' : State}
    (h : Follows loader scope ds s s') (h' : Follows loader scope ds' s' s'') :
    Follows loader scope (ds ++ ds') s s'' where
  queued := by
    obtain ⟨new, hv, hq⟩ := h.queued
    obtain ⟨new', hv', hq'⟩ := h'.queued
    exact ⟨new ++ new', by rw [hv', hv, List.append_assoc], by rw [hq', hq, List.append_assoc]⟩
  nodup hn := h'.nodup (h.nodup hn)
  answers ha := h'.answers (h.answers ha)
  outputs := h'.outputs.trans h.outputs
  collisions := h'.collisions.trans h.collisions
  unresolved short hs := h'.unresolved short (h.unresolved short hs)
  found d hd name hn := by
    rcases List.mem_append.1 hd with hd | hd
    · exact h'.visited name (h.found d hd name hn)
    · exact h'.found d hd name hn
  missed d hd hn := by
    rcases List.mem_append.1 hd with hd | hd
    · exact h'.unresolved d.1 (h.missed d hd hn)
    · exact h'.missed d hd hn

theorem follows_foldl (scope : Text) (ds : List (Text × Text)) (s : State) :
    Follows loader scope ds s (ds.foldl (follow loader scope) s) := by
  induction ds generalizing s with
  | nil => exact follows_nil scope s
  | cons d ds ih => exact (follows_follow scope s d).append (ih (follow loader scope s d))

theorem mem_foldl_noteShadowed_iff {e : Resolved} {written : List Text} {cs : List Collision}
    {c : Collision} : c ∈ written.foldl (noteShadowed loader e) cs ↔
      c ∈ cs ∨ ∃ w ∈ written, shadowing loader e w = some c := by
  induction written generalizing cs with
  | nil => simp
  | cons w written ih =>
    have hw : c ∈ noteShadowed loader e cs w ↔ c ∈ cs ∨ shadowing loader e w = some c := by
      rw [noteShadowed]
      split
      · next hn => simp [hn]
      · next found hn => rw [mem_addNew_iff, hn, Option.some.injEq, eq_comm]
    rw [List.foldl_cons, ih, hw, or_assoc]
    simp

/-! ## Turns -/

/-- The dependencies of the entity are visited or noted, and so are the collisions inside it. -/
structure Followed (loader : Loader) (e : Resolved) (s : State) : Prop where
  found : ∀ d ∈ e.dependencies.entries, ∀ name, loader.resolve d.2 e.scope = some name →
    name ∈ s.visited
  missed : ∀ d ∈ e.dependencies.entries, loader.resolve d.2 e.scope = none →
    d.1 ∈ s.generated.unresolved
  shadowed : ∀ w ∈ e.dependencies.shadowed, ∀ c, shadowing loader e w = some c →
    c ∈ s.generated.collisions

theorem Followed.mono {e : Resolved} (h : Followed loader e s)
    (hv : ∀ name ∈ s.visited, name ∈ s'.visited) (hg : s.generated.Grows s'.generated) :
    Followed loader e s' :=
  ⟨fun d hd name hn => hv name (h.found d hd name hn),
    fun d hd hn => hg.unresolved d.1 (h.missed d hd hn),
    fun w hw c hc => hg.collisions c (h.shadowed w hw c hc)⟩

/-- The state of a closure in which the names of `done` had their turns. -/
structure Invariant (loader : Loader) (render : Renderer) (done : List Text) (s : State) : Prop where
  visited : s.visited = done ++ s.queue
  nodup : s.visited.Nodup
  answers : ∀ name ∈ s.visited, loader.Answers name
  accounts : ∀ name ∈ done, s.generated.Accounts name ∧ s.generated.Holds (Name.short name)
  outputs : ∀ o ∈ s.generated.outputs, ∃ e : Entity, o.Renders loader render e ∧
    Followed loader e.resolve s

theorem start_invariant {root : Text} (h : loader.Answers root) :
    Invariant loader render [] (start root) where
  visited := rfl
  nodup := by simp [start]
  answers name hn := by
    rw [List.mem_singleton.1 hn]
    exact h
  accounts name hn := absurd hn (by simp)
  outputs o ho := absurd ho (by simp [start, Generation.empty])

theorem Invariant.mem_visited {done queue : List Text} {name : Text}
    (h : Invariant loader render done s) (hq : s.queue = name :: queue) : name ∈ s.visited := by
  rw [h.visited, hq]
  exact List.mem_append_right _ List.mem_cons_self

/-- The turn of a name whose short name is taken. -/
theorem skip_invariant {done queue : List Text} {name : Text} {kept : Output}
    (h : Invariant loader render done s) (hq : s.queue = name :: queue)
    (hk : s.generated.output? (Name.short name) = some kept) :
    Invariant loader render (done ++ [name]) { s with
      queue
      generated := { s.generated with collisions :=
        s.generated.collisions ++ [⟨Name.short name, kept.owner, name⟩] } } := by
  have hg : s.generated.Grows { s.generated with collisions :=
      s.generated.collisions ++ [⟨Name.short name, kept.owner, name⟩] } :=
    ⟨fun _ h => h, fun _ h => h, fun _ h => List.mem_append_left _ h⟩
  refine ⟨?_, h.nodup, h.answers, ?_, ?_⟩
  · rw [List.append_assoc, List.singleton_append, ← hq]
    exact h.visited
  · intro n hn
    rcases List.mem_append.1 hn with hn | hn
    · obtain ⟨ha, hh⟩ := h.accounts n hn
      exact ⟨ha.mono hg, hh.mono hg⟩
    · rw [List.mem_singleton.1 hn]
      refine ⟨Or.inr ⟨_, List.mem_append_right _ List.mem_cons_self, rfl⟩, kept, ?_, ?_⟩
      · exact List.mem_of_find?_eq_some hk
      · simpa using List.find?_some hk
  · intro o ho
    obtain ⟨e, he, hf⟩ := h.outputs o ho
    exact ⟨e, he, hf.mono (fun _ h => h) hg⟩

/-- The turn of a name that is generated. -/
theorem emit_invariant {done queue : List Text} {name : Text} {e : Entity}
    (h : Invariant loader render done s) (hq : s.queue = name :: queue)
    (hl : loader.load name = .ok e) :
    Invariant loader render (done ++ [name]) (emit loader render name e.resolve { s with queue }) := by
  have hf : Follows loader e.resolve.scope e.resolve.dependencies.entries { s with queue } _ :=
    follows_foldl _ _ _
  unfold emit
  generalize e.resolve.dependencies.entries.foldl (follow loader e.resolve.scope)
    { s with queue } = s₁ at hf ⊢
  let o : Output := ⟨Name.short name, name, render e.resolve⟩
  let cs := e.resolve.dependencies.shadowed.foldl (noteShadowed loader e.resolve) s₁.generated.collisions
  have hg : s.generated.Grows
      { s₁.generated with outputs := s₁.generated.outputs ++ [o], collisions := cs } := by
    refine ⟨fun o ho => ?_, hf.unresolved, fun c hc => ?_⟩
    · rw [hf.outputs]
      exact List.mem_append_left _ ho
    · refine mem_foldl_noteShadowed_iff.2 (Or.inl ?_)
      rw [hf.collisions]
      exact hc
  have ho : o ∈ s₁.generated.outputs ++ [o] := List.mem_append_right _ List.mem_cons_self
  refine ⟨?_, hf.nodup h.nodup, hf.answers h.answers, ?_, ?_⟩
  -- What is new among the names visited is what is new in the queue.
  · obtain ⟨new, hv, hn⟩ := hf.queued
    show s₁.visited = done ++ [name] ++ s₁.queue
    rw [hv, hn, h.visited, hq]
    simp
  · intro n hn
    rcases List.mem_append.1 hn with hn | hn
    · obtain ⟨ha, hh⟩ := h.accounts n hn
      exact ⟨ha.mono hg, hh.mono hg⟩
    · rw [List.mem_singleton.1 hn]
      exact ⟨Or.inl ⟨o, ho, rfl⟩, o, ho, rfl⟩
  · intro p hp
    rcases List.mem_append.1 hp with hp | hp
    · rw [hf.outputs] at hp
      obtain ⟨d, hd, hfd⟩ := h.outputs p hp
      exact ⟨d, hd, hfd.mono hf.visited hg⟩
    · rw [List.mem_singleton.1 hp]
      refine ⟨e, ⟨hl, rfl, rfl⟩, hf.found, hf.missed, fun w hw c hc => ?_⟩
      exact mem_foldl_noteShadowed_iff.2 (Or.inr ⟨w, hw, hc⟩)

/-- The two ways in which a turn goes. -/
theorem visit_cases {name : Text} (h : visit loader render name s = .ok s') :
    (∃ kept, s.generated.output? (Name.short name) = some kept ∧
      s' = { s with generated := { s.generated with collisions :=
        s.generated.collisions ++ [⟨Name.short name, kept.owner, name⟩] } }) ∨
    (s.generated.output? (Name.short name) = none ∧
      ∃ e, loader.load name = .ok e ∧ s' = emit loader render name e.resolve s) := by
  unfold visit at h
  cases hk : s.generated.output? (Name.short name) with
  | some kept =>
    simp only [hk] at h
    exact Or.inl ⟨kept, rfl, (Except.ok.inj h).symm⟩
  | none =>
    simp only [hk] at h
    obtain ⟨e, he, h⟩ := bind_eq_ok_iff.1 h
    unfold loadResolved at he
    split at he
    · next d hl =>
      obtain rfl := Except.ok.inj he
      exact Or.inr ⟨rfl, d, hl, (Except.ok.inj h).symm⟩
    · exact absurd he (by simp)

/-- One turn keeps the invariant. -/
theorem visit_invariant {done queue : List Text} {name : Text}
    (h : Invariant loader render done s) (hq : s.queue = name :: queue)
    (hv : visit loader render name { s with queue } = .ok s') :
    Invariant loader render (done ++ [name]) s' := by
  rcases visit_cases hv with ⟨kept, hk, rfl⟩ | ⟨-, e, hl, rfl⟩
  · exact skip_invariant (s := s) h hq hk
  · exact emit_invariant h hq hl

/-- `P` is kept by every turn of a state with the invariant. -/
def Kept (loader : Loader) (render : Renderer) (P : List Text → State → Prop) : Prop :=
  ∀ {done queue : List Text} {name : Text} {s s' : State}, Invariant loader render done s →
    P done s → s.queue = name :: queue → visit loader render name { s with queue } = .ok s' →
      P (done ++ [name]) s'

/-! ## Turn after turn -/

/-- The turn of the first name in the queue. -/
def Turn (loader : Loader) (render : Renderer) (name : Text) (s s' : State) : Prop :=
  ∃ queue, s.queue = name :: queue ∧ visit loader render name { s with queue } = .ok s'

/-- The turns of the names, one after the other, lead from the first state to the second. -/
inductive Turns (loader : Loader) (render : Renderer) : List Text → State → State → Prop
  | nil (s : State) : Turns loader render [] s s
  | cons {name : Text} {names : List Text} {s s₁ s' : State} (turn : Turn loader render name s s₁)
    (turns : Turns loader render names s₁ s') : Turns loader render (name :: names) s s'

/-- No turn follows: the queue is empty, or the turn of its first name fails. -/
inductive Stops (loader : Loader) (render : Renderer) (s : State) : Except GenerationError State → Prop
  | done (empty : s.queue = []) : Stops loader render s (.ok s)
  | failed {name : Text} {queue : List Text} {error : GenerationError} (next : s.queue = name :: queue)
    (fails : visit loader render name { s with queue } = .error error) :
    Stops loader render s (.error error)

/-- Turns keep the invariant, and what each of them keeps. -/
theorem Turns.keeps {P : List Text → State → Prop} (hP : Kept loader render P) {names : List Text}
    (h : Turns loader render names s s') : ∀ {done : List Text}, Invariant loader render done s →
      P done s → Invariant loader render (done ++ names) s' ∧ P (done ++ names) s' := by
  induction h with
  | nil s =>
    intro done hi hp
    rw [List.append_nil]
    exact ⟨hi, hp⟩
  | cons turn _ ih =>
    intro done hi hp
    obtain ⟨queue, hq, hv⟩ := turn
    rw [List.append_cons]
    exact ih (visit_invariant hi hq hv) (hP hi hp hq hv)

theorem Turns.invariant {done names : List Text} (h : Turns loader render names s s')
    (hi : Invariant loader render done s) : Invariant loader render (done ++ names) s' :=
  (h.keeps (P := fun _ _ => True) (fun _ _ _ _ => trivial) hi trivial).1

/-- A run takes turns until none follows, or the fuel is used up. -/
theorem exists_turns (loader : Loader) (render : Renderer) (fuel : Nat) : ∀ s : State,
    ∃ names s', Turns loader render names s s' ∧
      (Stops loader render s' (run loader render fuel s) ∨
        names.length = fuel ∧ run loader render fuel s = .ok s') := by
  induction fuel with
  | zero => exact fun s => ⟨[], s, .nil s, Or.inr ⟨rfl, rfl⟩⟩
  | succ fuel ih =>
    intro s
    cases hq : s.queue with
    | nil =>
      have hr : run loader render (fuel + 1) s = .ok s := by simp only [run, hq]
      rw [hr]
      exact ⟨[], s, .nil s, Or.inl (.done hq)⟩
    | cons name queue =>
      have hr : run loader render (fuel + 1) s =
          visit loader render name { s with queue } >>= run loader render fuel := by
        simp only [run, hq]
      rw [hr]
      cases hv : visit loader render name { s with queue } with
      | error error => exact ⟨[], s, .nil s, Or.inl (.failed hq hv)⟩
      | ok s₁ =>
        obtain ⟨names, s', turns, stop⟩ := ih s₁
        refine ⟨name :: names, s', .cons ⟨queue, hq, hv⟩ turns, ?_⟩
        exact stop.imp_right fun h => ⟨congrArg Nat.succ h.1, h.2⟩

/-- With more fuel than names are left, a run ends where no turn follows. -/
theorem run_stops (hb : loader.Bounded) {done : List Text} (h : Invariant loader render done s)
    {fuel : Nat} (hfuel : loader.bound < fuel + done.length) :
    ∃ names s', Turns loader render names s s' ∧ Stops loader render s' (run loader render fuel s) := by
  obtain ⟨names, s', turns, stop⟩ := exists_turns loader render fuel s
  refine ⟨names, s', turns, stop.resolve_right ?_⟩
  rintro ⟨hlen, -⟩
  -- More names would have had their turns than the loader can give.
  have hi := turns.invariant h
  have hle := hb s'.visited hi.nodup hi.answers
  rw [hi.visited, List.length_append, List.length_append] at hle
  omega

/-! ## The files that are there -/

theorem outputs_emit (name : Text) (e : Resolved) (s : State) :
    (emit loader render name e s).generated.outputs =
      s.generated.outputs ++ [⟨Name.short name, name, render e⟩] := by
  have hf : Follows loader e.scope e.dependencies.entries s _ := follows_foldl _ _ _
  simp only [emit, hf.outputs]

theorem Turn.outputs_prefix {name : Text} (h : Turn loader render name s s') :
    s.generated.outputs <+: s'.generated.outputs := by
  obtain ⟨queue, -, hv⟩ := h
  rcases visit_cases hv with ⟨kept, -, rfl⟩ | ⟨-, e, -, rfl⟩
  · exact List.prefix_rfl
  · rw [outputs_emit]
    exact List.prefix_append _ _

/-- Turns keep the files that are there, and their places. -/
theorem Turns.outputs_prefix {names : List Text} (h : Turns loader render names s s') :
    s.generated.outputs <+: s'.generated.outputs := by
  induction h with
  | nil s => exact List.prefix_rfl
  | cons turn _ ih => exact turn.outputs_prefix.trans ih

/-- All files stand under the short names of their entities. -/
def State.Named (s : State) : Prop := ∀ o ∈ s.generated.outputs, o.shortName = Name.short o.owner

theorem Turn.named {name : Text} (h : Turn loader render name s s') (hs : s.Named) : s'.Named := by
  obtain ⟨queue, -, hv⟩ := h
  rcases visit_cases hv with ⟨kept, -, rfl⟩ | ⟨-, e, -, rfl⟩
  · exact hs
  · intro o ho
    rw [outputs_emit] at ho
    rcases List.mem_append.1 ho with ho | ho
    · exact hs o ho
    · rw [List.mem_singleton.1 ho]

theorem Turns.named {names : List Text} (h : Turns loader render names s s') (hs : s.Named) : s'.Named := by
  induction h with
  | nil s => exact hs
  | cons turn _ ih => exact ih (turn.named hs)

/-- A run that succeeds takes turns to its last state, with as much fuel as there may be. -/
theorem turns_of_run {fuel : Nat} (h : run loader render fuel s = .ok s') :
    ∃ names, Turns loader render names s s' := by
  obtain ⟨names, last, turns, stop⟩ := exists_turns loader render fuel s
  rw [h] at stop
  obtain rfl : s' = last := by
    rcases stop with stop | ⟨-, stop⟩
    · cases stop with
      | done => rfl
    · exact Except.ok.inj stop
  exact ⟨names, turns⟩

end Closure

/-! ## Closures -/

/-- Every dependency of the entity is accounted for, or noted as unresolved, and the collisions
inside the entity are noted. -/
structure Closed (loader : Loader) (g : Generation) (e : Entity) : Prop where
  found : ∀ d ∈ e.resolve.dependencies.entries, ∀ name,
    loader.resolve d.2 e.scope = some name → g.Accounts name ∧ g.Holds (Name.short name)
  missed : ∀ d ∈ e.resolve.dependencies.entries, loader.resolve d.2 e.scope = none →
    d.1 ∈ g.unresolved
  shadowed : ∀ w ∈ e.resolve.dependencies.shadowed, ∀ c,
    Closure.shadowing loader e.resolve w = some c → c ∈ g.collisions

/-- A closure takes turns from its root on, and its outcome is that of the state where they stop. -/
theorem generateClosure_stops {loader : Loader} (render : Renderer) {root name : Text}
    (hb : loader.Bounded) (hn : loader.resolve root [] = some name) :
    ∃ names s outcome, Closure.Turns loader render names (Closure.start name) s ∧
      Closure.Stops loader render s outcome ∧
      generateClosure loader render root = outcome.map Closure.State.generated := by
  have inv : Closure.Invariant loader render [] (Closure.start name) :=
    Closure.start_invariant ⟨root, [], hn⟩
  have hfuel : loader.bound < loader.bound + 1 + ([] : List Text).length := by simp
  obtain ⟨names, s, turns, stop⟩ := Closure.run_stops hb inv hfuel
  refine ⟨names, s, _, turns, stop, ?_⟩
  simp only [generateClosure, resolveRoot, hn, ok_bind]
  cases Closure.run loader render (loader.bound + 1) (Closure.start name) <;> rfl

theorem generateClosure_unresolved {loader : Loader} {render : Renderer} {root : Text}
    (hn : loader.resolve root [] = none) :
    generateClosure loader render root = .error (.notFound root) := by
  simp only [generateClosure, resolveRoot, hn, error_bind]

/-- A closure that succeeds ends with an empty queue. -/
theorem generateClosure_turns {loader : Loader} {render : Renderer} {root : Text} {g : Generation}
    (hb : loader.Bounded) (h : generateClosure loader render root = .ok g) :
    ∃ name names s, loader.resolve root [] = some name ∧
      Closure.Turns loader render names (Closure.start name) s ∧ s.queue = [] ∧ s.generated = g := by
  cases hn : loader.resolve root [] with
  | none =>
    rw [generateClosure_unresolved hn] at h
    exact absurd h (by simp)
  | some name =>
    obtain ⟨names, s, outcome, turns, stop, ho⟩ := generateClosure_stops render hb hn
    rw [h] at ho
    cases stop with
    | done empty => exact ⟨name, names, s, rfl, turns, empty, (Except.ok.inj ho).symm⟩
    | failed => exact absurd ho (by simp [Except.map])

/-- The state in which a closure ends: every name visited had its turn, and what the turns keep
holds. -/
theorem generateClosure_final {loader : Loader} {render : Renderer} {root : Text} {g : Generation}
    {P : List Text → Closure.State → Prop} (hP : Closure.Kept loader render P)
    (start : ∀ name, loader.resolve root [] = some name → P [] (Closure.start name))
    (hb : loader.Bounded) (h : generateClosure loader render root = .ok g) :
    ∃ s, s.generated = g ∧ s.queue = [] ∧ Closure.Invariant loader render s.visited s ∧
      P s.visited s := by
  obtain ⟨name, names, s, hn, turns, empty, rfl⟩ := generateClosure_turns hb h
  obtain ⟨hi, hp⟩ := turns.keeps hP (Closure.start_invariant ⟨root, [], hn⟩) (start name hn)
  obtain rfl : s.visited = names := by simpa [empty] using hi.visited
  exact ⟨s, rfl, empty, hi, hp⟩

/-- **A closure is closed.** Each output is the file of an entity whose dependencies are not lost. -/
theorem generateClosure_closed {loader : Loader} {render : Renderer} {root : Text} {g : Generation}
    (hb : loader.Bounded) (h : generateClosure loader render root = .ok g) :
    ∀ o ∈ g.outputs, ∃ e : Entity, o.Renders loader render e ∧ Closed loader g e := by
  have hP : Closure.Kept loader render fun _ _ => True := fun _ _ _ _ => trivial
  obtain ⟨s, rfl, -, inv, -⟩ := generateClosure_final hP (fun _ _ => trivial) hb h
  intro o ho
  obtain ⟨e, he, hf⟩ := inv.outputs o ho
  exact ⟨e, he, fun d hd n hn => inv.accounts n (hf.found d hd n hn), hf.missed, hf.shadowed⟩

/-- The files of a closure stand under the short names of their entities, whatever the loader is. -/
theorem generateClosure_named {loader : Loader} {render : Renderer} {root : Text} {g : Generation}
    (h : generateClosure loader render root = .ok g) :
    ∀ o ∈ g.outputs, o.shortName = Name.short o.owner := by
  obtain ⟨name, -, h⟩ := bind_eq_ok_iff.1 h
  obtain ⟨s, hs, h⟩ := bind_eq_ok_iff.1 h
  obtain rfl := Except.ok.inj h
  obtain ⟨names, turns⟩ := Closure.turns_of_run hs
  exact turns.named fun o ho => absurd ho (by simp [Closure.start, Generation.empty])

/-- The first file of a closure is that of the entity it starts from. -/
theorem generateClosure_first {loader : Loader} {render : Renderer} {root : Text} {g : Generation}
    (hb : loader.Bounded) (h : generateClosure loader render root = .ok g) :
    ∃ o more, g.outputs = o :: more ∧ loader.resolve root [] = some o.owner ∧
      o.shortName = Name.short o.owner := by
  obtain ⟨name, names, s, hn, turns, empty, rfl⟩ := generateClosure_turns hb h
  cases turns with
  | nil => exact absurd empty (by simp [Closure.start])
  | cons turn turns =>
    obtain ⟨queue, hq, hv⟩ := turn
    obtain ⟨rfl, rfl⟩ := List.cons.inj hq
    rcases Closure.visit_cases hv with ⟨kept, hk, -⟩ | ⟨-, e, -, rfl⟩
    · exact absurd hk (by simp [Closure.start, Generation.empty, Generation.output?])
    · obtain ⟨more, hm⟩ := turns.outputs_prefix
      rw [Closure.outputs_emit] at hm
      exact ⟨_, more, hm.symm, hn, rfl⟩

/-- The entity that a closure starts from is generated under its short name. -/
theorem generateClosure_root {loader : Loader} {render : Renderer} {root name : Text} {g : Generation}
    (hb : loader.Bounded) (hn : loader.resolve root [] = some name)
    (h : generateClosure loader render root = .ok g) :
    ∃ o, g.output? (Name.short name) = some o ∧ o.owner = name := by
  obtain ⟨o, more, ho, hown, hs⟩ := generateClosure_first hb h
  obtain rfl : name = o.owner := Option.some.inj (hn.symm.trans hown)
  refine ⟨o, ?_, rfl⟩
  rw [Generation.output?, ho, List.find?_cons_of_pos (by simpa using hs)]

end DeclGen
