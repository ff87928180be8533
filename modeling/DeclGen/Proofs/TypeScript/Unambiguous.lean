import DeclGen.Proofs.TypeScript.Grammar

/-!
# The grammar of TypeScript types is unambiguous

A text has one list of tokens, since each token is the longest at its place. Two derivations at the
start of one list of tokens are compared with what follows them: `Stops` tells that nothing follows
that the shorter one of two derivations could go on with.

* `Spells.unique` : a text has one list of tokens;
* `separated_unique` : lists of items with marks between them, item by item;
* `Primary.unique` : production by production, by induction on the first derivation;
* `Derives.unique` : a text has at most one derivation.
-/

namespace DeclGen.TypeScript
open Text (trimStart)

/-! ## Tokens of a text -/

theorem Spells.unique {letters : Letters} {tokens tokens' : List Token} {t : Text}
    (h : Spells letters tokens t) (h' : Spells letters tokens' t) : tokens = tokens' := by
  have ended : ∀ {t : Text} {token : Token} {tokens : List Token}, trimStart t = [] →
      ¬ Spells letters (token :: tokens) t := by
    rintro t token tokens ht ⟨rest, hn, -⟩
    rw [ht] at hn
    exact absurd hn (by simp [next?])
  induction tokens generalizing tokens' t with
  | nil =>
    cases tokens' with
    | nil => rfl
    | cons token' tokens' => exact absurd h' (ended h)
  | cons token tokens ih =>
    cases tokens' with
    | nil => exact absurd h (ended h')
    | cons token' tokens' =>
      obtain ⟨rest, hn, hs⟩ := h
      obtain ⟨rest', hn', hs'⟩ := h'
      rw [hn, Option.some.injEq, Prod.mk.injEq] at hn'
      obtain ⟨rfl, rfl⟩ := hn'
      rw [ih hs hs']

/-! ## What follows -/

/-- None of the marks is the next token. -/
def Stops (cs : List Char) (r : List Token) : Prop := ∀ c ∈ cs, r.head? ≠ some (.mark c)

theorem stops_nil {cs : List Char} : Stops cs [] := fun _ _ => by simp

theorem stops_mark {c : Char} {cs : List Char} (hc : c ∉ cs) (r : List Token) :
    Stops cs (.mark c :: r) := by
  rintro d hd ⟨⟩
  exact hc hd

theorem Stops.mono {cs ds : List Char} {r : List Token} (h : Stops ds r) (hs : cs ⊆ ds) : Stops cs r :=
  fun c hc => h c (hs hc)

theorem Stops.ne_cons {c : Char} {cs : List Char} {r : List Token} (h : Stops cs r) (hc : c ∈ cs)
    (following : List Token) : r ≠ .mark c :: following := by
  rintro rfl
  exact h c hc rfl

/-! ## Suffixes and lists -/

variable {r r' : List Token}

theorem bracketTokens_succ (n : Nat) :
    bracketTokens (n + 1) ++ r = .mark '[' :: .mark ']' :: (bracketTokens n ++ r) := rfl

theorem stops_bracketTokens {cs : List Char} (hc : '[' ∉ cs) (hr : Stops cs r) :
    ∀ n, Stops cs (bracketTokens n ++ r)
  | 0 => hr
  | _ + 1 => stops_mark hc _

theorem bracketTokens_unique (hr : Stops ['['] r) (hr' : Stops ['['] r') :
    ∀ {n n' : Nat}, bracketTokens n ++ r = bracketTokens n' ++ r' → n = n' ∧ r = r'
  | 0, 0, h => ⟨rfl, h⟩
  | 0, n' + 1, h => absurd h (hr.ne_cons (by simp) _)
  | n + 1, 0, h => absurd h.symm (hr'.ne_cons (by simp) _)
  | n + 1, n' + 1, h => by
    rw [bracketTokens_succ, bracketTokens_succ, List.cons.injEq, List.cons.injEq] at h
    obtain ⟨hn, hrest⟩ := bracketTokens_unique hr hr' h.2.2
    exact ⟨by rw [hn], hrest⟩

theorem separated_cons (c : Char) (item : List Token) (items : List (List Token)) :
    separated c (item :: items) =
      item ++ (if items = [] then [] else .mark c :: separated c items) := by
  cases items with
  | nil => simp [separated]
  | cons next items => simp [separated, List.intercalate_cons_cons]

/-- If the first of two lists of items can be read item by item, the lists are one. -/
theorem separated_unique {ι : Type} {tokens : ι → List Token} {Valid : ι → Prop} {c : Char}
    (cs : List Char) (hc : c ∉ cs) (hr : Stops (c :: cs) r) (hr' : Stops (c :: cs) r') :
    ∀ {is is' : List ι}, is ≠ [] → is' ≠ [] → (∀ i' ∈ is', Valid i') →
      (∀ i ∈ is, ∀ {i' q q'}, Valid i' → tokens i ++ q = tokens i' ++ q' → Stops cs q → Stops cs q' →
        i = i' ∧ q = q') →
      separated c (is.map tokens) ++ r = separated c (is'.map tokens) ++ r' → is = is' ∧ r = r'
  | i :: is, i' :: is', _, _, hv, item, h => by
    -- Behind an item stands a mark or the end of the list. No item goes on with either.
    have behind : ∀ {is : List ι} {r : List Token}, Stops (c :: cs) r → Stops cs
        ((if is.map tokens = [] then [] else .mark c :: separated c (is.map tokens)) ++ r) := by
      intro is r hr
      split
      · exact hr.mono (List.subset_cons_self c cs)
      · exact stops_mark hc _
    rw [List.forall_mem_cons] at hv item
    rw [List.map_cons, List.map_cons, separated_cons, separated_cons, List.append_assoc,
      List.append_assoc] at h
    obtain ⟨rfl, hrest⟩ := item.1 hv.1 h (behind hr) (behind hr')
    match is, is' with
    | [], [] => exact ⟨rfl, hrest⟩
    | [], _ :: _ => exact absurd hrest (hr.ne_cons (by simp) _)
    | _ :: _, [] => exact absurd hrest.symm (hr'.ne_cons (by simp) _)
    | j :: is, j' :: is' =>
      obtain ⟨his, hrr⟩ := separated_unique cs hc hr hr' (List.cons_ne_nil j is) (List.cons_ne_nil j' is')
        hv.2 item.2 (List.cons.inj hrest).2
      exact ⟨by rw [his], hrr⟩

/-! ## Derivations -/

variable {name : Text → Prop} {key : Key → Prop}

/-- Only `p` begins with the tokens of `p`, unless a `<` follows. -/
def Primary.Unique (name : Text → Prop) (key : Key → Prop) (p : Primary) : Prop :=
  ∀ {p' : Primary} {r r' : List Token}, p'.WellFormed name key → p.tokens ++ r = p'.tokens ++ r' →
    Stops ['<'] r → Stops ['<'] r' → p = p' ∧ r = r'

theorem Suffixed.unique {s s' : Suffixed Primary} (hs : s.primary.Unique name key)
    (hs' : s'.primary.WellFormed name key) (h : s.tokens ++ r = s'.tokens ++ r')
    (hr : Stops ['[', '<'] r) (hr' : Stops ['[', '<'] r') : s = s' ∧ r = r' := by
  rw [Suffixed.tokens, Suffixed.tokens, List.append_assoc, List.append_assoc] at h
  obtain ⟨hp, hrest⟩ := hs hs' h (stops_bracketTokens (by decide) (hr.mono (by simp)) _)
    (stops_bracketTokens (by decide) (hr'.mono (by simp)) _)
  obtain ⟨hn, hend⟩ := bracketTokens_unique (hr.mono (by simp)) (hr'.mono (by simp)) hrest
  cases s
  cases s'
  exact ⟨by simp_all, hend⟩

/-- Types are compared alternative by alternative. -/
theorem Tree.unique_of {t t' : Tree} (ht : t ≠ []) (hs : ∀ s ∈ t, s.primary.Unique name key)
    (ht' : t' ≠ []) (hs' : ∀ s ∈ t', s.primary.WellFormed name key)
    (h : t.tokens ++ r = t'.tokens ++ r') (hr : Stops ['|', '[', '<'] r)
    (hr' : Stops ['|', '[', '<'] r') : t = t' ∧ r = r' := by
  refine separated_unique ['[', '<'] (by decide) hr hr' ht ht' hs' ?_ h
  intro s hm s' q q' hw hq hstop hstop'
  exact Suffixed.unique (hs s hm) hw hq hstop hstop'

theorem Key.token_injective {k k' : Key} (h : k.token = k'.token) : k = k' := by
  cases k <;> cases k' <;> simp_all [Key.token]

/-- The tokens up to the colon tell the key and whether it may be absent. -/
theorem Property.lead_unique {p p' : Property Tree} (h : p.lead ++ r = p'.lead ++ r') :
    p.key = p'.key ∧ p.optional = p'.optional ∧ r = r' := by
  obtain ⟨k, o, t⟩ := p
  obtain ⟨k', o', t'⟩ := p'
  simp only [Property.lead, List.cons_append, List.cons.injEq, List.append_assoc, List.nil_append] at h
  obtain ⟨hkey, hrest⟩ := h
  have ho : o = o' := by cases o <;> cases o' <;> simp_all
  subst ho
  exact ⟨Key.token_injective hkey, rfl, (List.cons.inj (List.append_cancel_left hrest)).2⟩

theorem Property.unique {p p' : Property Tree} (hp : p.type ≠ [])
    (hs : ∀ s ∈ p.type, s.primary.Unique name key) (hp' : p'.type ≠ [])
    (hs' : ∀ s ∈ p'.type, s.primary.WellFormed name key) (h : p.tokens ++ r = p'.tokens ++ r')
    (hr : Stops ['|', '[', '<'] r) (hr' : Stops ['|', '[', '<'] r') : p = p' ∧ r = r' := by
  rw [Property.tokens, Property.tokens, List.append_assoc, List.append_assoc] at h
  obtain ⟨hkey, hoptional, hrest⟩ := Property.lead_unique h
  obtain ⟨htype, hend⟩ := Tree.unique_of hp hs hp' hs' hrest hr hr'
  cases p
  cases p'
  exact ⟨by simp_all, hend⟩

/-- An object type with properties does not end where they begin. -/
theorem separated_properties_ne {p : Property Tree} {ps : List (Property Tree)} :
    separated ';' ((p :: ps).map Property.tokens) ++ r ≠ .mark '}' :: r' := by
  rw [List.map_cons, separated_cons, Property.tokens, Property.lead]
  cases p.key <;> simp [Key.token]

theorem Primary.unique {p : Primary} (h : p.WellFormed name key) : p.Unique name key := by
  -- The first token tells the productions apart, except a name `Record` from a record: there it is
  -- the `<` that does not follow a name.
  induction h with
  | name hn =>
    intro p' r r' hp' he hr hr'
    cases hp' with
    | name => simpa [tokens_name] using he
    | record =>
      rw [tokens_name, tokens_record] at he
      exact absurd (List.cons.inj he).2 (hr.ne_cons (by simp) _)
    | object => simp [tokens_name, tokens_object] at he
    | parenthesized => simp [tokens_name, tokens_parenthesized] at he
  | @record k v hk hv _ _ ihk ihv =>
    intro p' r r' hp' he hr hr'
    cases hp' with
    | name =>
      rw [tokens_name, tokens_record] at he
      exact absurd (List.cons.inj he).2.symm (hr'.ne_cons (by simp) _)
    | @record k' v' hk' hv' hks' hvs' =>
      simp only [tokens_record, List.cons_append, List.append_assoc, List.cons.injEq, true_and] at he
      obtain ⟨hkey, hmid⟩ := Tree.unique_of hk ihk hk' hks' he (stops_mark (by decide) _)
        (stops_mark (by decide) _)
      obtain ⟨hvalue, hend⟩ := Tree.unique_of hv ihv hv' hvs' (List.cons.inj hmid).2
        (stops_mark (by decide) _) (stops_mark (by decide) _)
      exact ⟨by rw [hkey, hvalue], (List.cons.inj hend).2⟩
    | object => simp [tokens_record, tokens_object] at he
    | parenthesized => simp [tokens_record, tokens_parenthesized] at he
  | @object ps hps _ ih =>
    intro p' r r' hp' he hr hr'
    cases hp' with
    | name => simp [tokens_name, tokens_object] at he
    | record => simp [tokens_record, tokens_object] at he
    | @object ps' hps' hss' =>
      simp only [tokens_object, List.cons_append, List.append_assoc, List.cons.injEq, true_and] at he
      match ps, ps' with
      | [], [] => exact ⟨rfl, (List.cons.inj he).2⟩
      | [], _ :: _ => exact absurd he.symm separated_properties_ne
      | _ :: _, [] => exact absurd he separated_properties_ne
      | p :: ps, p' :: ps' =>
        have hvalid : ∀ q ∈ p' :: ps', q.type ≠ [] ∧ ∀ s ∈ q.type, s.primary.WellFormed name key :=
          fun q hq => ⟨(hps' q hq).2, hss' q hq⟩
        obtain ⟨hall, hend⟩ := separated_unique ['|', '[', '<'] (by decide)
          (stops_mark (by decide) _) (stops_mark (by decide) _) (List.cons_ne_nil p ps)
          (List.cons_ne_nil p' ps') hvalid
          (fun q hq {q' _ _} hq' heq hs hs' =>
            Property.unique (hps q hq).2 (ih q hq) hq'.1 hq'.2 heq hs hs') he
        exact ⟨by rw [hall], (List.cons.inj hend).2⟩
    | parenthesized => simp [tokens_object, tokens_parenthesized] at he
  | @parenthesized t ht _ ih =>
    intro p' r r' hp' he hr hr'
    cases hp' with
    | name => simp [tokens_name, tokens_parenthesized] at he
    | record => simp [tokens_record, tokens_parenthesized] at he
    | object => simp [tokens_object, tokens_parenthesized] at he
    | @parenthesized t' ht' hs' =>
      simp only [tokens_parenthesized, List.cons_append, List.append_assoc, List.cons.injEq,
        true_and] at he
      obtain ⟨hinner, hend⟩ := Tree.unique_of ht ih ht' hs' he (stops_mark (by decide) _)
        (stops_mark (by decide) _)
      exact ⟨by rw [hinner], (List.cons.inj hend).2⟩

/-- Two derivations with the same tokens are one. -/
theorem Tree.unique {d d' : Tree} (h : d.WellFormed name key) (h' : d'.WellFormed name key)
    (ht : d.tokens = d'.tokens) : d = d' := by
  have he : d.tokens ++ [] = d'.tokens ++ [] := by rw [ht]
  exact (Tree.unique_of h.ne_nil (fun s hs => Primary.unique (h.alternatives s hs)) h'.ne_nil
    h'.alternatives he stops_nil stops_nil).1

/-- A text has at most one derivation. -/
theorem Derives.unique {letters : Letters} {d d' : Tree} {t : Text} (h : Derives letters d t)
    (h' : Derives letters d' t) : d = d' :=
  Tree.unique h.wellFormed h'.wellFormed (h.spells.unique h'.spells)

end DeclGen.TypeScript
