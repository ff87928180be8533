import DeclGen.Proofs.TypeExpr.Completeness

/-!
# The grammar is unambiguous

Two derivations at the start of one text agree step by step: as each is read with the same result,
both end at the same place, so what follows them is compared at one place again. The induction is on
the first derivation.

* `Suffixed.rest_eq`, `Tree.rest_eq`, `Atom.rest_eq`, `ArgumentTree.rest_eq` : derivations end at one
  place;
* `Atom.exists_lead`, `Atom.lead_eq` : how an atom begins tells its production;
* `spells_entries`, `spells_arguments` : two lists at one place go on alike behind their first items;
* `Tree.unique` : derivations at the start of a text, production by production;
* `Derives.unique` : a text has at most one derivation.
-/

namespace DeclGen.TypeExpr
open Text (isSpacing skipSpacing)

variable {t rest rest' : Text}

/-! ## Ends of derivations -/

theorem Tree.rest_eq {e e' : Tree} (he : e.WellFormed IsBound) (he' : e'.WellFormed IsBound)
    (hs : Spells e.tokens t rest) (hs' : Spells e'.tokens t rest') (hb : Before closers rest)
    (hb' : Before closers rest') : skipSpacing rest = skipSpacing rest' := by
  have hL := level_complete (max e.nesting e'.nesting)
  have read := hL.type he (Nat.le_max_left _ _) hs hb
  have read' := hL.type he' (Nat.le_max_right _ _) hs' hb'
  exact congrArg Parsed.rest (Except.ok.inj (read.symm.trans read'))

theorem Suffixed.rest_eq {s s' : Suffixed} (h : s.WellFormed IsBound) (h' : s'.WellFormed IsBound)
    (hs : Spells s.tokens t rest) (hs' : Spells s'.tokens t rest') (hb : Before ('|' :: closers) rest)
    (hb' : Before ('|' :: closers) rest') : rest = rest' := by
  have hL := level_complete (max s.nesting s'.nesting)
  have read := hL.suffixed h (Nat.le_max_left _ _) hs hb
  have read' := hL.suffixed h' (Nat.le_max_right _ _) hs' hb'
  exact congrArg Parsed.rest (Except.ok.inj (read.symm.trans read'))

theorem Atom.rest_eq {a a' : Atom} (h : a.WellFormed IsBound) (h' : a'.WellFormed IsBound)
    (hs : Spells a.tokens t rest) (hs' : Spells a'.tokens t rest')
    (hb : Before ('[' :: '|' :: closers) rest) (hb' : Before ('[' :: '|' :: closers) rest') :
    rest = rest' := by
  have hin : CompleteBelow (some (level (max a.nesting a'.nesting))) (max a.nesting a'.nesting + 1) := by
    intro m hm
    obtain rfl : max a.nesting a'.nesting = m := by omega
    exact ⟨_, rfl, level_complete _⟩
  have read := atom_complete hin h (by omega) hs hb
  have read' := atom_complete hin h' (by omega) hs' hb'
  exact congrArg Parsed.rest (Except.ok.inj (read.symm.trans read'))

theorem ArgumentTree.rest_eq {a a' : ArgumentTree Tree} (h : a.WellFormed IsBound)
    (h' : a'.WellFormed IsBound) (hs : Spells a.tokens t rest) (hs' : Spells a'.tokens t rest')
    (hb : Before [',', '>'] rest) (hb' : Before [',', '>'] rest') :
    skipSpacing rest = skipSpacing rest' := by
  have hL := level_complete (max a.nesting a'.nesting)
  obtain ⟨u, read, hu⟩ := argument_complete hL h (Nat.le_max_left _ _) hs hb
  obtain ⟨u', read', hu'⟩ := argument_complete hL h' (Nat.le_max_right _ _) hs' hb'
  have hsame : u = u' := congrArg Parsed.rest (Except.ok.inj (read.symm.trans read'))
  rw [← hu, ← hu', hsame]

/-! ## Words -/

/-- Behind one mark at one place, the texts go on at one place. -/
theorem spells_behind {c : Char} (hc : isSpacing c = false) {tokens tokens' : List Text}
    (hs : Spells ([c] :: tokens) t rest) (hs' : Spells ([c] :: tokens') t rest') :
    ∃ u, skipSpacing t = c :: u ∧ Spells tokens u rest ∧ Spells tokens' u rest' := by
  obtain ⟨u, hu, hs⟩ := (spells_mark_iff hc).1 hs
  obtain ⟨u', hu', hs'⟩ := (spells_mark_iff hc).1 hs'
  obtain rfl : u = u' := (List.cons.inj (hu.symm.trans hu')).2
  exact ⟨u, hu, hs, hs'⟩

theorem brackets_unique (k : Nat) : ∀ {k' : Nat} {t : Text}, Spells (bracketTokens k) t rest →
    Spells (bracketTokens k') t rest' → Before ('|' :: closers) rest → Before ('|' :: closers) rest' →
      k = k' := by
  have stop : ∀ {k : Nat} {t rest rest' : Text}, Spells (bracketTokens (k + 1)) t rest →
      t = rest' → ¬ Before ('|' :: closers) rest' := by
    rintro k t rest _ hs rfl hb
    obtain ⟨u, hu, -⟩ := (spells_mark_iff (by decide)).1 hs
    exact hb.ne_cons (by decide) u hu
  induction k with
  | zero =>
    intro k' t hs hs' hb hb'
    cases k' with
    | zero => rfl
    | succ k' => exact absurd hb (stop hs' hs)
  | succ k ih =>
    intro k' t hs hs' hb hb'
    cases k' with
    | zero => exact absurd hb' (stop hs hs')
    | succ k' =>
      obtain ⟨u, -, hs, hs'⟩ := spells_behind (by decide) hs hs'
      obtain ⟨v, -, hs, hs'⟩ := spells_behind (by decide) hs hs'
      rw [ih hs hs' hb hb']

/-- Keys of one name at one place are written alike. -/
theorem Key.unique {k k' : Key} (h : k.WellFormed) (h' : k'.WellFormed) {u u' : Text}
    (ht : k.token ++ u = k'.token ++ u') (hn : k.name = k'.name) : k = k' := by
  have inKey_ne : ∀ {name u more : Text} {quote : Char}, (Key.bare name).WellFormed →
      (quote = '\'' ∨ quote = '"') → name ++ u ≠ quote :: more := by
    intro name u more quote hk hq he
    obtain ⟨hne, hc⟩ := hk
    cases name with
    | nil => exact hne rfl
    | cons c name =>
      have hin := hc c List.mem_cons_self
      rw [(List.cons.inj he).1] at hin
      rcases hq with rfl | rfl <;> exact absurd hin (by decide)
  cases k with
  | bare name =>
    cases k' with
    | bare name' => exact congrArg Key.bare hn
    | quoted quote' name' => exact absurd ht (inKey_ne h h'.1)
  | quoted quote name =>
    cases k' with
    | bare name' => exact absurd ht.symm (inKey_ne h' h.1)
    | quoted quote' name' =>
      obtain rfl : quote = quote' := (List.cons.inj ht).1
      exact congrArg (Key.quoted quote) hn

/-! ## How atoms begin -/

/-- What an atom begins with: its production, its name, and where its content starts. -/
inductive Lead where
  | name (name : Text)
  | record (keyword : Option Text) (content : Text)
  | applied (name content : Text)
  | parenthesized (content : Text)

def leadAfter (name following : Text) : Lead :=
  match skipSpacing following with
  | '{' :: content => .record (some name) content
  | '<' :: content => .applied name content
  | _ => .name name

def lead? (t : Text) : Option Lead :=
  match skipSpacing t with
  | [] => none
  | '{' :: content => some (.record none content)
  | '(' :: content => some (.parenthesized content)
  | t => some (leadAfter (t.takeWhile inName) (t.dropWhile inName))

/-- What the atom begins with, if its content starts there. -/
def Atom.lead : Atom → Text → Lead
  | .name n, _ => .name n
  | .record keyword _ _, u => .record keyword u
  | .applied n _, u => .applied n u
  | .parenthesized _, u => .parenthesized u

def Atom.content : Atom → List Text
  | .name _ => []
  | .record _ es comma => entryTokens comma es ++ [['}']]
  | .applied _ as => argumentTokens as ++ [['>']]
  | .parenthesized e => e.tokens ++ [[')']]

theorem lead?_of_name {name following : Text} (hn : IsName name)
    (ht : skipSpacing t = name ++ following) (hf : ∀ c ∈ following.head?, inName c = false) :
    lead? t = some (leadAfter name following) := by
  have take := Text.takeWhile_append_of_head? hn.2 hf
  have drop := Text.dropWhile_append_of_head? hn.2 hf
  obtain ⟨c, more, rfl, hc⟩ := hn.exists_cons
  rw [List.cons_append] at ht take drop
  rw [lead?, ht]
  split
  · next h => exact absurd h (by simp)
  · next h => exact absurd ((List.cons.inj h).1 ▸ hc) (by decide)
  · next h => exact absurd ((List.cons.inj h).1 ▸ hc) (by decide)
  · rw [take, drop]

theorem Atom.exists_lead {a : Atom} (h : a.WellFormed IsBound) (hs : Spells a.tokens t rest)
    (hb : Before ('[' :: '|' :: closers) rest) :
    ∃ content, lead? t = some (a.lead content) ∧ Spells a.content content rest := by
  have marked : ∀ {name following content : Text} {c : Char}, IsName name →
      skipSpacing t = name ++ following → skipSpacing following = c :: content →
      inName c = false → lead? t = some (leadAfter name following) := by
    intro name following content c hn ht hf hc
    have hbefore : Before [c] following := Before.of_head hf (by simp)
    exact lead?_of_name hn ht (inName_of_before hbefore (by simpa using hc))
  cases a with
  | name name =>
    obtain ⟨u, ht, rfl⟩ := (spells_name_iff h).1 hs
    refine ⟨u, ?_, rfl⟩
    rw [lead?_of_name h ht (inName_of_before hb (by decide)), leadAfter]
    split
    · next hu => exact absurd hu (hb.ne_cons (by decide) _)
    · next hu => exact absurd hu (hb.ne_cons (by decide) _)
    · rfl
  | record keyword es comma =>
    cases keyword with
    | none =>
      obtain ⟨u, ht, hu⟩ := (spells_mark_iff (by decide)).1 hs
      exact ⟨u, by rw [lead?, ht]; rfl, hu⟩
    | some k =>
      have hname := isName_of_isCollection (isCollection_of_takesShape (h.1 k rfl))
      obtain ⟨u, ht, hu⟩ := (spells_name_iff hname).1 hs
      obtain ⟨v, hv, hvs⟩ := (spells_mark_iff (by decide)).1 hu
      exact ⟨v, by rw [marked hname ht hv (by decide), leadAfter, hv]; rfl, hvs⟩
  | applied name as =>
    obtain ⟨u, ht, hu⟩ := (spells_name_iff h.1).1 hs
    obtain ⟨v, hv, hvs⟩ := (spells_mark_iff (by decide)).1 hu
    exact ⟨v, by rw [marked h.1 ht hv (by decide), leadAfter, hv]; rfl, hvs⟩
  | parenthesized e =>
    obtain ⟨u, ht, hu⟩ := (spells_mark_iff (by decide)).1 hs
    exact ⟨u, by rw [lead?, ht]; rfl, hu⟩

/-- Atoms at one place begin alike, and their contents start at one place. -/
theorem Atom.lead_eq {a a' : Atom} (h : a.WellFormed IsBound) (h' : a'.WellFormed IsBound)
    (hs : Spells a.tokens t rest) (hs' : Spells a'.tokens t rest')
    (hb : Before ('[' :: '|' :: closers) rest) (hb' : Before ('[' :: '|' :: closers) rest') :
    ∃ u u', a.lead u = a'.lead u' ∧ Spells a.content u rest ∧ Spells a'.content u' rest' := by
  obtain ⟨u, hl, hu⟩ := Atom.exists_lead h hs hb
  obtain ⟨u', hl', hu'⟩ := Atom.exists_lead h' hs' hb'
  exact ⟨u, u', Option.some.inj (hl.symm.trans hl'), hu, hu'⟩

/-! ## Lists of entries and of arguments -/

/-- Two keys at one place, with types behind them, are one key. -/
theorem keys_unique {key key' : Option (Key × Bool)} {e e' : Tree} (hk : ∀ k ∈ key, k.1.WellFormed)
    (hk' : ∀ k ∈ key', k.1.WellFormed) (he : e.WellFormed IsBound) (he' : e'.WellFormed IsBound)
    (hs : Spells (keyTokens key ++ e.tokens) t rest) (hs' : Spells (keyTokens key' ++ e'.tokens) t rest')
    (hb : Before [',', '}'] rest) (hb' : Before [',', '}'] rest') :
    key = key' ∧ ∃ u, Spells e.tokens u rest ∧ Spells e'.tokens u rest' := by
  have mixed : ∀ {k : Key × Bool} {d d' : Tree} {r r' : Text}, k.1.WellFormed → d.WellFormed IsBound →
      Spells d.tokens t r → Before [',', '}'] r → ¬ Spells (keyTokens (some k) ++ d'.tokens) t r' := by
    intro k d d' r r' hwf hd hs hb hs'
    obtain ⟨u, hu, -⟩ := Spells.append.1 hs'
    have found := entryKey?_of_keyed hwf hu
    rw [entryKey?_of_opens (Tree.opens hd) hs hb] at found
    exact absurd found (by simp)
  cases key with
  | none =>
    cases key' with
    | none => exact ⟨rfl, t, hs, hs'⟩
    | some k' => exact absurd hs' (mixed (hk' k' rfl) he hs hb)
  | some k =>
    cases key' with
    | none => exact absurd hs (mixed (hk k rfl) he' hs' hb')
    | some k' =>
      obtain ⟨key, optional⟩ := k
      obtain ⟨key', optional'⟩ := k'
      obtain ⟨u, hu, hs⟩ := Spells.append.1 hs
      obtain ⟨u', hu', hs'⟩ := Spells.append.1 hs'
      have found := entryKey?_of_keyed (hk _ rfl) hu
      rw [entryKey?_of_keyed (hk' _ rfl) hu', Option.some.injEq, Prod.mk.injEq, Prod.mk.injEq] at found
      obtain ⟨hname, rfl, rfl⟩ := found
      obtain ⟨c, token, htoken, hc, -⟩ := Key.exists_cons (hk _ rfl)
      obtain ⟨c', token', htoken', hc', -⟩ := Key.exists_cons (hk' _ rfl)
      rw [keyTokens, htoken, List.cons_append, spells_cons_iff hc] at hu
      rw [keyTokens, htoken', List.cons_append, spells_cons_iff hc'] at hu'
      obtain ⟨v, hv, -⟩ := hu
      obtain ⟨v', hv', -⟩ := hu'
      have ht : key.token ++ v = key'.token ++ v' := by
        rw [htoken, htoken', List.cons_append, List.cons_append, ← hv, ← hv']
      have hkey : key = key' := Key.unique (hk _ rfl) (hk' _ rfl) ht hname.symm
      exact ⟨by rw [hkey], _, hs, hs'⟩

/-- The comma behind an entry or an argument, or the mark that ends the list. -/
theorem after_item {flag : Bool} {stop : Char} {tokens : List Text} (hstop : isSpacing stop = false)
    (hs : Spells (tokenIf flag ',' ++ (tokens ++ [[stop]])) t rest) (hempty : flag = false → tokens = []) :
    ∃ u, skipSpacing t = (if flag then ',' else stop) :: u ∧
      (flag = true → Spells (tokens ++ [[stop]]) u rest) := by
  cases flag with
  | true =>
    obtain ⟨u, hu, hs⟩ := (spells_mark_iff (by decide)).1 (spells_tokenIf_true.1 hs)
    exact ⟨u, hu, fun _ => hs⟩
  | false =>
    rw [hempty rfl] at hs
    obtain ⟨u, hu, -⟩ := (spells_mark_iff hstop).1 (spells_tokenIf_false.1 hs)
    exact ⟨u, hu, fun h => absurd h (by simp)⟩

/-- Lists of items go on alike behind items that end at one place. -/
theorem flags_unique {flag flag' : Bool} {stop : Char} (hstop : stop ≠ ',') {u u' v v' : Text}
    (hu : skipSpacing u = skipSpacing u') (hv : skipSpacing u = (if flag then ',' else stop) :: v)
    (hv' : skipSpacing u' = (if flag' then ',' else stop) :: v') : flag = flag' ∧ v = v' := by
  obtain ⟨hmark, hrest⟩ := List.cons.inj (hv.symm.trans (hu.trans hv'))
  refine ⟨?_, hrest⟩
  cases flag <;> cases flag' <;> simp_all [Ne.symm hstop]

/-- Marks before two members at one place are alike. -/
theorem marks_unique {mark mark' : Bool} {s s' : Suffixed} (h : s.WellFormed IsBound)
    (h' : s'.WellFormed IsBound) (hs : Spells (tokenIf mark '?' ++ s.tokens) t rest)
    (hs' : Spells (tokenIf mark' '?' ++ s'.tokens) t rest') :
    mark = mark' ∧ ∃ u, Spells s.tokens u rest ∧ Spells s'.tokens u rest' := by
  cases mark with
  | true =>
    cases mark' with
    | true =>
      obtain ⟨u, -, hs, hs'⟩ := spells_behind (by decide) (spells_tokenIf_true.1 hs)
        (spells_tokenIf_true.1 hs')
      exact ⟨rfl, u, hs, hs'⟩
    | false =>
      obtain ⟨u, hu, -⟩ := (spells_mark_iff (by decide)).1 (spells_tokenIf_true.1 hs)
      exact absurd hu (Suffixed.ne_question h' (spells_tokenIf_false.1 hs') u)
  | false =>
    cases mark' with
    | true =>
      obtain ⟨u', hu', -⟩ := (spells_mark_iff (by decide)).1 (spells_tokenIf_true.1 hs')
      exact absurd hu' (Suffixed.ne_question h (spells_tokenIf_false.1 hs) u')
    | false => exact ⟨rfl, t, hs, hs'⟩

theorem before_item {flag : Bool} {stop : Char} {u v : Text}
    (h : skipSpacing u = (if flag then ',' else stop) :: v) : Before [',', stop] u := by
  refine Before.of_head h ?_
  cases flag <;> simp

/-- Two lists of entries at one place: their first keys are one, their first types are at one place,
and if one list goes on, the other does, at one place again. -/
theorem spells_entries {comma comma' : Bool} {key key' : Option (Key × Bool)} {e e' : Tree}
    {es es' : List (EntryTree Tree)} (h : EntriesWellFormed IsBound (⟨key, e⟩ :: es))
    (h' : EntriesWellFormed IsBound (⟨key', e'⟩ :: es'))
    (hs : Spells (entryTokens comma (⟨key, e⟩ :: es) ++ [['}']]) t rest)
    (hs' : Spells (entryTokens comma' (⟨key', e'⟩ :: es') ++ [['}']]) t rest') :
    key = key' ∧ (comma || !es.isEmpty) = (comma' || !es'.isEmpty) ∧
      (∃ x u u', Spells e.tokens x u ∧ Spells e'.tokens x u' ∧ Before closers u ∧ Before closers u') ∧
      ((comma || !es.isEmpty) = true → ∃ w, Spells (entryTokens comma es ++ [['}']]) w rest ∧
        Spells (entryTokens comma' es' ++ [['}']]) w rest') := by
  have empty : ∀ {comma : Bool} {es : List (EntryTree Tree)}, (comma || !es.isEmpty) = false →
      entryTokens comma es = [] := by
    intro comma es hf
    rw [(entries_flag hf).2]
    rfl
  obtain ⟨u, hu, hrest⟩ := spells_entry hs
  obtain ⟨u', hu', hrest'⟩ := spells_entry hs'
  obtain ⟨w, hw, hws⟩ := after_item (by decide) hrest empty
  obtain ⟨w', hw', hws'⟩ := after_item (by decide) hrest' empty
  have hb := before_item hw
  have hb' := before_item hw'
  obtain ⟨hkey, x, hx, hx'⟩ := keys_unique h.1 h'.1 h.2.1 h'.2.1 hu hu' hb hb'
  have hc : Before closers u := hb.mono (by decide)
  have hc' : Before closers u' := hb'.mono (by decide)
  have hends := Tree.rest_eq h.2.1 h'.2.1 hx hx' hc hc'
  obtain ⟨hflag, rfl⟩ := flags_unique (by decide) hends hw hw'
  exact ⟨hkey, hflag, ⟨x, u, u', hx, hx', hc, hc'⟩, fun hf => ⟨w, hws hf, hws' (hflag ▸ hf)⟩⟩

/-- No type is spelled where a bound is. -/
theorem not_spells_type {word : Text} {e : Tree} (hw : IsBound word) (he : e.WellFormed IsBound)
    (hs : Spells [word] t rest) : ¬ Spells e.tokens t rest' := by
  intro hs'
  obtain ⟨c, digits, rfl, hc, -⟩ := IsBound.exists_cons hw
  obtain ⟨d, token, more, hm, ho, hd⟩ := (Tree.opens he).exists_cons
  obtain ⟨u, hu, -⟩ := (spells_cons_iff (isSpacing_of_bound hc)).1 hs
  rw [hm, spells_cons_iff hd] at hs'
  obtain ⟨v, hv, -⟩ := hs'
  obtain rfl : c = d := (List.cons.inj (hu.symm.trans hv)).1
  exact not_bound_of_opens ho hc

theorem bounds_unique {word word' : Text} (hw : IsBound word) (hw' : IsBound word')
    (hs : Spells [word] t rest) (hs' : Spells [word'] t rest') (hb : Before [',', '>'] rest)
    (hb' : Before [',', '>'] rest') : word = word' := by
  obtain ⟨c, digits, rfl, hc, hd⟩ := IsBound.exists_cons hw
  obtain ⟨c', digits', rfl, hc', hd'⟩ := IsBound.exists_cons hw'
  obtain ⟨u, hu, rfl⟩ := (spells_cons_iff (isSpacing_of_bound hc)).1 hs
  obtain ⟨u', hu', rfl⟩ := (spells_cons_iff (isSpacing_of_bound hc')).1 hs'
  have take := Text.takeWhile_append_of_head? hd (head?_of_before isDigit_of_isSpacing (by decide) hb)
  have take' := Text.takeWhile_append_of_head? hd' (head?_of_before isDigit_of_isSpacing (by decide) hb')
  obtain ⟨rfl, htail⟩ := List.cons.inj (hu.symm.trans hu')
  rw [← take, ← take', htail]

/-- Two lists of arguments at one place: their first ones, and the others at one place again. -/
theorem spells_arguments {a a' : ArgumentTree Tree} {as as' : List (ArgumentTree Tree)}
    (h : a.WellFormed IsBound) (h' : a'.WellFormed IsBound)
    (hs : Spells (argumentTokens (a :: as) ++ [['>']]) t rest)
    (hs' : Spells (argumentTokens (a' :: as') ++ [['>']]) t rest') :
    ∃ u u', Spells a.tokens t u ∧ Spells a'.tokens t u' ∧ Before [',', '>'] u ∧ Before [',', '>'] u' ∧
      (as = [] ∧ as' = [] ∨ as ≠ [] ∧ as' ≠ [] ∧ ∃ w, Spells (argumentTokens as ++ [['>']]) w rest ∧
        Spells (argumentTokens as' ++ [['>']]) w rest') := by
  have empty : ∀ {as : List (ArgumentTree Tree)}, (!as.isEmpty) = false → argumentTokens as = [] := by
    intro as hf
    rw [Bool.not_eq_false', List.isEmpty_iff] at hf
    rw [hf]
    rfl
  rw [argumentTokens_cons, List.append_assoc, List.append_assoc] at hs hs'
  obtain ⟨u, hu, hrest⟩ := Spells.append.1 hs
  obtain ⟨u', hu', hrest'⟩ := Spells.append.1 hs'
  obtain ⟨w, hw, hws⟩ := after_item (by decide) hrest empty
  obtain ⟨w', hw', hws'⟩ := after_item (by decide) hrest' empty
  have hb := before_item hw
  have hb' := before_item hw'
  obtain ⟨hflag, rfl⟩ := flags_unique (by decide) (ArgumentTree.rest_eq h h' hu hu' hb hb') hw hw'
  refine ⟨u, u', hu, hu', hb, hb', ?_⟩
  cases hf : !as.isEmpty with
  | true =>
    have hf' := hflag.symm.trans hf
    refine Or.inr ⟨by simpa using hf, by simpa using hf', w, hws hf, hws' hf'⟩
  | false =>
    have hf' := hflag.symm.trans hf
    exact Or.inl ⟨by simpa using hf, by simpa using hf'⟩

/-! ## Derivations -/

mutual

/-- Derivations of types at the start of one text are equal. -/
theorem Tree.unique : ∀ (e e' : Tree) {t rest rest' : Text}, e.WellFormed IsBound →
    e'.WellFormed IsBound → Spells e.tokens t rest → Spells e'.tokens t rest' → Before closers rest →
      Before closers rest' → e = e'
  | .nullable e, e', t, rest, rest', h, h', hs, hs', hb, hb' => by
    cases e' with
    | nullable e' =>
      obtain ⟨u, -, hs, hs'⟩ := spells_behind (by decide) hs hs'
      rw [Tree.unique e e' h h' hs hs' hb hb']
    | union s' ms' =>
      obtain ⟨u, hu, -⟩ := (spells_mark_iff (by decide)).1 hs
      obtain ⟨v, hv, -⟩ := Spells.append.1 hs'
      exact absurd hu (Suffixed.ne_question h'.1 hv u)
  | .union s ms, e', t, rest, rest', h, h', hs, hs', hb, hb' => by
    obtain ⟨u, hu, hms⟩ := Spells.append.1 hs
    cases e' with
    | nullable e' =>
      obtain ⟨v, hv, -⟩ := (spells_mark_iff (by decide)).1 hs'
      exact absurd hv (Suffixed.ne_question h.1 hu v)
    | union s' ms' =>
      obtain ⟨u', hu', hms'⟩ := Spells.append.1 hs'
      have hf := before_members hms hb
      have hf' := before_members hms' hb'
      obtain rfl := Suffixed.rest_eq h.1 h'.1 hu hu' hf hf'
      rw [Suffixed.unique s s' h.1 h'.1 hu hu' hf hf',
        members_unique ms ms' h.2 h'.2 hms hms' hb hb']

theorem members_unique : ∀ (ms ms' : List (Bool × Suffixed)) {t rest rest' : Text},
    MembersWellFormed IsBound ms → MembersWellFormed IsBound ms' → Spells (memberTokens ms) t rest →
      Spells (memberTokens ms') t rest' → Before closers rest → Before closers rest' → ms = ms'
  | [], ms', t, rest, rest', h, h', hs, hs', hb, hb' => by
    obtain rfl : t = rest := hs
    cases ms' with
    | nil => rfl
    | cons m' ms' =>
      obtain ⟨u, hu, -⟩ := (spells_mark_iff (by decide)).1 hs'
      exact absurd hu (hb.ne_cons (by decide) u)
  | (mark, s) :: ms, ms', t, rest, rest', h, h', hs, hs', hb, hb' => by
    cases ms' with
    | nil =>
      obtain rfl : t = rest' := hs'
      obtain ⟨u, hu, -⟩ := (spells_mark_iff (by decide)).1 hs
      exact absurd hu (hb'.ne_cons (by decide) u)
    | cons m' ms' =>
      obtain ⟨mark', s'⟩ := m'
      obtain ⟨u, -, hs, hs'⟩ := spells_behind (by decide) hs hs'
      obtain ⟨v, hv, hms⟩ := Spells.append.1 hs
      obtain ⟨v', hv', hms'⟩ := Spells.append.1 hs'
      have hf := before_members hms hb
      have hf' := before_members hms' hb'
      obtain ⟨rfl, w, hw, hw'⟩ := marks_unique h.1 h'.1 hv hv'
      obtain rfl := Suffixed.rest_eq h.1 h'.1 hw hw' hf hf'
      rw [Suffixed.unique s s' h.1 h'.1 hw hw' hf hf',
        members_unique ms ms' h.2 h'.2 hms hms' hb hb']

theorem Suffixed.unique : ∀ (s s' : Suffixed) {t rest rest' : Text}, s.WellFormed IsBound →
    s'.WellFormed IsBound → Spells s.tokens t rest → Spells s'.tokens t rest' →
      Before ('|' :: closers) rest → Before ('|' :: closers) rest' → s = s'
  | .mk a k, .mk a' k', t, rest, rest', h, h', hs, hs', hb, hb' => by
    obtain ⟨u, hu, hk⟩ := Spells.append.1 hs
    obtain ⟨u', hu', hk'⟩ := Spells.append.1 hs'
    have hf := before_brackets hk hb
    have hf' := before_brackets hk' hb'
    obtain rfl := Atom.rest_eq h h' hu hu' hf hf'
    rw [Atom.unique a a' h h' hu hu' hf hf', brackets_unique k hk hk' hb hb']

theorem Atom.unique : ∀ (a a' : Atom) {t rest rest' : Text}, a.WellFormed IsBound →
    a'.WellFormed IsBound → Spells a.tokens t rest → Spells a'.tokens t rest' →
      Before ('[' :: '|' :: closers) rest → Before ('[' :: '|' :: closers) rest' → a = a'
  | .name n, a', t, rest, rest', h, h', hs, hs', hb, hb' => by
    obtain ⟨u, u', same, -⟩ := Atom.lead_eq h h' hs hs' hb hb'
    cases a' with
    | name n' => rw [Lead.name.inj same]
    | record keyword' es' comma' => cases same
    | applied n' as' => cases same
    | parenthesized e' => cases same
  | .record keyword es comma, a', t, rest, rest', h, h', hs, hs', hb, hb' => by
    obtain ⟨u, u', same, hu, hu'⟩ := Atom.lead_eq h h' hs hs' hb hb'
    cases a' with
    | name n' => cases same
    | record keyword' es' comma' =>
      obtain ⟨rfl, rfl⟩ := Lead.record.inj same
      obtain ⟨rfl, hc⟩ := entries_unique es es' h.2.2 h'.2.2 hu hu'
      have hcomma : comma = comma' := by
        by_cases hes : es = []
        · rw [Bool.eq_false_iff.2 fun hc => h.2.1 hc hes, Bool.eq_false_iff.2 fun hc => h'.2.1 hc hes]
        · exact hc hes
      rw [hcomma]
    | applied n' as' => cases same
    | parenthesized e' => cases same
  | .applied n as, a', t, rest, rest', h, h', hs, hs', hb, hb' => by
    obtain ⟨u, u', same, hu, hu'⟩ := Atom.lead_eq h h' hs hs' hb hb'
    cases a' with
    | name n' => cases same
    | record keyword' es' comma' => cases same
    | applied n' as' =>
      obtain ⟨rfl, rfl⟩ := Lead.applied.inj same
      rw [arguments_unique as as' h.2.1 h'.2.1 h.2.2.2 h'.2.2.2 hu hu']
    | parenthesized e' => cases same
  | .parenthesized e, a', t, rest, rest', h, h', hs, hs', hb, hb' => by
    obtain ⟨u, u', same, hu, hu'⟩ := Atom.lead_eq h h' hs hs' hb hb'
    cases a' with
    | name n' => cases same
    | record keyword' es' comma' => cases same
    | applied n' as' => cases same
    | parenthesized e' =>
      obtain rfl := Lead.parenthesized.inj same
      obtain ⟨v, hv, hr⟩ := Spells.append.1 hu
      obtain ⟨v', hv', hr'⟩ := Spells.append.1 hu'
      have hf := Before.of_mark (by decide) hr (by decide : ')' ∈ closers)
      have hf' := Before.of_mark (by decide) hr' (by decide : ')' ∈ closers)
      rw [Tree.unique e e' h h' hv hv' hf hf']

theorem entries_unique : ∀ (es es' : List (EntryTree Tree)) {comma comma' : Bool}
    {t rest rest' : Text}, EntriesWellFormed IsBound es → EntriesWellFormed IsBound es' →
      Spells (entryTokens comma es ++ [['}']]) t rest →
      Spells (entryTokens comma' es' ++ [['}']]) t rest' → es = es' ∧ (es ≠ [] → comma = comma')
  | [], es', comma, comma', t, rest, rest', h, h', hs, hs' => by
    obtain ⟨u, hu, -⟩ := (spells_mark_iff (by decide)).1 hs
    cases es' with
    | nil => exact ⟨rfl, fun hne => absurd rfl hne⟩
    | cons f' es' =>
      obtain ⟨v, hv, -⟩ := spells_entry hs'
      exact absurd hu (ne_brace_of_entry h'.1 h'.2.1 hv u)
  | ⟨key, e⟩ :: es, es', comma, comma', t, rest, rest', h, h', hs, hs' => by
    cases es' with
    | nil =>
      obtain ⟨v, hv, -⟩ := spells_entry hs
      obtain ⟨u, hu, -⟩ := (spells_mark_iff (by decide)).1 hs'
      exact absurd hu (ne_brace_of_entry h.1 h.2.1 hv u)
    | cons f' es' =>
      obtain ⟨key', e'⟩ := f'
      obtain ⟨rfl, hflag, ⟨x, u, u', hx, hx', hc, hc'⟩, more⟩ := spells_entries h h' hs hs'
      obtain rfl := Tree.unique e e' h.2.1 h'.2.1 hx hx' hc hc'
      cases hf : comma || !es.isEmpty with
      | true =>
        obtain ⟨w, hw, hw'⟩ := more hf
        obtain ⟨rfl, hcomma⟩ := entries_unique es es' h.2.2 h'.2.2 hw hw'
        refine ⟨rfl, fun _ => ?_⟩
        by_cases hes : es = []
        · subst hes
          rwa [List.isEmpty_nil, Bool.not_true, Bool.or_false, Bool.or_false] at hflag
        · exact hcomma hes
      | false =>
        obtain ⟨rfl, rfl⟩ := entries_flag hf
        obtain ⟨rfl, rfl⟩ := entries_flag (hflag.symm.trans hf)
        exact ⟨rfl, fun _ => rfl⟩

theorem arguments_unique : ∀ (as as' : List (ArgumentTree Tree)) {t rest rest' : Text}, as ≠ [] →
    as' ≠ [] → ArgumentsWellFormed IsBound as → ArgumentsWellFormed IsBound as' →
      Spells (argumentTokens as ++ [['>']]) t rest → Spells (argumentTokens as' ++ [['>']]) t rest' →
        as = as'
  | [], as', t, rest, rest', hne, hne', h, h', hs, hs' => absurd rfl hne
  | .type e :: as, as', t, rest, rest', hne, hne', h, h', hs, hs' => by
    obtain ⟨a', as', rfl⟩ := List.exists_cons_of_ne_nil hne'
    obtain ⟨has', hm'⟩ := (argumentsWellFormed_cons a' as').1 h'
    obtain ⟨u, u', hu, hu', hb, hb', htail⟩ := spells_arguments (a := .type e) h.1 has' hs hs'
    have htails : as = as' := by
      rcases htail with ⟨rfl, rfl⟩ | ⟨hn, hn', w, hw, hw'⟩
      · rfl
      · exact arguments_unique as as' hn hn' h.2 hm' hw hw'
    cases a' with
    | type e' =>
      have hc : Before closers u := hb.mono (by decide)
      have hc' : Before closers u' := hb'.mono (by decide)
      rw [Tree.unique e e' h.1 has' hu hu' hc hc', htails]
    | bound word' => exact absurd hu (not_spells_type has' h.1 hu')
  | .bound word :: as, as', t, rest, rest', hne, hne', h, h', hs, hs' => by
    obtain ⟨a', as', rfl⟩ := List.exists_cons_of_ne_nil hne'
    obtain ⟨has', hm'⟩ := (argumentsWellFormed_cons a' as').1 h'
    obtain ⟨u, u', hu, hu', hb, hb', htail⟩ := spells_arguments (a := .bound word) h.1 has' hs hs'
    have htails : as = as' := by
      rcases htail with ⟨rfl, rfl⟩ | ⟨hn, hn', w, hw, hw'⟩
      · rfl
      · exact arguments_unique as as' hn hn' h.2 hm' hw hw'
    cases a' with
    | type e' => exact absurd hu' (not_spells_type h.1 has' hu)
    | bound word' => rw [bounds_unique h.1 has' hu hu' hb hb', htails]

end

/-- **The grammar is unambiguous.** -/
theorem Derives.unique {e e' : Tree} (h : Derives IsBound e t) (h' : Derives IsBound e' t) : e = e' := by
  obtain ⟨rest, hs, hr⟩ := h.spells
  obtain ⟨rest', hs', hr'⟩ := h'.spells
  have hb : Before closers rest := Before.of_blank (skipSpacing_eq_nil_iff.2 hr)
  have hb' : Before closers rest' := Before.of_blank (skipSpacing_eq_nil_iff.2 hr')
  exact Tree.unique e e' h.wellFormed h'.wellFormed hs hs' hb hb'

end DeclGen.TypeExpr
