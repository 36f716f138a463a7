import AutomataLab.Grammar.NormalForm
import AutomataLab.Proofs.Grammar.Language

/-!
# The conversion keeps the words

The conversion works on a list of productions and invents names as it goes. Two facts about this
work give both directions of `toNormalForm_derives_iff`.

Each name that it invents stands for a row of symbols of the given grammar: the rest of the body
that was split, or the terminal that was lifted. If the names are read so (`Sense`), every new
production either is a production of the given grammar or says what its head stands for
(`Explains`), so the new grammar spells nothing else. And each production of the given grammar can
be put together from new ones (`Simulates`), so the new grammar spells no less.

The readings of successive states extend each other (`Extends`). This is where it matters that the
names are new: what has been read once is read the same way for good.
-/

namespace AutomataLab.Grammar

/-- The grammar without its productions of the empty word. -/
def withoutEpsilon (g : Grammar) : Grammar :=
  { g with productions := g.productions.filter (!·.isEpsilon) }

theorem withoutEpsilon_valid {g : Grammar} (hv : g.Valid) : g.withoutEpsilon.Valid where
  start := hv.start
  disjoint := hv.disjoint
  head := fun p hp => hv.head p (List.mem_of_mem_filter hp)
  body := fun p hp => hv.body p (List.mem_of_mem_filter hp)

/-! ## Names that are not in use -/

theorem firstFree_spec {candidate : Nat → String} (hinj : Function.Injective candidate)
    (avoid : List String) (i : Nat) :
    i ≤ firstFree candidate avoid i ∧ candidate (firstFree candidate avoid i) ∉ avoid := by
  fun_induction firstFree candidate avoid i with
  | case1 avoid i _ ih =>
    obtain ⟨hle, hnot⟩ := ih
    -- the name that was struck off is not met again
    have hne : candidate (firstFree candidate (avoid.erase (candidate i)) (i + 1)) ≠ candidate i :=
      fun h => by have := hinj h; omega
    exact ⟨by omega, fun hmem => hnot ((List.mem_erase_of_ne hne).2 hmem)⟩
  | case2 avoid i h => exact ⟨Nat.le_refl i, h⟩

theorem restName_injective : Function.Injective restName := by
  intro i j h
  have hrepr : i.repr = j.repr := (String.append_right_inj "Y").1 h
  have hdigits := congrArg (fun s => Nat.ofDigitChars 10 s.toList 0) hrepr
  simpa [Nat.repr_eq_ofList_toDigits, Nat.ofDigitChars_ten_toDigits] using hdigits

theorem liftedName_injective (a : String) : Function.Injective (liftedName a) := by
  intro i j h
  have hlen := congrArg String.length h
  simpa [liftedName] using hlen

/-! ## What the names stand for -/

/-- What each name stands for: a row of symbols of the grammar that is converted. -/
abbrev Sense := String → List String

/-- A later state of the conversion. There are more non-terminals, all of them new; a name that was
known stands for what it stood for. -/
structure Extends (g : Grammar) (names : List String) (sense : Sense) (names' : List String)
    (sense' : Sense) : Prop where
  /-- The new non-terminals come last, and were neither terminals nor non-terminals. -/
  added : ∃ new, names' = names ++ new ∧ new.Nodup ∧ ∀ s ∈ new, s ∉ g.terminals ++ names
  /-- What was known is read as before. -/
  agrees : ∀ s ∈ g.terminals ++ names, sense' s = sense s

/-- A production of the new grammar, read symbol by symbol, is a production of the given one or
says what its head stands for. -/
structure Explains (g : Grammar) (names : List String) (sense : Sense) (p : Production) :
    Prop where
  /-- It replaces a non-terminal of the state. -/
  head : p.head ∈ names
  /-- It replaces it by names of the state. -/
  body : ∀ s ∈ p.body, s ∈ g.terminals ++ names
  /-- With a declared head it is read as a production of the given grammar. -/
  old : p.head ∈ g.nonterminals →
    ⟨p.head, p.body.flatMap sense⟩ ∈ g.withoutEpsilon.productions
  /-- An invented head stands for what the body is read as. -/
  new : p.head ∉ g.nonterminals → p.body.flatMap sense = sense p.head

section

variable {g : Grammar} {names names' names'' : List String} {sense sense' sense'' : Sense}

theorem Extends.refl : Extends g names sense names sense :=
  ⟨⟨[], (List.append_nil names).symm, List.nodup_nil, by simp⟩, fun _ _ => rfl⟩

theorem Extends.mem (h : Extends g names sense names' sense') {s : String} (hs : s ∈ names) :
    s ∈ names' := by
  obtain ⟨new, rfl, -, -⟩ := h.added
  exact List.mem_append_left new hs

theorem Extends.known (h : Extends g names sense names' sense') {s : String}
    (hs : s ∈ g.terminals ++ names) : s ∈ g.terminals ++ names' :=
  (List.mem_append.1 hs).elim (List.mem_append_left _) fun hs =>
    List.mem_append_right _ (h.mem hs)

theorem Extends.trans (h : Extends g names sense names' sense')
    (h' : Extends g names' sense' names'' sense'') : Extends g names sense names'' sense'' where
  added := by
    obtain ⟨new, rfl, hnodup, hfresh⟩ := h.added
    obtain ⟨new', rfl, hnodup', hfresh'⟩ := h'.added
    refine ⟨new ++ new', List.append_assoc names new new', ?_, ?_⟩
    · -- later names avoid the earlier ones, as these are non-terminals by then
      refine List.nodup_append.2 ⟨hnodup, hnodup', fun s hs t ht hst => hfresh' t ht ?_⟩
      subst hst
      simp [hs]
    · intro s hs hknown
      rcases List.mem_append.1 hs with hs | hs
      · exact hfresh s hs hknown
      · exact hfresh' s hs (h.known hknown)
  agrees := fun s hs => (h'.agrees s (h.known hs)).trans (h.agrees s hs)

theorem Extends.flatMap_eq (h : Extends g names sense names' sense') {body : List String}
    (hbody : ∀ s ∈ body, s ∈ g.terminals ++ names) : body.flatMap sense' = body.flatMap sense :=
  List.flatMap_congr fun s hs => h.agrees s (hbody s hs)

/-- What was explained stays explained. -/
theorem Explains.extend {p : Production} (hp : Explains g names sense p)
    (h : Extends g names sense names' sense') : Explains g names' sense' p where
  head := h.mem hp.head
  body := fun s hs => h.known (hp.body s hs)
  old := fun hhead => by
    rw [h.flatMap_eq hp.body]
    exact hp.old hhead
  new := fun hhead => by
    rw [h.flatMap_eq hp.body, h.agrees _ (List.mem_append_right _ hp.head)]
    exact hp.new hhead

/-- Symbols of a body may be replaced by others that stand for the same. -/
theorem Explains.replace {head : String} {body : List String}
    (hp : Explains g names sense ⟨head, body⟩) (body' : List String)
    (hbody' : ∀ s ∈ body', s ∈ g.terminals ++ names)
    (heq : body'.flatMap sense = body.flatMap sense) : Explains g names sense ⟨head, body'⟩ where
  head := hp.head
  body := hbody'
  old := fun hhead => by
    rw [heq]
    exact hp.old hhead
  new := fun hhead => heq.trans (hp.new hhead)

/-- A new name can be given the sense of a row of known ones, by a production for it. -/
theorem exists_define (sense : Sense) (hold : ∀ s ∈ g.nonterminals, s ∈ names) {y : String}
    (hy : y ∉ g.terminals ++ names) {body : List String}
    (hbody : ∀ s ∈ body, s ∈ g.terminals ++ names) :
    ∃ sense', Extends g names sense (names ++ [y]) sense' ∧ sense' y = body.flatMap sense
      ∧ Explains g (names ++ [y]) sense' ⟨y, body⟩ := by
  have hself := Function.update_self y (body.flatMap sense) sense
  have hext : Extends g names sense (names ++ [y])
      (Function.update sense y (body.flatMap sense)) :=
    { added := ⟨[y], rfl, List.nodup_singleton y, fun _ hs => List.mem_singleton.1 hs ▸ hy⟩
      agrees := fun _ hs => Function.update_of_ne (ne_of_mem_of_not_mem hs hy) _ sense }
  refine ⟨_, hext, hself, ?_⟩
  exact
    { head := List.mem_append_right _ (List.mem_singleton_self y)
      body := fun s hs => hext.known (hbody s hs)
      old := fun hhead => absurd (List.mem_append_right _ (hold y hhead)) hy
      new := fun _ => (hext.flatMap_eq hbody).trans hself.symm }

/-! ## Every new production is explained -/

theorem splitBody_explains {st : Splitting} {head : String} {body : List String}
    (hold : ∀ s ∈ g.nonterminals, s ∈ st.nonterminals)
    (hp : Explains g st.nonterminals sense ⟨head, body⟩) :
    ∃ sense', Extends g st.nonterminals sense (splitBody g st head body).1.nonterminals sense'
      ∧ ∀ p ∈ (splitBody g st head body).2,
        Explains g (splitBody g st head body).1.nonterminals sense' p := by
  fun_induction splitBody g st head body generalizing sense
  case case1 st head a b c rest i y r ih =>
    -- the name for the rest of the body is the first one that is free
    have hy : y ∉ g.terminals ++ st.nonterminals :=
      (firstFree_spec restName_injective (g.terminals ++ st.nonterminals) st.next).2
    have hbody : ∀ s ∈ b :: c :: rest, s ∈ g.terminals ++ st.nonterminals :=
      fun s hs => hp.body s (List.mem_cons_of_mem a hs)
    obtain ⟨sense₁, hext₁, hsense, hrest⟩ := exists_define sense hold hy hbody
    obtain ⟨sense₂, hext₂, hall⟩ := ih (fun s hs => List.mem_append_left [y] (hold s hs)) hrest
    refine ⟨sense₂, hext₁.trans hext₂, List.forall_mem_cons.2 ⟨?_, hall⟩⟩
    -- the pair of the first symbol and the new name reads like the body that it replaces
    refine ((hp.extend hext₁).replace [a, y] ?_ ?_).extend hext₂
    · intro s hs
      rcases List.mem_pair.1 hs with rfl | rfl
      · exact hext₁.known (hp.body s List.mem_cons_self)
      · exact List.mem_append_right _ (List.mem_append_right _ (List.mem_singleton_self _))
    · rw [List.flatMap_cons, List.flatMap_singleton, hsense, ← hext₁.flatMap_eq hbody]
      rfl
  case case2 st head body _ => exact ⟨sense, .refl, by simpa using hp⟩

theorem splitAll_explains (st : Splitting) {productions : List Production}
    (hold : ∀ s ∈ g.nonterminals, s ∈ st.nonterminals)
    (hall : ∀ p ∈ productions, Explains g st.nonterminals sense p) :
    ∃ sense', Extends g st.nonterminals sense (splitAll g st productions).1.nonterminals sense'
      ∧ ∀ p ∈ (splitAll g st productions).2,
        Explains g (splitAll g st productions).1.nonterminals sense' p := by
  induction productions generalizing st sense with
  | nil => exact ⟨sense, .refl, hall⟩
  | cons p rest ih =>
    obtain ⟨hp, hrest⟩ := List.forall_mem_cons.1 hall
    -- the first production is split in this state, the others in the state after that
    obtain ⟨sense₁, hext₁, hall₁⟩ := splitBody_explains hold hp
    obtain ⟨sense₂, hext₂, hall₂⟩ := ih (splitBody g st p.head p.body).1
      (fun s hs => hext₁.mem (hold s hs)) fun q hq => (hrest q hq).extend hext₁
    exact ⟨sense₂, hext₁.trans hext₂,
      List.forall_mem_append.2 ⟨fun q hq => (hall₁ q hq).extend hext₂, hall₂⟩⟩

theorem mem_of_lookup {lifted : List (String × String)} {s name : String}
    (h : lifted.lookup s = some name) : (s, name) ∈ lifted := by
  obtain ⟨before, after, rfl, -⟩ := List.lookup_eq_some_iff.1 h
  exact List.mem_append_right before List.mem_cons_self

/-- The terminals stand for themselves, and the names that they were given stand for them. -/
structure Lifts (g : Grammar) (st : Lifting) (sense : Sense) : Prop where
  /-- The declared non-terminals are still there. -/
  old : ∀ s ∈ g.nonterminals, s ∈ st.nonterminals
  /-- A terminal stands for itself. -/
  terminal : ∀ a ∈ g.terminals, sense a = [a]
  /-- A name in the list is a non-terminal, and stands for its terminal. -/
  lifted : ∀ x ∈ st.lifted, x.2 ∈ st.nonterminals ∧ sense x.2 = [x.1]

theorem liftSymbol_explains {st : Lifting} {s : String} (hst : Lifts g st sense)
    (hs : s ∈ g.terminals ++ st.nonterminals) :
    ∃ sense', Extends g st.nonterminals sense (liftSymbol g st s).1.nonterminals sense'
      ∧ Lifts g (liftSymbol g st s).1 sense'
      ∧ (liftSymbol g st s).2.1 ∈ (liftSymbol g st s).1.nonterminals
      ∧ sense' (liftSymbol g st s).2.1 = sense s
      ∧ ∀ p ∈ (liftSymbol g st s).2.2,
        Explains g (liftSymbol g st s).1.nonterminals sense' p := by
  fun_cases liftSymbol g st s
  case case1 hterm name hlookup =>
    -- the terminal was lifted before
    obtain ⟨hname, hsense⟩ := hst.lifted _ (mem_of_lookup hlookup)
    have hself := hst.terminal s (by simpa [isTerminal] using hterm)
    exact ⟨sense, .refl, hst, hname, hsense.trans hself.symm, by simp⟩
  case case2 hterm hlookup name =>
    -- a terminal that comes up for the first time: its name is new
    have hs' : s ∈ g.terminals := by simpa [isTerminal] using hterm
    have hname : name ∉ g.terminals ++ st.nonterminals :=
      (firstFree_spec (liftedName_injective s) (g.terminals ++ st.nonterminals) 0).2
    obtain ⟨sense', hext, hsense, hp⟩ :=
      exists_define sense hst.old hname (List.forall_mem_singleton.2 hs)
    rw [List.flatMap_singleton] at hsense
    refine ⟨sense', hext, ?_, hp.head, hsense, List.forall_mem_singleton.2 hp⟩
    have hlifted : ∀ x ∈ st.lifted, x.2 ∈ st.nonterminals ++ [name] ∧ sense' x.2 = [x.1] := by
      intro x hx
      obtain ⟨hmem, heq⟩ := hst.lifted x hx
      exact ⟨hext.mem hmem, (hext.agrees x.2 (List.mem_append_right _ hmem)).trans heq⟩
    exact
      { old := fun t ht => hext.mem (hst.old t ht)
        terminal := fun a ha =>
          (hext.agrees a (List.mem_append_left _ ha)).trans (hst.terminal a ha)
        lifted := List.forall_mem_cons.2
          ⟨⟨hp.head, hsense.trans (hst.terminal s hs')⟩, hlifted⟩ }
  case case3 hterm =>
    have hnot : s ∉ g.terminals := by simpa [isTerminal] using hterm
    have hs' : s ∈ st.nonterminals := (List.mem_append.1 hs).resolve_left hnot
    exact ⟨sense, .refl, hst, hs', rfl, by simp⟩

theorem liftProduction_explains {st : Lifting} {p : Production} (hst : Lifts g st sense)
    (hp : Explains g st.nonterminals sense p) :
    ∃ sense', Extends g st.nonterminals sense (liftProduction g st p).1.nonterminals sense'
      ∧ Lifts g (liftProduction g st p).1 sense'
      ∧ ∀ q ∈ (liftProduction g st p).2,
        Explains g (liftProduction g st p).1.nonterminals sense' q := by
  fun_cases liftProduction g st p
  case case1 a b hbody ra rb =>
    have hp' : Explains g st.nonterminals sense ⟨p.head, [a, b]⟩ := hbody ▸ hp
    have ha := hp'.body a (by simp)
    have hb := hp'.body b (by simp)
    obtain ⟨sense₁, hext₁, hst₁, hmem₁, heq₁, hall₁⟩ := liftSymbol_explains hst ha
    obtain ⟨sense₂, hext₂, hst₂, hmem₂, heq₂, hall₂⟩ :=
      liftSymbol_explains hst₁ (hext₁.known hb)
    have hext := hext₁.trans hext₂
    have hlifts := List.forall_mem_append.2 ⟨fun q hq => (hall₁ q hq).extend hext₂, hall₂⟩
    refine ⟨sense₂, hext, hst₂,
      List.forall_mem_append.2 ⟨hlifts, List.forall_mem_singleton.2 ?_⟩⟩
    -- the second symbol may have added a name, but the first one is read as before
    have hra : sense₂ ra.2.1 = sense₂ a := by
      rw [hext₂.agrees _ (List.mem_append_right _ hmem₁), heq₁, hext.agrees a ha]
    have hrb : sense₂ rb.2.1 = sense₂ b := by
      rw [heq₂, hext₁.agrees b hb, hext.agrees b hb]
    refine (hp'.extend hext).replace _ ?_ ?_
    · intro s hs
      rcases List.mem_pair.1 hs with rfl | rfl
      · exact List.mem_append_right _ (hext₂.mem hmem₁)
      · exact List.mem_append_right _ hmem₂
    · simp only [List.flatMap_cons, hra, hrb]
  case case2 _ => exact ⟨sense, .refl, hst, List.forall_mem_singleton.2 hp⟩

theorem liftAll_explains {st : Lifting} {productions : List Production} (hst : Lifts g st sense)
    (hall : ∀ p ∈ productions, Explains g st.nonterminals sense p) :
    ∃ sense', Extends g st.nonterminals sense (liftAll g st productions).1.nonterminals sense'
      ∧ ∀ p ∈ (liftAll g st productions).2,
        Explains g (liftAll g st productions).1.nonterminals sense' p := by
  induction productions generalizing st sense with
  | nil => exact ⟨sense, .refl, hall⟩
  | cons p rest ih =>
    obtain ⟨hp, hrest⟩ := List.forall_mem_cons.1 hall
    obtain ⟨sense₁, hext₁, hst₁, hall₁⟩ := liftProduction_explains hst hp
    obtain ⟨sense₂, hext₂, hall₂⟩ := ih hst₁ fun q hq => (hrest q hq).extend hext₁
    exact ⟨sense₂, hext₁.trans hext₂,
      List.forall_mem_append.2 ⟨fun q hq => (hall₁ q hq).extend hext₂, hall₂⟩⟩

end

/-- **Every production of the converted grammar is explained.** -/
theorem toNormalForm_explains {g : Grammar} (hv : g.Valid) :
    ∃ sense, Extends g g.nonterminals (fun s => [s]) g.toNormalForm.nonterminals sense
      ∧ ∀ p ∈ g.toNormalForm.productions, Explains g g.toNormalForm.nonterminals sense p := by
  -- to begin with every name stands for itself
  have hsource : ∀ p ∈ g.withoutEpsilon.productions,
      Explains g g.nonterminals (fun s => [s]) p := by
    intro p hp
    have hv' := withoutEpsilon_valid hv
    exact
      { head := hv'.head p hp
        body := fun s hs => List.mem_append.2 (hv'.body p hp s hs).symm
        old := fun _ => by rwa [List.flatMap_singleton']
        new := fun hhead => absurd (hv'.head p hp) hhead }
  obtain ⟨sense₁, hext₁, hall₁⟩ :=
    splitAll_explains ⟨g.nonterminals, 1⟩ (fun _ hs => hs) hsource
  have hlifts : Lifts g ⟨_, []⟩ sense₁ :=
    { old := fun s hs => hext₁.mem hs
      terminal := fun a ha => hext₁.agrees a (List.mem_append_left _ ha)
      lifted := fun x hx => absurd hx List.not_mem_nil }
  obtain ⟨sense₂, hext₂, hall₂⟩ := liftAll_explains hlifts hall₁
  exact ⟨sense₂, hext₁.trans hext₂, hall₂⟩

/-- The conversion of a valid grammar is valid. -/
theorem toNormalForm_valid {g : Grammar} (hv : g.Valid) : g.toNormalForm.Valid := by
  obtain ⟨sense, hext, hall⟩ := toNormalForm_explains hv
  -- no invented name is that of a terminal
  have hdisjoint : ∀ a ∈ g.terminals, a ∉ g.toNormalForm.nonterminals := by
    intro a ha hmem
    obtain ⟨new, heq, -, hfresh⟩ := hext.added
    rw [heq] at hmem
    rcases List.mem_append.1 hmem with hmem | hmem
    · exact hv.disjoint a ha hmem
    · exact hfresh a hmem (List.mem_append_left _ ha)
  exact
    { start := hext.mem hv.start
      disjoint := hdisjoint
      head := fun p hp => (hall p hp).head
      body := fun p hp s hs => (List.mem_append.1 ((hall p hp).body s hs)).symm }

/-- What is spelled with the new productions is spelled without them, by what it stands for. -/
theorem spells_of_explained {g g' : Grammar} {sense : Sense} (hv : g.Valid)
    (hext : Extends g g.nonterminals (fun s => [s]) g'.nonterminals sense)
    (hall : ∀ p ∈ g'.productions, Explains g g'.nonterminals sense p) {body w : List String}
    (hbody : ∀ s ∈ body, s ∈ g.terminals ++ g'.nonterminals) (h : g'.Spells body w) :
    g.withoutEpsilon.Spells (body.flatMap sense) w := by
  induction h with
  | nil => exact .nil
  | @terminal a body w ha _ ih =>
    obtain ⟨ha', hbody⟩ := List.forall_mem_cons.1 hbody
    have hterm : a ∈ g.terminals := (List.mem_append.1 ha').resolve_right ha
    rw [List.flatMap_cons, hext.agrees a (List.mem_append_left _ hterm)]
    exact .terminal (hv.disjoint a hterm) (ih hbody)
  | @nonterminal p body u w hp _ _ _ ih₁ ih₂ =>
    have hexp := hall p hp
    rw [List.flatMap_cons]
    refine spells_append ?_ (ih₂ (List.forall_mem_cons.1 hbody).2)
    have hu := ih₁ hexp.body
    -- a production of an invented head leaves no trace: the head already reads like its body
    by_cases hhead : p.head ∈ g.nonterminals
    · rw [hext.agrees _ (List.mem_append_right _ hhead)]
      exact (spells_nonterminal_iff (g := g.withoutEpsilon) hhead).2 ⟨_, hexp.old hhead, rfl, hu⟩
    · rwa [← hexp.new hhead]

/-! ## Every given production is put together from new ones -/

/-- What the body of a production spells its head does too. -/
def Simulates (g : Grammar) (p : Production) : Prop :=
  ∀ w, g.Spells p.body w → g.Spells [p.head] w

theorem simulates_of_mem {g : Grammar} {p : Production} (hp : p ∈ g.productions)
    (hhead : p.head ∈ g.nonterminals) : Simulates g p :=
  fun _ hw => (spells_nonterminal_iff hhead).2 ⟨p, hp, rfl, hw⟩

section

variable {g g' : Grammar}

theorem splitBody_simulates {st : Splitting} {head : String} {body : List String}
    (hall : ∀ p ∈ (splitBody g st head body).2, Simulates g' p) :
    Simulates g' ⟨head, body⟩ := by
  fun_induction splitBody g st head body
  case case1 st head a b c rest i y r ih =>
    obtain ⟨hpair, hrest⟩ := List.forall_mem_cons.1 hall
    intro w hw
    -- the first symbol spells the one part, and the new name will spell the other
    obtain ⟨u, v, rfl, hu, hv⟩ := (spells_append_iff (x := [a])).1 hw
    exact hpair _ (spells_pair_iff.2 ⟨u, v, rfl, hu, ih hrest v hv⟩)
  case case2 st head body _ => exact hall _ (List.mem_singleton_self _)

theorem splitAll_simulates {st : Splitting} {productions : List Production}
    (hall : ∀ p ∈ (splitAll g st productions).2, Simulates g' p) :
    ∀ p ∈ productions, Simulates g' p := by
  induction productions generalizing st with
  | nil => exact fun p hp => absurd hp List.not_mem_nil
  | cons p rest ih =>
    obtain ⟨hp, hrest⟩ := List.forall_mem_append.1 hall
    exact List.forall_mem_cons.2 ⟨splitBody_simulates hp, ih hrest⟩

/-- The names given to terminals so far are put to use. -/
def SimulatesLifted (g : Grammar) (st : Lifting) : Prop :=
  ∀ x ∈ st.lifted, Simulates g ⟨x.2, [x.1]⟩

theorem liftSymbol_simulates {st : Lifting} {s : String} (hst : SimulatesLifted g' st)
    (hall : ∀ p ∈ (liftSymbol g st s).2.2, Simulates g' p) :
    SimulatesLifted g' (liftSymbol g st s).1
      ∧ ∀ w, g'.Spells [s] w → g'.Spells [(liftSymbol g st s).2.1] w := by
  revert hall
  fun_cases liftSymbol g st s <;> intro hall
  -- the name was given before, with a production that is still there
  case case1 hterm name hlookup => exact ⟨hst, hst _ (mem_of_lookup hlookup)⟩
  case case2 hterm hlookup name =>
    have hname := List.forall_mem_singleton.1 hall
    exact ⟨List.forall_mem_cons.2 ⟨hname, hst⟩, hname⟩
  case case3 hterm => exact ⟨hst, fun _ hw => hw⟩

theorem liftProduction_simulates {st : Lifting} {p : Production} (hst : SimulatesLifted g' st)
    (hall : ∀ q ∈ (liftProduction g st p).2, Simulates g' q) :
    SimulatesLifted g' (liftProduction g st p).1 ∧ Simulates g' p := by
  revert hall
  fun_cases liftProduction g st p <;> intro hall
  case case1 a b hbody ra rb =>
    obtain ⟨hab, hp⟩ := List.forall_mem_append.1 hall
    obtain ⟨ha, hb⟩ := List.forall_mem_append.1 hab
    obtain ⟨hst₁, hra⟩ := liftSymbol_simulates hst ha
    obtain ⟨hst₂, hrb⟩ := liftSymbol_simulates hst₁ hb
    refine ⟨hst₂, fun w hw => ?_⟩
    rw [hbody] at hw
    -- each symbol may be given its name without a change of the part that it spells
    obtain ⟨u, v, rfl, hu, hv⟩ := spells_pair_iff.1 hw
    exact List.forall_mem_singleton.1 hp _ (spells_pair_iff.2 ⟨u, v, rfl, hra u hu, hrb v hv⟩)
  case case2 _ => exact ⟨hst, List.forall_mem_singleton.1 hall⟩

theorem liftAll_simulates {st : Lifting} {productions : List Production}
    (hst : SimulatesLifted g' st) (hall : ∀ p ∈ (liftAll g st productions).2, Simulates g' p) :
    ∀ p ∈ productions, Simulates g' p := by
  induction productions generalizing st with
  | nil => exact fun p hp => absurd hp List.not_mem_nil
  | cons p rest ih =>
    obtain ⟨hp, hrest⟩ := List.forall_mem_append.1 hall
    obtain ⟨hst', hp'⟩ := liftProduction_simulates hst hp
    exact List.forall_mem_cons.2 ⟨hp', ih hst' hrest⟩

end

theorem toNormalForm_simulates {g : Grammar}
    (hhead : ∀ p ∈ g.toNormalForm.productions, p.head ∈ g.toNormalForm.nonterminals) :
    ∀ p ∈ g.withoutEpsilon.productions, Simulates g.toNormalForm p := by
  have hall : ∀ p ∈ g.toNormalForm.productions, Simulates g.toNormalForm p :=
    fun p hp => simulates_of_mem hp (hhead p hp)
  exact splitAll_simulates (liftAll_simulates (fun x hx => absurd hx List.not_mem_nil) hall)

/-- What is spelled with the given productions is spelled with the new ones. -/
theorem spells_of_simulated {g g' : Grammar} (hv : g.Valid)
    (hterm : ∀ a ∈ g.terminals, a ∉ g'.nonterminals)
    (hall : ∀ p ∈ g.productions, Simulates g' p) {body w : List String}
    (hbody : ∀ s ∈ body, s ∈ g.nonterminals ∨ s ∈ g.terminals) (h : g.Spells body w) :
    g'.Spells body w := by
  induction h with
  | nil => exact .nil
  | @terminal a body w ha _ ih =>
    obtain ⟨ha', hbody⟩ := List.forall_mem_cons.1 hbody
    exact .terminal (hterm a (ha'.resolve_left ha)) (ih hbody)
  | @nonterminal p body u w hp _ _ _ ih₁ ih₂ =>
    have hu := hall p hp u (ih₁ (hv.body p hp))
    exact spells_append hu (ih₂ (List.forall_mem_cons.1 hbody).2)

/-- **The conversion keeps the words.** -/
theorem toNormalForm_derives_iff {g : Grammar} (hv : g.Valid) {A : String}
    (hA : A ∈ g.nonterminals) (w : List String) :
    g.toNormalForm.Derives A w ↔ g.withoutEpsilon.Derives A w := by
  obtain ⟨sense, hext, hall⟩ := toNormalForm_explains hv
  have hA' : A ∈ g.toNormalForm.nonterminals := hext.mem hA
  have hv' := toNormalForm_valid hv
  rw [derives_iff_spells hA', derives_iff_spells (g := g.withoutEpsilon) hA]
  constructor
  · intro h
    -- the names of the given grammar stand for themselves
    have h' := spells_of_explained hv hext hall
      (List.forall_mem_singleton.2 (List.mem_append_right _ hA')) h
    rwa [List.flatMap_singleton, hext.agrees A (List.mem_append_right _ hA)] at h'
  · exact spells_of_simulated (withoutEpsilon_valid hv) hv'.disjoint
      (toNormalForm_simulates hv'.head)
      (List.forall_mem_singleton.2 (Or.inl hA))

theorem withoutEpsilon_eq_self {g : Grammar} (h : ∀ p ∈ g.productions, p.isEpsilon = false) :
    g.withoutEpsilon = g := by
  have hfilter : g.productions.filter (!·.isEpsilon) = g.productions :=
    List.filter_eq_self.2 fun p hp => by rw [h p hp]; rfl
  rw [withoutEpsilon, hfilter]

/--
**The conversion keeps the words of a valid grammar, except for productions of the empty word.**

Each non-terminal of the grammar derives the same rows of terminals after the conversion as before,
once the productions of the empty word are left out. A grammar without such productions therefore
keeps its language.
-/
theorem toNormalForm_exact {g : Grammar} (hv : g.validate = .ok ()) :
    (∀ A ∈ g.nonterminals, ∀ w, g.toNormalForm.Derives A w ↔ g.withoutEpsilon.Derives A w)
      ∧ ((∀ p ∈ g.productions, p.isEpsilon = false) →
        g.toNormalForm.contextFree.language = g.contextFree.language) := by
  have hvalid := valid_of_validate hv
  refine ⟨fun A hA w => toNormalForm_derives_iff hvalid hA w, fun hnone => ?_⟩
  ext w
  have h := toNormalForm_derives_iff hvalid hvalid.start w
  rwa [withoutEpsilon_eq_self hnone] at h

/-- Names that look invented, unit productions in a circle and a production given twice. -/
def crowded : Grammar where
  nonterminals := ["S", "Y1", "T_a"]
  terminals := ["a", "b", "T_a'"]
  productions := [⟨"S", ["a", "S", "b", "T_a'"]⟩, ⟨"S", ["Y1"]⟩, ⟨"Y1", ["S"]⟩, ⟨"Y1", ["a", "b"]⟩,
    ⟨"Y1", ["a", "b"]⟩, ⟨"T_a", ["T_a"]⟩]
  start := "S"

theorem crowded_toNormalForm_exact :
    crowded.validate = .ok () ∧ (∀ p ∈ crowded.productions, p.isEpsilon = false)
      ∧ crowded.toNormalForm.nonterminals = ["S", "Y1", "T_a", "Y2", "Y3", "T_a''", "T_b", "T_T_a'"]
      ∧ (∀ w, crowded.toNormalForm.Derives "T_a" w ↔ crowded.withoutEpsilon.Derives "T_a" w)
      ∧ crowded.toNormalForm.contextFree.language = crowded.contextFree.language := by
  have hv : crowded.validate = .ok () := rfl
  have hnone : ∀ p ∈ crowded.productions, p.isEpsilon = false := by decide
  obtain ⟨hderives, hlanguage⟩ := toNormalForm_exact hv
  exact ⟨hv, hnone, by decide +kernel, hderives "T_a" (by decide), hlanguage hnone⟩

end AutomataLab.Grammar
