import AutomataLab.Proofs.Automaton.Removal
import AutomataLab.Proofs.Automaton.Saving

/-!
# Growing and shrinking without harm

A state that is declared is not reached from the others, and a symbol that is declared or forgotten
does not matter to a word without it. A state that no word leads to can be forgotten. In each of
these cases the automaton before and the automaton after coincide on the configurations that come up
and on the characters in question; so words are read alike, and where a forgotten symbol comes in a
word, reading stops there unless it has stopped before.

What was declared last can be forgotten again. That leaves the table as it was, to the last key: the
rows and entries that were made for it go with it, and no others were touched.
-/

namespace AutomataLab

/-! ## Deterministic automata -/

namespace DFA

section

variable {d d' : DFA} {q s : String} {c a : Char}

theorem tellsStops (d : DFA) : Acceptor.TellsStops d where
  advance := by
    intro q c outcome h
    simp only [Acceptor.advance] at h
    split at h
    · exact absurd h (by simp)
    · obtain rfl := Except.error.inj h
      trivial
    · obtain rfl := Except.error.inj h
      trivial
  verdict := by
    intro q
    change ¬(if d.isAccepting q then Outcome.accepted else .endedInRejectingState q).IsStop
    split <;> exact id

/-- Automata coincide on states that they leave alike and in which they accept alike. -/
theorem coincide_of_target? {P : String → Prop} {K : Char → Prop}
    (hinitial : d'.initial = d.initial)
    (haccepting : ∀ q, P q → d'.isAccepting q = d.isAccepting q)
    (halphabet : ∀ c, K c → (c ∈ d'.alphabet ↔ c ∈ d.alphabet))
    (htarget : ∀ q c, P q → K c → c ∈ d.alphabet → d'.target? q c = d.target? q c)
    (hstart : P d.initial)
    (hstays : ∀ q c r, P q → c ∈ d.alphabet → d.target? q c = some r → P r) :
    Acceptor.Coincide d d' P K where
  initial := hinitial
  initialEpsilonReached := rfl
  start := hstart
  advance := fun q c hq hc => advance_congr (halphabet c hc) (htarget q c hq hc)
  stays := fun q c move hq _ hmove => by
    by_cases hmem : c ∈ d.alphabet
    · cases hr : d.target? q c with
      -- a configuration without a move stops reading, so it leads nowhere
      | none => exact absurd (hmove.symm.trans (advance_of_stuck hmem hr)) (by simp)
      | some r =>
        rw [advance_of_target? hmem hr] at hmove
        obtain rfl := Except.ok.inj hmove
        exact hstays q c r hq hmem hr
    · exact absurd (hmove.symm.trans (advance_of_notMem hmem)) (by simp)
  verdict := fun q hq => by
    change (if d'.isAccepting q then Outcome.accepted else .endedInRejectingState q)
      = if d.isAccepting q then Outcome.accepted else .endedInRejectingState q
    rw [haccepting q hq]

theorem coincide_addState (h : d.WellFormed) (he : d.addState s = .ok d') :
    Acceptor.Coincide d d' (· ∈ d.states) fun _ => True := by
  -- the moves of the new state do not matter, as no move leads to it
  have htarget := fun q c (hq : q ∈ d.states) (_ : True) (_ : c ∈ d.alphabet) =>
    target?_addState (c := c) h he hq
  obtain ⟨g, hg, rfl⟩ := bind_pure_eq_ok_iff.1 he
  obtain ⟨-, rfl⟩ := Signature.addState_eq_ok_iff.1 hg
  exact coincide_of_target? rfl (fun _ _ => rfl) (fun _ _ => Iff.rfl) htarget h.initial
    fun q c r _ _ hr => (h.of_target? hr).2.2

theorem coincide_addSymbol (h : d.WellFormed) (he : d.addSymbol a = .ok d') :
    Acceptor.Coincide d d' (fun _ => True) (· ≠ a) := by
  have htarget := fun q c (_ : True) (hc : c ≠ a) (_ : c ∈ d.alphabet) =>
    target?_addSymbol (p := q) h he hc
  obtain ⟨g, hg, rfl⟩ := bind_pure_eq_ok_iff.1 he
  obtain ⟨-, rfl⟩ := Signature.addSymbol_eq_ok_iff.1 hg
  exact coincide_of_target? rfl (fun _ _ => rfl) (fun c hc => by simp [hc]) htarget trivial
    fun _ _ _ _ _ _ => trivial

theorem coincide_removeSymbol (he : d.removeSymbol a = .ok d') :
    Acceptor.Coincide d d' (fun _ => True) (· ≠ a) := by
  have htarget := fun q c (_ : True) (hc : c ≠ a) (_ : c ∈ d.alphabet) =>
    (target?_removeSymbol (p := q) he).trans (if_neg hc)
  obtain ⟨g, hg, rfl⟩ := bind_pure_eq_ok_iff.1 he
  obtain ⟨-, rfl⟩ := Signature.removeSymbol_eq_ok_iff.1 hg
  exact coincide_of_target? rfl (fun _ _ => rfl) (fun c hc => by simp [hc]) htarget trivial
    fun _ _ _ _ _ _ => trivial

/-- A state that no word leads to is not missed. -/
theorem coincide_of_not_met (hnot : ¬Acceptor.Met d s) (he : d.removeState s = .ok d') :
    Acceptor.Coincide d d' (Acceptor.Met d) fun _ => True := by
  have hne : ∀ q, Acceptor.Met d q → q ≠ s := fun q hq h => hnot (h ▸ hq)
  -- where a move leads from what some word leads to, a longer word leads
  have hmet : ∀ q c r, Acceptor.Met d q → c ∈ d.alphabet → d.target? q c = some r →
      Acceptor.Met d r :=
    fun q c r hq hc hr => .advance hq (advance_of_target? hc hr)
  have htarget : ∀ q c, Acceptor.Met d q → c ∈ d.alphabet → d'.target? q c = d.target? q c := by
    intro q c hq hc
    rw [target?_removeState he, if_neg (hne q hq)]
    cases hr : d.target? q c with
    | none => rfl
    -- so the move is not one of those that are led elsewhere
    | some r => rw [Option.map_some, if_neg (hne r (hmet q c r hq hc hr))]
  obtain ⟨g, hg, rfl⟩ := bind_pure_eq_ok_iff.1 he
  exact coincide_of_target?
    ((Signature.initial_removeState hg).trans (if_neg (hne _ .initial)))
    (fun q hq => Signature.isAccepting_removeState hg (hne q hq))
    (fun c _ => by rw [Signature.alphabet_removeState hg])
    (fun q c hq _ hc => htarget q c hq hc) .initial hmet

/-- A state that has just been declared can be forgotten, and the table is as it was. -/
theorem removeState_addState (h : d.WellFormed) (he : d.addState s = .ok d') :
    d'.removeState s = .ok d := by
  have h' := edit_wellFormed (e := .addState s) h he
  obtain ⟨d₂, he₂, hsignature⟩ :
      ∃ d₂, d'.removeState s = .ok d₂ ∧ d₂.toSignature = d.toSignature := by
    obtain ⟨g, hg, rfl⟩ := bind_pure_eq_ok_iff.1 he
    have hback := Signature.removeState_addState h.toWellFormed hg
    exact ⟨_, bind_pure_eq_ok_iff.2 ⟨_, hback, rfl⟩, rfl⟩
  -- no earlier move leads to the state, so none is led elsewhere with it
  have hnew : s ∉ d.states := by
    obtain ⟨g, hg, -⟩ := bind_pure_eq_ok_iff.1 he
    exact (Signature.addState_eq_ok_iff.1 hg).1.2
  rw [he₂, h.ext (edit_wellFormed (e := .removeState s) h' he₂) hsignature fun p c q hq => ?_]
  obtain ⟨hp, -, hr⟩ := h.of_target? hq
  rw [target?_removeState he₂, if_neg (ne_of_mem_of_not_mem hp hnew), target?_addState h he hp, hq,
    Option.map_some, if_neg (ne_of_mem_of_not_mem hr hnew)]

/-- A symbol that has just been declared can be forgotten, and the table is as it was. -/
theorem removeSymbol_addSymbol (h : d.WellFormed) (he : d.addSymbol a = .ok d') :
    d'.removeSymbol a = .ok d := by
  have h' := edit_wellFormed (e := .addSymbol a) h he
  obtain ⟨d₂, he₂, hsignature⟩ :
      ∃ d₂, d'.removeSymbol a = .ok d₂ ∧ d₂.toSignature = d.toSignature := by
    obtain ⟨g, hg, rfl⟩ := bind_pure_eq_ok_iff.1 he
    have hback := Signature.removeSymbol_addSymbol hg
    exact ⟨_, bind_pure_eq_ok_iff.2 ⟨_, hback, rfl⟩, rfl⟩
  have hnew : a ∉ d.alphabet := by
    obtain ⟨g, hg, -⟩ := bind_pure_eq_ok_iff.1 he
    exact (Signature.addSymbol_eq_ok_iff.1 hg).1.2
  rw [he₂, h.ext (edit_wellFormed (e := .removeSymbol a) h' he₂) hsignature fun p c q hq => ?_]
  have hc := ne_of_mem_of_not_mem (h.of_target? hq).2.1 hnew
  rw [target?_removeSymbol he₂, if_neg hc, target?_addSymbol h he hc, hq]

/-- A symbol that was forgotten stops reading. -/
theorem advance_removeSymbol (he : d.removeSymbol a = .ok d') (q : String) :
    Acceptor.advance d' q a = .error (.invalidSymbol a) := by
  obtain ⟨g, hg, rfl⟩ := bind_pure_eq_ok_iff.1 he
  obtain ⟨-, rfl⟩ := Signature.removeSymbol_eq_ok_iff.1 hg
  exact advance_of_notMem (by simp)

end

end DFA

/-! ## Nondeterministic automata -/

namespace NFA

section

variable {n m n' : NFA} {s : StateSet} {p q : String} {c a : Char}

theorem tellsStops (n : NFA) : Acceptor.TellsStops n where
  advance := by
    intro s c outcome h
    simp only [Acceptor.advance] at h
    split at h
    · obtain rfl := Except.error.inj h
      trivial
    · split at h
      · obtain rfl := Except.error.inj h
        trivial
      · exact absurd h (by simp)
  verdict := by
    intro s
    change ¬(if n.areAccepting s then Outcome.accepted else .endedInRejectingStates s).IsStop
    split <;> exact id

/-- Automata coincide on sets that they leave alike and in which they accept alike. -/
theorem coincide_of_moves {P : StateSet → Prop} {K : Char → Prop}
    (hinitial : m.initial = n.initial)
    (hclosure : m.closure {n.initial} = n.closure {n.initial})
    (haccepting : ∀ s, P s → ∀ p ∈ s, m.isAccepting p = n.isAccepting p)
    (halphabet : ∀ c, K c → (c ∈ m.alphabet ↔ c ∈ n.alphabet))
    (hmoves : ∀ s c, P s → K c → c ∈ n.alphabet →
      m.firing s c = n.firing s c ∧ m.closure (n.direct s c) = n.closure (n.direct s c))
    (hstart : P (n.closure {n.initial}))
    (hstays : ∀ s c move, P s → Acceptor.advance n s c = .ok move → P move.configuration) :
    Acceptor.Coincide n m P K where
  initial := by
    change m.closure {m.initial} = n.closure {n.initial}
    rw [hinitial, hclosure]
  initialEpsilonReached := by
    change (m.closure {m.initial}).erase m.initial = (n.closure {n.initial}).erase n.initial
    rw [hinitial, hclosure]
  start := hstart
  advance := fun s c hs hc => advance_congr (halphabet c hc) (hmoves s c hs hc)
  stays := fun s c move hs _ => hstays s c move hs
  verdict := fun s hs => by
    change (if m.areAccepting s then Outcome.accepted else .endedInRejectingStates s)
      = if n.areAccepting s then Outcome.accepted else .endedInRejectingStates s
    rw [Signature.areAccepting_congr (haccepting s hs)]

/-- Automata coincide throughout if they have the same targets on the characters in question and on
the empty move. -/
theorem coincide_of_targets {K : Char → Prop} (hinitial : m.initial = n.initial)
    (haccepting : m.accepting = n.accepting)
    (halphabet : ∀ c, K c → (c ∈ m.alphabet ↔ c ∈ n.alphabet))
    (hepsilon : ∀ p, m.targets p .epsilon = n.targets p .epsilon)
    (hchar : ∀ p c, K c → m.targets p (.char c) = n.targets p (.char c)) :
    Acceptor.Coincide n m (fun _ => True) K := by
  have hsame : ∀ p, m.isAccepting p = n.isAccepting p := fun p => by
    rw [Signature.isAccepting, Signature.isAccepting, haccepting]
  exact coincide_of_moves hinitial (closure_congr hepsilon _) (fun _ _ p _ => hsame p) halphabet
    (fun s c _ hc _ => ⟨firing_congr fun p _ => hchar p c hc, closure_congr hepsilon _⟩)
    trivial fun _ _ _ _ _ => trivial

theorem coincide_addState (he : n.addState q = .ok n') :
    Acceptor.Coincide n n' (fun _ => True) fun _ => True := by
  obtain ⟨g, hg, rfl⟩ := bind_pure_eq_ok_iff.1 he
  obtain ⟨-, rfl⟩ := Signature.addState_eq_ok_iff.1 hg
  exact coincide_of_targets rfl rfl (fun _ _ => Iff.rfl) (fun _ => rfl) fun _ _ _ => rfl

theorem coincide_addSymbol (he : n.addSymbol a = .ok n') :
    Acceptor.Coincide n n' (fun _ => True) (· ≠ a) := by
  obtain ⟨g, hg, rfl⟩ := bind_pure_eq_ok_iff.1 he
  obtain ⟨-, rfl⟩ := Signature.addSymbol_eq_ok_iff.1 hg
  exact coincide_of_targets rfl rfl (fun c hc => by simp [hc]) (fun _ => rfl) fun _ _ _ => rfl

theorem coincide_removeSymbol (he : n.removeSymbol a = .ok n') :
    Acceptor.Coincide n n' (fun _ => True) (· ≠ a) := by
  -- only the entries of the symbol go, and those are of no other character
  have htargets : ∀ p x, x ≠ .char a → n'.targets p x = n.targets p x := by
    intro p x hx
    rw [targets_edit (e := .removeSymbol a) he rfl (by rw [Edit.retarget]; split <;> rfl),
      Edit.retarget, if_neg hx]
  obtain ⟨g, hg, rfl⟩ := bind_pure_eq_ok_iff.1 he
  obtain ⟨-, rfl⟩ := Signature.removeSymbol_eq_ok_iff.1 hg
  exact coincide_of_targets rfl rfl (fun c hc => by simp [hc])
    (fun p => htargets p .epsilon (by simp)) fun p c hc => htargets p (.char c) (by simpa using hc)

/-- A symbol that was forgotten stops reading. -/
theorem advance_removeSymbol (he : n.removeSymbol a = .ok n') (s : StateSet) :
    Acceptor.advance n' s a = .error (.invalidSymbol a) := by
  obtain ⟨g, hg, rfl⟩ := bind_pure_eq_ok_iff.1 he
  obtain ⟨-, rfl⟩ := Signature.removeSymbol_eq_ok_iff.1 hg
  exact advance_of_notMem (by simp)

/-! ### A state that is not visited -/

/-- A closure without a state is made by the moves that are left when the state is forgotten. -/
theorem closure_removeState (he : n.removeState q = .ok n') (hq : q ∉ n.closure s) :
    n'.closure s = n.closure s := by
  -- forgetting the state takes away the empty moves at either end of which it is
  have hmove : ∀ p r, n'.EmptyMove p r ↔ p ≠ q ∧ n.EmptyMove p r ∧ r ≠ q := by
    intro p r
    rw [EmptyMove, targets_removeState he]
    by_cases hp : p = q
    · simp [hp]
    · simp [hp, EmptyMove]
  have hsub : ∀ r ∈ n'.closure s, r ∈ n.closure s := fun r =>
    closure_least (fun _ => subset_closure) fun p hp r hpr =>
      mem_closure_of_emptyMove hp ((hmove p r).1 hpr).2.1
  ext r
  refine ⟨hsub r, closure_least (fun _ => subset_closure) fun p hp r hpr => ?_⟩
  -- neither end of the move is the state that is forgotten
  have hr := mem_closure_of_emptyMove (hsub p hp) hpr
  exact mem_closure_of_emptyMove hp ((hmove p r).2
    ⟨ne_of_mem_of_not_mem (hsub p hp) hq, hpr, ne_of_mem_of_not_mem hr hq⟩)

/-- What a move leads to comes up. -/
theorem met_closure_direct (hs : Acceptor.Met n s) (hc : c ∈ n.alphabet)
    (hq : q ∈ n.closure (n.direct s c)) : Acceptor.Met n (n.closure (n.direct s c)) :=
  .advance hs (advance_eq_ok_iff.2 ⟨hc, ⟨q, hq⟩, rfl⟩)

/-- A configuration that comes up holds the states that some word leads to. -/
theorem exists_reach_of_met (hs : Acceptor.Met n s) : ∃ w, s.members = n.reach w := by
  induction hs with
  | initial => exact ⟨[], members_initial n⟩
  | @advance s c move _ hmove ih =>
    obtain ⟨w, hw⟩ := ih
    by_cases hc : c ∈ n.alphabet
    · rcases advance_of_mem (s := s) hc with ⟨-, hstop⟩ | ⟨step, hstep, hmembers, -⟩
      · exact absurd (hmove.symm.trans hstop) (by simp)
      · obtain rfl := Except.ok.inj (hstep.symm.trans hmove)
        exact ⟨w ++ [c], by rw [hmembers, reach_snoc, hw]⟩
    · exact absurd (hmove.symm.trans (advance_of_notMem hc)) (by simp)

/-- A state that no word leads to is not missed. -/
theorem coincide_of_not_met (hnot : ∀ s, Acceptor.Met n s → q ∉ s)
    (he : n.removeState q = .ok n') : Acceptor.Coincide n n' (Acceptor.Met n) fun _ => True := by
  have hinitial : n'.initial = n.initial := by
    have hne : n.initial ≠ q :=
      ne_of_mem_of_not_mem (subset_closure (SortedSet.mem_singleton.2 rfl)) (hnot _ .initial)
    obtain ⟨g, hg, rfl⟩ := bind_pure_eq_ok_iff.1 he
    exact (Signature.initial_removeState hg).trans (if_neg hne)
  have havoided : ∀ s c, Acceptor.Met n s → c ∈ n.alphabet → q ∉ n.closure (n.direct s c) :=
    fun s c hs hc hq => hnot _ (met_closure_direct hs hc hq) hq
  -- were the state a target, the move would lead to a configuration with it
  have hfiring : ∀ s c, Acceptor.Met n s → c ∈ n.alphabet → n'.firing s c = n.firing s c := by
    intro s c hs hc
    refine firing_congr fun p hp => ?_
    rw [listed_edit (e := .removeState q) he, Edit.retarget,
      if_neg (ne_of_mem_of_not_mem hp (hnot s hs))]
    exact SortedSet.erase_eq_self fun hq =>
      havoided s c hs hc (subset_closure (mem_direct.2 ⟨p, hp, hq⟩))
  have haccepting : ∀ s, Acceptor.Met n s → ∀ p ∈ s, n'.isAccepting p = n.isAccepting p := by
    intro s hs p hp
    obtain ⟨g, hg, rfl⟩ := bind_pure_eq_ok_iff.1 he
    exact Signature.isAccepting_removeState hg (ne_of_mem_of_not_mem hp (hnot s hs))
  have halphabet : n'.alphabet = n.alphabet := by
    obtain ⟨g, hg, rfl⟩ := bind_pure_eq_ok_iff.1 he
    exact Signature.alphabet_removeState hg
  exact coincide_of_moves hinitial (closure_removeState he (hnot _ .initial)) haccepting
    (fun c _ => by rw [halphabet])
    (fun s c hs _ hc => ⟨hfiring s c hs hc, closure_removeState he (havoided s c hs hc)⟩)
    .initial fun _ _ _ hs hmove => .advance hs hmove

/-! ### Changes that are taken back -/

/-- A state that has just been declared can be forgotten, and the table is as it was. -/
theorem removeState_addState (h : n.WellFormed) (he : n.addState q = .ok n') :
    n'.removeState q = .ok n := by
  obtain ⟨g, hg, rfl⟩ := bind_pure_eq_ok_iff.1 he
  have hnew : q ∉ n.states := (Signature.addState_eq_ok_iff.1 hg).1.2
  refine bind_pure_eq_ok_iff.2 ⟨_, Signature.removeState_addState h.toWellFormed hg, ?_⟩
  -- a state that was not declared has no row
  have hrow : n.transitions.get? q = none := h.transitions.get?_eq_none hnew
  -- no target is the new state
  have htable : (n.transitions.map fun _ row => row.map fun _ s => s.erase q) = n.transitions :=
    SortedMap.map_eq_self fun p row hp => SortedMap.map_eq_self fun x s hs =>
      SortedSet.erase_eq_self fun hq => hnew (((h.transitions p row hp).2 x s hs).2 q hq)
  rw [SortedMap.erase_eq_self hrow, htable]

/-- A symbol that has just been declared can be forgotten, and the table is as it was. -/
theorem removeSymbol_addSymbol (h : n.WellFormed) (he : n.addSymbol a = .ok n') :
    n'.removeSymbol a = .ok n := by
  obtain ⟨g, hg, rfl⟩ := bind_pure_eq_ok_iff.1 he
  have hnew : a ∉ n.alphabet := (Signature.addSymbol_eq_ok_iff.1 hg).1.2
  refine bind_pure_eq_ok_iff.2 ⟨_, Signature.removeSymbol_addSymbol hg, ?_⟩
  have htable : (n.transitions.map fun _ row => row.erase (.char a)) = n.transitions :=
    SortedMap.map_eq_self fun p row hp =>
      SortedMap.erase_eq_self ((h.transitions p row hp).2.get?_eq_none hnew)
  rw [htable]

end

end NFA

/-! ## Automata of either kind -/

namespace Automaton

/-- The automaton with one more state. -/
def addState : Automaton → String → Except AutomatonError Automaton
  | dfa d, q => (d.addState q).map dfa
  | nfa n, q => (n.addState q).map nfa

/-- The automaton without a state. -/
def removeState : Automaton → String → Except AutomatonError Automaton
  | dfa d, q => (d.removeState q).map dfa
  | nfa n, q => (n.removeState q).map nfa

/-- The automaton with one more symbol. -/
def addSymbol : Automaton → Char → Except AutomatonError Automaton
  | dfa d, c => (d.addSymbol c).map dfa
  | nfa n, c => (n.addSymbol c).map nfa

/-- The automaton without a symbol. -/
def removeSymbol : Automaton → Char → Except AutomatonError Automaton
  | dfa d, c => (d.removeSymbol c).map dfa
  | nfa n, c => (n.removeSymbol c).map nfa

/-- Some word leads from the initial state to this one, along one of its paths. -/
def Visits : Automaton → String → Prop
  | dfa d, q => Acceptor.Met d q
  | nfa n, q => ∃ w, q ∈ n.reach w

section

variable {a a' : Automaton} {q : String} {c : Char}

theorem process_addState (h : a.Built) (he : a.addState q = .ok a') :
    (∀ w, a'.process w = a.process w) ∧ a'.removeState q = .ok a := by
  cases a with
  | dfa d =>
    obtain ⟨d', hd, rfl⟩ := map_eq_ok_iff.1 he
    have hwell := DFA.built_wellFormed h
    exact ⟨fun w => (DFA.coincide_addState hwell hd).evaluate_eq fun _ _ => trivial,
      map_eq_ok_iff.2 ⟨d, DFA.removeState_addState hwell hd, rfl⟩⟩
  | nfa n =>
    obtain ⟨n', hn, rfl⟩ := map_eq_ok_iff.1 he
    exact ⟨fun w => (NFA.coincide_addState hn).evaluate_eq fun _ _ => trivial,
      map_eq_ok_iff.2 ⟨n, NFA.removeState_addState (NFA.built_wellFormed h) hn, rfl⟩⟩

theorem process_addSymbol (h : a.Built) (he : a.addSymbol c = .ok a') :
    (∀ w, c ∉ w → a'.process w = a.process w) ∧ a'.removeSymbol c = .ok a := by
  cases a with
  | dfa d =>
    obtain ⟨d', hd, rfl⟩ := map_eq_ok_iff.1 he
    have hwell := DFA.built_wellFormed h
    exact ⟨fun w hw => (DFA.coincide_addSymbol hwell hd).evaluate_eq fun _ hx =>
      ne_of_mem_of_not_mem hx hw, map_eq_ok_iff.2 ⟨d, DFA.removeSymbol_addSymbol hwell hd, rfl⟩⟩
  | nfa n =>
    obtain ⟨n', hn, rfl⟩ := map_eq_ok_iff.1 he
    exact ⟨fun w hw => (NFA.coincide_addSymbol hn).evaluate_eq fun _ hx =>
      ne_of_mem_of_not_mem hx hw,
      map_eq_ok_iff.2 ⟨n, NFA.removeSymbol_addSymbol (NFA.built_wellFormed h) hn, rfl⟩⟩

theorem process_removeSymbol (he : a.removeSymbol c = .ok a') :
    (∀ w, c ∉ w → a'.process w = a.process w)
      ∧ ∀ u v, c ∉ u → a'.process (u ++ c :: v)
        = if (a.process u).IsStop then a.process u else .invalidSymbol c := by
  cases a with
  | dfa d =>
    obtain ⟨d', hd, rfl⟩ := map_eq_ok_iff.1 he
    -- the symbol now stops both kinds at once, whatever state they are in
    have hcoincide := DFA.coincide_removeSymbol hd
    exact ⟨fun w hw => hcoincide.evaluate_eq fun _ hx => ne_of_mem_of_not_mem hx hw,
      fun u v hu => hcoincide.evaluate_append_cons d.tellsStops (DFA.advance_removeSymbol hd)
        (fun _ hx => ne_of_mem_of_not_mem hx hu) v⟩
  | nfa n =>
    obtain ⟨n', hn, rfl⟩ := map_eq_ok_iff.1 he
    have hcoincide := NFA.coincide_removeSymbol hn
    exact ⟨fun w hw => hcoincide.evaluate_eq fun _ hx => ne_of_mem_of_not_mem hx hw,
      fun u v hu => hcoincide.evaluate_append_cons n.tellsStops (NFA.advance_removeSymbol hn)
        (fun _ hx => ne_of_mem_of_not_mem hx hu) v⟩

/-- The initial state is visited. -/
theorem visits_initial (a : Automaton) : a.Visits a.signature.initial := by
  cases a with
  | dfa d => exact .initial
  | nfa n => exact ⟨[], [], rfl, .nil n.initial⟩

theorem process_removeState (h : a.Built) (hq : q ∈ a.signature.states) (hnot : ¬a.Visits q) :
    ∃ a', a.removeState q = .ok a' ∧ ∀ w, a'.process w = a.process w := by
  have hne : a.signature.initial ≠ q := fun heq => hnot (heq ▸ a.visits_initial)
  cases a with
  | dfa d =>
    obtain ⟨d', hd⟩ : ∃ d', d.removeState q = .ok d' := exists_bind_pure_eq_ok_iff.2
      (Signature.exists_removeState_of_ne (DFA.built_wellFormed h).initial hq hne)
    exact ⟨dfa d', map_eq_ok_iff.2 ⟨d', hd, rfl⟩, fun w =>
      (DFA.coincide_of_not_met hnot hd).evaluate_eq fun _ _ => trivial⟩
  | nfa n =>
    obtain ⟨n', hn⟩ : ∃ n', n.removeState q = .ok n' := exists_bind_pure_eq_ok_iff.2
      (Signature.exists_removeState_of_ne (NFA.built_wellFormed h).initial hq hne)
    -- what a configuration holds is what some word leads to
    have hmet : ∀ s, Acceptor.Met n s → q ∉ s := by
      intro s hs hmem
      obtain ⟨w, hw⟩ := NFA.exists_reach_of_met hs
      have hreach : q ∈ n.reach w := hw ▸ hmem
      exact hnot ⟨w, hreach⟩
    exact ⟨nfa n', map_eq_ok_iff.2 ⟨n', hn, rfl⟩, fun w =>
      (NFA.coincide_of_not_met hmet hn).evaluate_eq fun _ _ => trivial⟩

/--
**Growing and shrinking an automaton does no harm.**

Whatever the history of the automaton, words are read as before after a state has been declared, and
words without a symbol after the symbol has been declared or forgotten; and what has been declared
can be forgotten again, which gives back the same automaton. A word with a symbol that was forgotten
is read up to where the symbol first comes: if reading stopped before, it still does, and otherwise
it stops there. A state that no word leads to can be forgotten, and all words are read as before.
-/
theorem resizing_conservative (h : a.Built) :
    (∀ q a', a.addState q = .ok a' →
        (∀ w, a'.process w = a.process w) ∧ a'.removeState q = .ok a)
      ∧ (∀ c a', a.addSymbol c = .ok a' →
        (∀ w, c ∉ w → a'.process w = a.process w) ∧ a'.removeSymbol c = .ok a)
      ∧ (∀ c a', a.removeSymbol c = .ok a' →
        (∀ w, c ∉ w → a'.process w = a.process w)
          ∧ ∀ u v, c ∉ u → a'.process (u ++ c :: v)
            = if (a.process u).IsStop then a.process u else .invalidSymbol c)
      ∧ ∀ q ∈ a.signature.states, ¬a.Visits q →
        ∃ a', a.removeState q = .ok a' ∧ ∀ w, a'.process w = a.process w :=
  ⟨fun _ _ he => process_addState h he, fun _ _ he => process_addSymbol h he,
    fun _ _ he => process_removeSymbol he, fun _ hq hnot => process_removeState h hq hnot⟩

end

theorem circling_resizing_conservative :
    (dfa circling).Built
      ∧ (∃ a, (dfa circling).addState "3" = .ok a ∧ a.process ['a'] = .accepted
        ∧ a.removeState "3" = .ok (dfa circling)
        ∧ a.Built ∧ ¬a.Visits "3"
        ∧ ∃ a', a.removeState "3" = .ok a' ∧ a'.process ['a'] = .accepted)
      ∧ (∃ a, (dfa circling).addSymbol 'b' = .ok a ∧ a.process ['a'] = .accepted
        ∧ a.removeSymbol 'b' = .ok (dfa circling))
      ∧ ∃ a, (dfa circling).removeSymbol 'a' = .ok a
        ∧ a.process ['b', 'a'] = .invalidSymbol 'b' ∧ a.process ['a', 'b'] = .invalidSymbol 'a' := by
  have hbuilt : (dfa circling).Built := circling_built
  obtain ⟨haddState, haddSymbol, hremoveSymbol, -⟩ := resizing_conservative hbuilt
  have haccepted : (dfa circling).process ['a'] = .accepted := by decide
  refine ⟨hbuilt, ?_, ?_, ?_⟩
  · obtain ⟨d, hd⟩ : ∃ d, circling.addState "3" = .ok d := ⟨_, rfl⟩
    obtain ⟨hsame, hback⟩ := haddState "3" (dfa d) (map_eq_ok_iff.2 ⟨d, hd, rfl⟩)
    have hgrown : (dfa d).Built := .edited (e := .addState "3") circling_built hd
    have hdeclared : "3" ∈ d.states := by
      obtain rfl := Except.ok.inj hd
      decide
    -- no move of the others leads to the new state
    have hnot : ¬(dfa d).Visits "3" := fun hvisited => absurd
      ((DFA.coincide_addState (DFA.built_wellFormed circling_built) hd).of_met hvisited) (by decide)
    obtain ⟨a', hremoved, hkept⟩ := (resizing_conservative hgrown).2.2.2 "3" hdeclared hnot
    have hread := (hsame ['a']).trans haccepted
    exact ⟨dfa d, map_eq_ok_iff.2 ⟨d, hd, rfl⟩, hread, hback, hgrown, hnot, a', hremoved,
      (hkept ['a']).trans hread⟩
  · obtain ⟨a, ha⟩ : ∃ a, (dfa circling).addSymbol 'b' = .ok a := ⟨_, rfl⟩
    obtain ⟨hsame, hback⟩ := haddSymbol 'b' a ha
    exact ⟨a, ha, (hsame ['a'] (by decide)).trans haccepted, hback⟩
  · obtain ⟨a, ha⟩ : ∃ a, (dfa circling).removeSymbol 'a' = .ok a := ⟨_, rfl⟩
    obtain ⟨-, hstops⟩ := hremoveSymbol 'a' a ha
    refine ⟨a, ha, (hstops ['b'] [] (by decide)).trans ?_, (hstops [] ['b'] (by decide)).trans ?_⟩
    · decide
    · decide

end Automaton

end AutomataLab
