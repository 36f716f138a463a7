import AutomataLab.Proofs.Automaton.DFA
import AutomataLab.Proofs.Automaton.Descriptions
import AutomataLab.Proofs.Automaton.SameMoves
import AutomataLab.Proofs.Playback.InStep
import AutomataLab.Proofs.Playback.Trace

/-!
# A deterministic automaton as a nondeterministic one

The transitions that a deterministic automaton lists can be added one after the other to a
nondeterministic automaton with the same declarations, which has just these transitions then
(`asNFA`). Read from a set of one state it is never in any other number of states, since the listing
loses nothing: the only target of a state on a symbol is the one that the table has, and there are
no empty moves. So the nondeterministic automaton translates the deterministic one, states being
read as sets of one state (`translates_asNFA`). What is left to say is that a deterministic
automaton that can come up is never stuck, so of the outcomes that it could end with only three are
met (`evaluateFrom_cases`).
-/

namespace AutomataLab

/-! ## Transitions that are added in a row -/

namespace NFA

/-- What is well formed can be declared again, with no transitions to begin with. -/
theorem declare_self {g : Signature} (h : g.WellFormed) :
    declare g.states g.alphabet g.initial g.accepting.toList = .ok ⟨g, ∅, true⟩ :=
  bind_pure_eq_ok_iff.2 ⟨g, h.declare_self, rfl⟩

/-- Add the transitions of a list, one after the other. -/
def addAll (n : NFA) (l : List (Transition Symbol)) : Except AutomatonError NFA :=
  l.foldlM (fun n e => n.addTransition e.source e.symbol e.target) n

/-- The table with the transitions of a list. -/
def addEntries (table : Table) (l : List (Transition Symbol)) : Table :=
  l.foldl (fun table e => addEntry table e.source e.symbol e.target) table

theorem addAll_eq_ok_iff {n n' : NFA} {l : List (Transition Symbol)} : n.addAll l = .ok n'
    ↔ (∀ e ∈ l, n.checkEdge e.source e.symbol e.target = .ok ())
      ∧ n' = { n with transitions := addEntries n.transitions l } := by
  refine foldlM_eq_ok_iff (fun t => { n with transitions := t }) fun t e m => ?_
  exact addTransition_eq_ok_iff

theorem mem_addEntries {table : Table} {l : List (Transition Symbol)} {p q : String} {x : Symbol} :
    q ∈ targetsIn (rowOf (addEntries table l) p) x
      ↔ q ∈ targetsIn (rowOf table p) x ∨ ⟨p, x, q⟩ ∈ l := by
  unfold addEntries
  induction l generalizing table with
  | nil => simp
  | cons e rest ih =>
    rw [List.foldl_cons, ih, mem_addEntry, List.mem_cons, or_assoc, and_assoc]
    exact or_congr_right (or_congr_left (by rw [Transition.mk.injEq]))

theorem mem_addEntries_empty {l : List (Transition Symbol)} {p q : String} {x : Symbol} :
    q ∈ targetsIn (rowOf (addEntries ∅ l) p) x ↔ ⟨p, x, q⟩ ∈ l :=
  mem_addEntries.trans (or_iff_right (SortedSet.not_mem_empty q))

end NFA

namespace DFA

open Playback

/-! ## Moves of a deterministic automaton -/

section

variable {d : DFA} {p q r : String} {c : Char}

theorem advance_of_notMem (hc : c ∉ d.alphabet) :
    Acceptor.advance d q c = .error (.invalidSymbol c) := by
  simp [Acceptor.advance, next, Signature.checkSymbol, hc, bind, Except.bind]

theorem advance_of_target? (hc : c ∈ d.alphabet) (hr : d.target? q c = some r) :
    Acceptor.advance d q c = .ok ⟨r, [⟨q, c, r⟩], ∅⟩ := by
  simp only [Acceptor.advance, next_of_target? hc hr]

/-- A state that the table does not have is stuck. -/
theorem advance_of_stuck (hc : c ∈ d.alphabet) (hr : d.target? q c = none) :
    Acceptor.advance d q c = .error (.noValidTransition {q} c) := by
  have hnext : d.next q c = .error (.unknownState q) := by
    rw [next, Signature.checkSymbol_eq_ok_iff.2 hc, hr]
    rfl
  simp only [Acceptor.advance, hnext]

/-- No state is reached by empty moves alone. -/
theorem epsilonReached_of_advance {move : Advance String}
    (hmove : Acceptor.advance d q c = .ok move) : move.epsilonReached = ∅ := by
  by_cases hc : c ∈ d.alphabet
  · cases hr : d.target? q c with
    | some r =>
      rw [advance_of_target? hc hr] at hmove
      obtain rfl := Except.ok.inj hmove
      rfl
    | none => exact absurd (hmove.symm.trans (advance_of_stuck hc hr)) (by simp)
  · exact absurd (hmove.symm.trans (advance_of_notMem hc)) (by simp)

/-- **From a declared state reading ends in a state, unless a character is not known.** -/
theorem evaluateFrom_cases (h : d.WellFormed) (hq : q ∈ d.states) (w : List Char) :
    Acceptor.evaluateFrom d q w = .accepted
      ∨ (∃ c, Acceptor.evaluateFrom d q w = .invalidSymbol c)
      ∨ ∃ r, Acceptor.evaluateFrom d q w = .endedInRejectingState r := by
  induction w generalizing q with
  | nil =>
    cases haccepting : d.isAccepting q with
    | true => exact Or.inl (if_pos haccepting)
    | false => exact Or.inr (Or.inr ⟨q, if_neg (by simp [haccepting])⟩)
  | cons c rest ih =>
    by_cases hc : c ∈ d.alphabet
    · -- the table has a move, so nothing is ever missing
      obtain ⟨r, hr⟩ := h.exists_target? hq hc
      rw [Acceptor.evaluateFrom, advance_of_target? hc hr]
      exact ih (h.of_target? hr).2.2
    · refine Or.inr (Or.inl ⟨c, ?_⟩)
      rw [Acceptor.evaluateFrom, advance_of_notMem hc]

theorem mem_transitionList {x : Symbol} : ⟨p, x, q⟩ ∈ d.transitionList
    ↔ p ∈ d.states ∧ ∃ c ∈ d.alphabet, x = .char c ∧ d.target? p c = some q := by
  simp only [transitionList, List.mem_flatMap, List.mem_filterMap, Option.map_eq_some_iff,
    Transition.mk.injEq]
  constructor
  · rintro ⟨p', hp, c, hc, q', hq, rfl, rfl, rfl⟩
    exact ⟨hp, c, hc, rfl, hq⟩
  · rintro ⟨hp, c, hc, rfl, hq⟩
    exact ⟨p, hp, c, hc, q, hq, rfl, rfl, rfl⟩

/-- The listing loses nothing. -/
theorem WellFormed.mem_transitionList (h : d.WellFormed) {x : Symbol} :
    ⟨p, x, q⟩ ∈ d.transitionList ↔ ∃ c, x = .char c ∧ d.target? p c = some q := by
  rw [DFA.mem_transitionList]
  constructor
  · rintro ⟨-, c, -, hx, hq⟩
    exact ⟨c, hx, hq⟩
  · rintro ⟨c, hx, hq⟩
    -- only declared states and symbols are gone through, and a full table has no other entries
    obtain ⟨hp, hc, -⟩ := h.of_target? hq
    exact ⟨hp, c, hc, hx, hq⟩

end

/-! ## The nondeterministic automaton -/

/-- The nondeterministic automaton with the listed transitions. -/
def asNFA (d : DFA) : NFA := ⟨d.toSignature, NFA.addEntries ∅ d.transitionList, true⟩

/-- Outcomes with a state read as a set of one state. -/
def spread : Outcome → Outcome
  | .endedInRejectingState q => .endedInRejectingStates {q}
  | outcome => outcome

section

variable {d : DFA} (h : d.WellFormed) {p q : String} {c : Char}

include h

/-- The listed transitions can be added to the automaton that is declared anew. -/
theorem addAll_transitionList :
    (NFA.declare d.states d.alphabet d.initial d.accepting.toList >>= (·.addAll d.transitionList))
      = .ok d.asNFA := by
  refine bind_eq_ok_iff.2 ⟨_, NFA.declare_self h.toWellFormed, NFA.addAll_eq_ok_iff.2 ⟨?_, rfl⟩⟩
  rintro ⟨p, x, q⟩ he
  -- each listed transition is between declared states and on a symbol of the alphabet
  obtain ⟨hp, c, hc, rfl, hq⟩ := mem_transitionList.1 he
  exact NFA.checkEdge_eq_ok_iff.2 ⟨⟨hc, rfl⟩, hp, (h.of_target? hq).2.2⟩

theorem mem_listed_asNFA : q ∈ d.asNFA.listed p (.char c) ↔ d.target? p c = some q := by
  rw [NFA.listed_eq, asNFA, NFA.mem_addEntries_empty, h.mem_transitionList]
  simp

omit h in
theorem targets_asNFA_epsilon : d.asNFA.targets p .epsilon = ∅ := by
  ext q
  have hlisted : q ∈ d.asNFA.listed p .epsilon ↔ ⟨p, .epsilon, q⟩ ∈ d.transitionList := by
    rw [NFA.listed_eq, asNFA, NFA.mem_addEntries_empty]
  refine iff_of_false (fun hq => ?_) (SortedSet.not_mem_empty q)
  obtain ⟨-, c, -, hc, -⟩ := mem_transitionList.1 (hlisted.1 hq)
  exact absurd hc (by simp)

omit h in
theorem closure_asNFA (s : StateSet) : d.asNFA.closure s = s :=
  NFA.closure_eq_self (fun _ => targets_asNFA_epsilon) s

theorem listed_asNFA_of_target? (hq : d.target? p c = some q) :
    d.asNFA.listed p (.char c) = {q} := by
  ext r
  rw [mem_listed_asNFA h, hq, SortedSet.mem_singleton, Option.some.injEq, eq_comm]

theorem listed_asNFA_of_stuck (hq : d.target? p c = none) :
    d.asNFA.listed p (.char c) = ∅ := by
  ext r
  rw [mem_listed_asNFA h, hq]
  exact iff_of_false (by simp) (SortedSet.not_mem_empty r)

theorem next_asNFA_of_target? (hc : c ∈ d.alphabet) (hq : d.target? p c = some q) :
    d.asNFA.next {p} c = .ok ⟨{q}, [⟨p, c, q⟩], ∅⟩ := by
  -- the one state at hand has the one target
  have hfiring : d.asNFA.firing {p} c = [⟨p, c, q⟩] := by
    rw [NFA.firing, SortedSet.toList_singleton, List.flatMap_singleton,
      listed_asNFA_of_target? h hq]
    rfl
  have hdirect : SortedSet.ofList [q] = {q} := by
    ext r
    simp
  have hnothing : ({q} : StateSet) \ {q} = ∅ := by
    ext r
    simp
  rw [NFA.next_of_mem hc, hfiring, List.map_singleton, closure_asNFA, hdirect, hnothing]

theorem next_asNFA_of_stuck (hc : c ∈ d.alphabet) (hq : d.target? p c = none) :
    d.asNFA.next {p} c = .ok ⟨∅, [], ∅⟩ := by
  have hfiring : d.asNFA.firing {p} c = [] := by
    rw [NFA.firing, SortedSet.toList_singleton, List.flatMap_singleton, listed_asNFA_of_stuck h hq]
    rfl
  rw [NFA.next_of_mem hc, hfiring, List.map_nil, closure_asNFA]
  rfl

/-- **The nondeterministic automaton translates the deterministic one.** -/
theorem translates_asNFA :
    Acceptor.Translates d d.asNFA (fun q => ({q} : StateSet)) spread where
  initial := closure_asNFA {d.initial}
  initialEpsilonReached := by
    change (d.asNFA.closure {d.initial}).erase d.initial = ∅
    rw [closure_asNFA]
    ext r
    simp
  advance := fun p c => by
    by_cases hc : c ∈ d.alphabet
    · cases hq : d.target? p c with
      | some q =>
        rw [advance_of_target? hc hq]
        simp only [Acceptor.advance, next_asNFA_of_target? h hc hq]
        rfl
      -- both stop for want of a move, and both tell the state they were in
      | none =>
        rw [advance_of_stuck hc hq]
        simp only [Acceptor.advance, next_asNFA_of_stuck h hc hq]
        rfl
    · rw [advance_of_notMem hc]
      exact NFA.advance_of_notMem hc
  verdict := fun p => by
    have hverdict : d.asNFA.areAccepting {p} = d.isAccepting p := by
      simp [Signature.areAccepting, asNFA]
    change (if d.asNFA.areAccepting {p} then Outcome.accepted else .endedInRejectingStates {p})
      = spread (if d.isAccepting p then .accepted else .endedInRejectingState p)
    rw [hverdict]
    cases d.isAccepting p <;> rfl

end

/-! ## Playbacks -/

/-- No record of a run tells states that are reached by empty moves alone. -/
theorem epsilonReached_of_mem_path {hist : History DFA String} {s : Simulation DFA String}
    (hr : Simulation.Reachable hist s) {r : Step String} (hmem : r ∈ s.state.path) :
    r.epsilonReached = ∅ := by
  obtain ⟨i, hi⟩ := Simulation.exists_trace_of_mem_path (Simulation.traced_reachable hr) hmem
  cases i with
  | zero =>
    obtain rfl := Option.some.inj hi
    rfl
  | succ i =>
    obtain ⟨_, _, _, _, _, hmove, rfl⟩ := Simulation.eq_of_trace_succ hi
    exact epsilonReached_of_advance hmove

/--
**A deterministic automaton and the nondeterministic one with its transitions behave alike.**

Whatever the history of the automaton, its listed transitions can be added to a nondeterministic
automaton that is declared with the same parts. Both then accept a word, stop at the same unknown
character, or end in the same rejecting state. And simulations of the two, with the same calls made
in both and ticks matched by the place at which they were handed out, show the same, the states of
the one being sets of one state in the other; no record tells states that are reached by empty moves
alone.
-/
theorem behaves_as_nfa {d : DFA} (hd : d.Built) :
    ∃ n, (NFA.declare d.states d.alphabet d.initial d.accepting.toList >>=
          (·.addAll d.transitionList)) = .ok n
      ∧ (∀ w, (d.process w = .accepted ∧ n.process w = .accepted)
        ∨ (∃ c, d.process w = .invalidSymbol c ∧ n.process w = .invalidSymbol c)
        ∨ ∃ q, d.process w = .endedInRejectingState q ∧ n.process w = .endedInRejectingStates {q})
      ∧ ∀ hist s hist' s', Simulation.InStep d n hist s hist' s' →
        s'.phase = s.phase ∧ s'.state = s.state.map (fun q => ({q} : StateSet))
          ∧ s.report.Corresponds spread s'.report
          ∧ (s'.testInput = s.testInput ∧ s'.runInput = s.runInput)
          ∧ (s'.pending = s.pending ∧ hist'.scheduled = hist.scheduled)
          ∧ (s'.isLoading = s.isLoading ∧ s'.timing = s.timing)
          ∧ (∀ r ∈ s.state.path, r.epsilonReached = ∅)
          ∧ ∀ r ∈ s'.state.path, r.epsilonReached = ∅ := by
  have h := built_wellFormed hd
  have htr := translates_asNFA h
  refine ⟨d.asNFA, addAll_transitionList h, fun w => ?_, fun hist s hist' s' hin => ?_⟩
  · have heq : d.asNFA.process w = spread (d.process w) := htr.evaluate_eq w
    have hcases : d.process w = .accepted ∨ (∃ c, d.process w = .invalidSymbol c)
      ∨ ∃ q, d.process w = .endedInRejectingState q := evaluateFrom_cases h h.initial w
    rw [heq]
    rcases hcases with hw | ⟨c, hw⟩ | ⟨q, hw⟩
    · exact Or.inl ⟨hw, congrArg spread hw⟩
    · exact Or.inr (Or.inl ⟨c, hw, congrArg spread hw⟩)
    · exact Or.inr (Or.inr ⟨q, hw, congrArg spread hw⟩)
  · obtain ⟨hm, hscheduled⟩ := Simulation.mirrors_of_inStep htr hin
    have hfirst : ∀ r ∈ s.state.path, r.epsilonReached = ∅ :=
      fun r => epsilonReached_of_mem_path (Simulation.reachable_of_inStep hin).1
    -- its records are those of the first simulation, read as sets of one state
    have hsecond : ∀ r ∈ s'.state.path, r.epsilonReached = ∅ := by
      intro r hr
      rw [hm.state] at hr
      obtain ⟨r₀, hr₀, rfl⟩ := List.mem_map.1 hr
      exact hfirst r₀ hr₀
    exact ⟨hm.phase, hm.state, hm.report, ⟨hm.testInput, hm.runInput⟩, ⟨hm.pending, hscheduled⟩,
      ⟨hm.isLoading, hm.timing⟩, hfirst, hsecond⟩

/-- A run of each, from the first tick on by itself. -/
theorem regrown_behaves_as_nfa :
    regrown.Built ∧ ∃ n, (NFA.declare regrown.states regrown.alphabet regrown.initial
          regrown.accepting.toList >>= (·.addAll regrown.transitionList)) = .ok n
      ∧ n.process ['a', 'b'] = .endedInRejectingStates {"1"}
      ∧ ∃ hist s hist' s', Simulation.InStep regrown n hist s hist' s' ∧ s'.phase = .complete
        ∧ s'.state.path.map (·.configuration) = [{"1"}, {"2"}, {"1"}] := by
  obtain ⟨n, hn, hwords, hruns⟩ := behaves_as_nfa regrown_built
  have hrejected : regrown.process ['a', 'b'] = .endedInRejectingState "1" := by decide
  have hrejected' : n.process ['a', 'b'] = .endedInRejectingStates {"1"} := by
    rcases hwords ['a', 'b'] with ⟨h, -⟩ | ⟨c, h, -⟩ | ⟨q, h, h'⟩
    · exact absurd (hrejected.symm.trans h) (by simp)
    · exact absurd (hrejected.symm.trans h) (by simp)
    · obtain rfl := Outcome.endedInRejectingState.inj (hrejected.symm.trans h)
      exact h'
  have hstarted : Simulation.InStep regrown n _ _ _ _ :=
    .act (.act (.new {}) (.setTestInput ['a', 'b'])) .start
  have hfirst : Simulation.InStep regrown n _ (Simulation.act _ (.fire ⟨2, 500⟩)) _
      (Simulation.act _ (.fire ⟨2, 500⟩)) := .act hstarted (.fire ⟨0, rfl, rfl⟩)
  have hdone := Simulation.InStep.act hfirst .drive
  obtain ⟨hphase, hstate, -⟩ := hruns _ _ _ _ hdone
  refine ⟨regrown_built, n, hn, hrejected', _, _, _, _, hdone, hphase.trans ?_, ?_⟩
  · decide +kernel
  · rw [hstate]
    decide +kernel

end DFA

end AutomataLab
