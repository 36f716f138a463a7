import AutomataLab.Proofs.Automaton.Singletons
import AutomataLab.Proofs.Coincidence
import AutomataLab.Proofs.Playback.Verdict

/-!
# Reading a word folds the moves of its characters

A deterministic automaton that can come up has a move for each declared state and each symbol, and
the move leads to a declared state. So from a declared state it gets through any characters of the
alphabet, and it is then where the moves of these characters lead, one after the other
(`evaluateFrom_append`). Nothing but an unknown character stops it; that there is a way to report a
state without a move is never made use of.

The same holds of playbacks. A playback is always in a configuration that comes up for the automaton
which it has at that time, whatever automata it had before (`met_of_traced`), and such
configurations are declared states (`mem_states_of_met`).
-/

namespace AutomataLab

namespace Simulation

variable {A C : Type} [Acceptor A C]

/-- What a playback shows are configurations that come up for the automaton it has. -/
theorem met_of_traced {s : Simulation A C} (ht : Traced s) :
    Acceptor.Met s.automaton s.state.configuration
      ∧ ∀ r ∈ s.state.path, Acceptor.Met s.automaton r.configuration := by
  constructor
  · cases hrun : s.state.isRunning with
    -- a running playback stands at a record of the trace
    | true =>
      obtain ⟨r, hr, hconf, _⟩ := (ht.running hrun).position
      rw [hconf]
      exact .of_trace hr
    -- an idle one has gone back to the start, also after the automaton was replaced
    | false =>
      rw [ht.idle hrun]
      exact .initial
  · intro r hr
    obtain ⟨i, hi⟩ := exists_trace_of_mem_path ht hr
    exact .of_trace hi

end Simulation

namespace DFA

section

variable {d : DFA} {q : String}

/-- **From a declared state the characters of the alphabet lead where their moves lead one after the
other, and reading goes on from there.** -/
theorem evaluateFrom_append (h : d.WellFormed) (hq : q ∈ d.states) {u : List Char}
    (hu : ∀ c ∈ u, c ∈ d.alphabet) :
    ∃ r ∈ d.states, u.foldlM d.next q = .ok r
      ∧ ∀ v, Acceptor.evaluateFrom d q (u ++ v) = Acceptor.evaluateFrom d r v := by
  induction u generalizing q with
  | nil => exact ⟨q, hq, rfl, fun v => rfl⟩
  | cons c rest ih =>
    obtain ⟨hc, hrest⟩ := List.forall_mem_cons.1 hu
    -- full tables are what makes this a fold: there is a move here, and it leads to a declared
    -- state
    obtain ⟨p, hp⟩ := h.exists_target? hq hc
    obtain ⟨r, hr, hfold, heval⟩ := ih (h.of_target? hp).2.2 hrest
    refine ⟨r, hr, ?_, fun v => ?_⟩
    · rw [List.foldlM_cons, next_of_target? hc hp]
      exact hfold
    · rw [List.cons_append, Acceptor.evaluateFrom, advance_of_target? hc hp]
      exact heval v

/-- Where the moves of a known word lead decides on it. -/
theorem process_of_known (h : d.WellFormed) {w : List Char} (hw : ∀ c ∈ w, c ∈ d.alphabet) :
    ∃ r ∈ d.states, w.foldlM d.next d.initial = .ok r ∧ d.process w = Acceptor.verdict d r := by
  obtain ⟨r, hr, hfold, heval⟩ := evaluateFrom_append h h.initial hw
  have hend := heval []
  rw [List.append_nil] at hend
  exact ⟨r, hr, hfold, hend⟩

/-- The first unknown character of a word is reported. -/
theorem process_of_unknown (h : d.WellFormed) {w : List Char} {c : Char}
    (hw : w.find? (· ∉ d.alphabet) = some c) : d.process w = .invalidSymbol c := by
  obtain ⟨hc, u, v, rfl, hu⟩ := List.find?_eq_some_iff_append.1 hw
  have hknown : ∀ a ∈ u, a ∈ d.alphabet := fun a ha => by simpa using hu a ha
  -- what comes before it is read, so it is the character that reading stops at
  obtain ⟨r, _, _, heval⟩ := evaluateFrom_append h h.initial hknown
  have hend := heval (c :: v)
  rw [Acceptor.evaluateFrom, advance_of_notMem (of_decide_eq_true hc)] at hend
  exact hend

/-- No word ends without a move, or in a set of states. -/
theorem process_ne (h : d.WellFormed) (w : List Char) :
    (∀ source c, d.process w ≠ .noValidTransition source c)
      ∧ ∀ states, d.process w ≠ .endedInRejectingStates states := by
  have hcases : d.process w = .accepted ∨ (∃ c, d.process w = .invalidSymbol c)
    ∨ ∃ q, d.process w = .endedInRejectingState q := evaluateFrom_cases h h.initial w
  rcases hcases with hw | ⟨c, hw⟩ | ⟨q, hw⟩ <;> simp [hw]

/-- The configurations that come up are declared states. -/
theorem mem_states_of_met (h : d.WellFormed) (hq : Acceptor.Met d q) : q ∈ d.states := by
  induction hq with
  | initial => exact h.initial
  | @advance p c move _ hmove ih =>
    by_cases hc : c ∈ d.alphabet
    · obtain ⟨r, hr⟩ := h.exists_target? ih hc
      rw [advance_of_target? hc hr] at hmove
      obtain rfl := Except.ok.inj hmove
      exact (h.of_target? hr).2.2
    · -- no move was made on an unknown character
      exact absurd (hmove.symm.trans (advance_of_notMem hc)) (by simp)

end

/--
**Reading a word folds the moves of its characters, and nothing but an unknown character stops it.**

Whatever the history of the automaton: a word over the alphabet is decided by the state that its
moves lead to from the initial state, one after the other, and this is a declared state. Any other
word is refused with the first of its characters that is not in the alphabet. No word ends for want
of a move, or in a set of states. Nor does any playback that has this automaton now, whatever it had
before; and all that it shows are declared states of the automaton.
-/
theorem process_folds {d : DFA} (hd : d.Built) :
    (∀ w, (∀ c ∈ w, c ∈ d.alphabet) →
        ∃ q ∈ d.states, w.foldlM d.next d.initial = .ok q
          ∧ (d.isAccepting q = true → d.process w = .accepted)
          ∧ (d.isAccepting q = false → d.process w = .endedInRejectingState q))
      ∧ (∀ w c, w.find? (· ∉ d.alphabet) = some c → d.process w = .invalidSymbol c)
      ∧ (∀ w, (∀ source c, d.process w ≠ .noValidTransition source c)
        ∧ ∀ states, d.process w ≠ .endedInRejectingStates states)
      ∧ ∀ hist (s : Simulation DFA String), Simulation.Reachable hist s → s.automaton = d →
        (∀ source c, s.report.outcome ≠ some (.noValidTransition source c))
          ∧ (∀ states, s.report.outcome ≠ some (.endedInRejectingStates states))
          ∧ s.state.configuration ∈ d.states ∧ ∀ r ∈ s.state.path, r.configuration ∈ d.states := by
  have h := built_wellFormed hd
  refine ⟨fun w hw => ?_, fun w c hc => process_of_unknown h hc, process_ne h, ?_⟩
  · obtain ⟨q, hq, hfold, hprocess⟩ := process_of_known h hw
    rw [hprocess]
    exact ⟨q, hq, hfold, fun ha => if_pos ha, fun ha => if_neg (by simp [ha])⟩
  · rintro hist s hr rfl
    -- an outcome that is shown is that of a word
    have hshown : ∀ o, s.report.outcome = some o → o = s.automaton.process s.runInput :=
      fun o => (Simulation.judged_reachable hr).outcome_eq
    obtain ⟨hconf, hpath⟩ := Simulation.met_of_traced (Simulation.traced_reachable hr)
    refine ⟨fun source c ho => ?_, fun states ho => ?_, mem_states_of_met h hconf,
      fun r hmem => mem_states_of_met h (hpath r hmem)⟩
    · exact (process_ne h _).1 source c (hshown _ ho).symm
    · exact (process_ne h _).2 states (hshown _ ho).symm

/-- The automaton is put in place of another one in the middle of a run. -/
theorem regrown_process_folds :
    let ops : List (Operation DFA) := [.submitInput ['a', 'b'], .fire ⟨2, 500⟩,
      .setAutomaton regrown, .submitInput ['a', 'a', 'b'], .drive]
    let p := Simulation.perform [] (Simulation.new Simulation.parity {}) ops
    regrown.Built
      ∧ ['a', 'b'].foldlM regrown.next "1" = .ok "1"
      ∧ regrown.process ['a', 'b'] = .endedInRejectingState "1"
      ∧ regrown.process ['a', 'c', 'd'] = .invalidSymbol 'c'
      ∧ p.2.report.outcome = some (.endedInRejectingState "1") ∧ p.2.automaton = regrown
      ∧ (∀ source c, p.2.report.outcome ≠ some (.noValidTransition source c))
      ∧ ∀ r ∈ p.2.state.path, r.configuration ∈ regrown.states := by
  intro ops p
  have hr : Simulation.Reachable p.1 p.2 :=
    Simulation.reachable_perform (.init Simulation.parity {}) ops
  obtain ⟨hfolds, hunknown, -, hplayed⟩ := process_folds regrown_built
  obtain ⟨q, -, hfold, -, hrejected⟩ := hfolds ['a', 'b'] (by simp [regrown])
  have hone : ['a', 'b'].foldlM regrown.next "1" = .ok "1" := by decide +kernel
  obtain rfl := Except.ok.inj (hone.symm.trans hfold)
  have hautomaton : p.2.automaton = regrown := by decide +kernel
  obtain ⟨hmoves, -, -, hshown⟩ := hplayed p.1 p.2 hr hautomaton
  exact ⟨regrown_built, hone, hrejected rfl, hunknown _ _ rfl, by decide +kernel,
    hautomaton, hmoves, hshown⟩

end DFA

end AutomataLab
