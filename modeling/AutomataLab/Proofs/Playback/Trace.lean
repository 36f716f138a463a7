import AutomataLab.Proofs.Playback.History

/-!
# A run follows the trace of its word

`trace a w` is what reading `w` with the automaton `a` looks like, record by record, and is defined
without any simulation. A simulation keeps the same information three times over: the path, the
position in the word, and the word itself. `Traced` says that the three agree with the trace, and
every operation preserves it, edits of the input and of the automaton in the middle of a run
included.

The invariant is about the word that the run was begun over. That this is the word which the
history tells is a fact of its own (`runInput_eq_word`).
-/

namespace AutomataLab.Simulation

open Playback

variable {A C : Type} [Acceptor A C]

/-! ## The trace -/

/-- Record `i` of reading a word, if the word can be read that far. -/
def trace (a : A) (w : List Char) : Nat → Option (Step C)
  | 0 => some (State.firstStep a w)
  | i + 1 => do
    let r ← trace a w i
    let c ← w[i]?
    match Acceptor.advance a r.configuration c with
    | .ok move => some {
        configuration := move.configuration
        symbol := some c
        source := some r.configuration
        processed := w.take (i + 1)
        remaining := w.drop (i + 1)
        transitions := move.transitions
        epsilonReached := move.epsilonReached }
    | .error _ => none

theorem trace_succ {a : A} {w : List Char} {i : Nat} {r : Step C} {c : Char} {move : Advance C}
    (hr : trace a w i = some r) (hc : w[i]? = some c)
    (hm : Acceptor.advance a r.configuration c = .ok move) :
    trace a w (i + 1) = some {
      configuration := move.configuration
      symbol := some c
      source := some r.configuration
      processed := w.take (i + 1)
      remaining := w.drop (i + 1)
      transitions := move.transitions
      epsilonReached := move.epsilonReached } := by
  rw [trace, hr, hc]
  simp [hm]

/-- A record after the first one tells the move from the record before it. -/
theorem eq_of_trace_succ {a : A} {w : List Char} {i : Nat} {r' : Step C}
    (h : trace a w (i + 1) = some r') :
    ∃ (r : Step C) (c : Char) (move : Advance C), trace a w i = some r ∧ w[i]? = some c
      ∧ Acceptor.advance a r.configuration c = .ok move
      ∧ r' = {
        configuration := move.configuration
        symbol := some c
        source := some r.configuration
        processed := w.take (i + 1)
        remaining := w.drop (i + 1)
        transitions := move.transitions
        epsilonReached := move.epsilonReached } := by
  rw [trace] at h
  obtain ⟨r, hr, h⟩ := Option.bind_eq_some_iff.1 h
  obtain ⟨c, hc, h⟩ := Option.bind_eq_some_iff.1 h
  cases hm : Acceptor.advance a r.configuration c with
  | error outcome => simp [hm] at h
  | ok move =>
    simp only [hm, Option.some.injEq] at h
    exact ⟨r, c, move, hr, hc, hm, h.symm⟩

/-- A record after the first one comes from the record before it by reading a character. -/
theorem trace_succ_cases {a : A} {w : List Char} {i : Nat} {r' : Step C}
    (h : trace a w (i + 1) = some r') :
    ∃ (r : Step C) (c : Char) (move : Advance C), trace a w i = some r ∧ w[i]? = some c
      ∧ Acceptor.advance a r.configuration c = .ok move
      ∧ r'.configuration = move.configuration
      ∧ r'.processed = w.take (i + 1) ∧ r'.remaining = w.drop (i + 1) := by
  obtain ⟨r, c, move, hr, hc, hm, rfl⟩ := eq_of_trace_succ h
  exact ⟨r, c, move, hr, hc, hm, rfl, rfl, rfl⟩

/-- A record tells how much of the word has been read. -/
theorem trace_position {a : A} {w : List Char} {i : Nat} {r : Step C} (h : trace a w i = some r) :
    r.processed = w.take i ∧ r.remaining = w.drop i := by
  cases i with
  | zero =>
    rw [trace] at h
    obtain rfl := Option.some.inj h
    exact ⟨rfl, rfl⟩
  | succ i =>
    obtain ⟨_, _, _, _, _, _, _, hp, hrem⟩ := trace_succ_cases h
    exact ⟨hp, hrem⟩

/-- What is left of a word begins with the next character. -/
theorem drop_eq_cons_iff {w : List Char} {i : Nat} {c : Char} {rest : List Char} :
    w.drop i = c :: rest ↔ w[i]? = some c ∧ w.drop (i + 1) = rest := by
  constructor
  · intro h
    rw [← List.head?_drop, ← List.tail_drop, h]
    exact ⟨rfl, rfl⟩
  · rintro ⟨hc, rfl⟩
    obtain ⟨hi, rfl⟩ := List.getElem?_eq_some_iff.1 hc
    exact List.drop_eq_getElem_cons hi

/-- Reading on from any record comes to the same as reading the whole word. -/
theorem evaluate_eq_of_trace {a : A} {w : List Char} {i : Nat} {r : Step C}
    (h : trace a w i = some r) :
    Acceptor.evaluate a w = Acceptor.evaluateFrom a r.configuration r.remaining := by
  induction i generalizing r with
  | zero =>
    rw [trace] at h
    obtain rfl := Option.some.inj h
    rfl
  | succ i ih =>
    obtain ⟨r₀, c, move, hr₀, hc, hm, hconf, _, hrem⟩ := trace_succ_cases h
    -- the record before it foresees the same, and its next character leads here
    rw [ih hr₀, (trace_position hr₀).2, drop_eq_cons_iff.2 ⟨hc, rfl⟩, hconf, hrem]
    simp [Acceptor.evaluateFrom, hm]

/-! ## States on the trace -/

/-- The path is the beginning of the trace, and the position is that of its last record. -/
structure OnTrace (a : A) (w : List Char) (st : State C) : Prop where
  /-- The path holds the records up to the current step. -/
  path : st.path.map some = (List.range (st.currentStep + 1)).map (trace a w)
  /-- The position is that of the current step. -/
  position : ∃ r, trace a w st.currentStep = some r ∧ st.configuration = r.configuration
    ∧ st.processed = r.processed ∧ st.remaining = r.remaining

/-- The last of the first records of the trace. -/
theorem getLast?_of_records {a : A} {w : List Char} {path : List (Step C)} {n : Nat} {r : Step C}
    (h : path.map some = (List.range (n + 1)).map (trace a w)) (hr : trace a w n = some r) :
    path.getLast? = some r := by
  -- seen as optional records both lists have the same last member
  have hl := congrArg List.getLast? h
  rw [List.range_succ, List.map_append, List.map_singleton, List.getLast?_concat,
    List.getLast?_map, hr] at hl
  obtain ⟨x, hx, hxr⟩ := Option.map_eq_some_iff.1 hl
  rw [hx, hxr]

theorem onTrace_started (a : A) (w : List Char) (speed : Nat) :
    OnTrace a w (State.started a w speed) where
  path := rfl
  position := ⟨State.firstStep a w, rfl, rfl, rfl, rfl⟩

theorem onTrace_push {a : A} {w : List Char} {st : State C} {c : Char} {rest : List Char}
    {move : Advance C} (h : OnTrace a w st) (hrem : st.remaining = c :: rest)
    (hm : Acceptor.advance a st.configuration c = .ok move) :
    OnTrace a w (st.push c rest move) := by
  obtain ⟨r, hr, hconf, hproc, hrest⟩ := h.position
  obtain ⟨hp, hd⟩ := trace_position hr
  -- the next character of the word is the one that is read
  have hdrop : w.drop st.currentStep = c :: rest := by rw [← hd, ← hrest, hrem]
  obtain ⟨hc, hdrop'⟩ := drop_eq_cons_iff.1 hdrop
  have htake : w.take (st.currentStep + 1) = st.processed ++ [c] := by
    rw [List.take_add_one, hc, hproc, hp]
    rfl
  have hnext := trace_succ hr hc (by rw [← hconf]; exact hm)
  rw [htake, hdrop', ← hconf] at hnext
  refine ⟨?_, _, hnext, rfl, rfl, rfl⟩
  simp only [State.push, List.map_append, List.map_singleton]
  rw [List.range_succ, List.map_append, List.map_singleton, hnext, h.path]

/-- After the first step there is always a record to go back to. -/
theorem onTrace_dropLast {a : A} {w : List Char} {st : State C} {n : Nat} (h : OnTrace a w st)
    (hn : st.currentStep = n + 1) :
    st.path.dropLast.map some = (List.range (n + 1)).map (trace a w)
      ∧ ∃ r, trace a w n = some r := by
  obtain ⟨r', hr', _⟩ := h.position
  rw [hn] at hr'
  -- a record comes from the record before it, so that one exists
  obtain ⟨r, _, _, hr, _⟩ := trace_succ_cases hr'
  refine ⟨?_, r, hr⟩
  rw [List.map_dropLast, h.path, hn, List.range_succ (n := n + 1), List.map_append,
    List.map_singleton, List.dropLast_concat]

theorem onTrace_restore {a : A} {w : List Char} {st : State C} {n : Nat} {r : Step C}
    (h : OnTrace a w st) (hn : st.currentStep = n + 1) (hr : trace a w n = some r) :
    OnTrace a w (st.restore st.path.dropLast r) := by
  have hstep : (st.restore st.path.dropLast r).currentStep = n := by simp [State.restore, hn]
  refine ⟨?_, r, ?_, rfl, rfl, rfl⟩
  · rw [hstep]
    exact (onTrace_dropLast h hn).1
  · rw [hstep]
    exact hr

/-! ## The invariant -/

/-- A run is on the trace of its word, and without a run the state is the idle one. -/
structure Traced (s : Simulation A C) : Prop where
  /-- A run is somewhere on the trace of the word it was begun over. -/
  running : s.state.isRunning = true → OnTrace s.automaton s.runInput s.state
  /-- Without a run nothing of the test input has been read. -/
  idle : s.state.isRunning = false →
    s.state = State.idle s.automaton s.testInput s.state.speed

theorem traced_of_running {s : Simulation A C} (hr : s.state.isRunning = true)
    (h : OnTrace s.automaton s.runInput s.state) : Traced s where
  running := fun _ => h
  idle := fun hf => absurd (hr.symm.trans hf) (by simp)

theorem traced_init (a : A) (timing : Timing) : Traced (new a timing) where
  running := fun h => absurd h (by simp [new, State.idle])
  idle := fun _ => rfl

/-! ## Preservation -/

theorem traced_setTestInput {s : Simulation A C} (h : Traced s) (word : List Char) :
    Traced (s.setTestInput word) := by
  cases hr : s.state.isRunning with
  | true =>
    have hst := state_setTestInput_of_running hr word
    refine traced_of_running (by rw [hst]; exact hr) ?_
    rw [hst]
    exact h.running hr
  | false =>
    have hst := state_setTestInput_of_not_running hr word
    refine ⟨fun hf => absurd hf (by simp [hst, hr]), fun _ => ?_⟩
    rw [hst, h.idle hr]
    rfl

theorem traced_start (s : Simulation A C) : Traced s.start :=
  traced_of_running rfl (onTrace_started s.automaton s.testInput s.state.speed)

theorem traced_stop (s : Simulation A C) : Traced s.stop where
  running := fun h => absurd h (by simp [stop, State.idle])
  idle := fun _ => rfl

theorem traced_advanceOne {s : Simulation A C} (h : Traced s) : Traced s.advanceOne := by
  refine advanceOne_elim h (fun c rest move hr hread => ?_) (fun hr _ => ?_)
  · exact traced_of_running hr (onTrace_push (h.running hr) hread.next hread.advance)
  · -- the verdict is found without moving
    have hon := h.running hr
    exact traced_of_running hr ⟨hon.path, hon.position⟩

theorem traced_step {s : Simulation A C} (h : Traced s) : Traced s.step := by
  have hadv := traced_advanceOne h
  exact step_elim hadv fun _ => ⟨hadv.running, hadv.idle⟩

theorem traced_fire {s : Simulation A C} (h : Traced s) (t : Tick) : Traced (s.fire t).1 :=
  fire_elim h fun _ => traced_step ⟨h.running, h.idle⟩

theorem traced_resume {s : Simulation A C} (h : Traced s) : Traced s.resume := by
  refine resume_elim h fun hr => ?_
  have hon := h.running hr
  exact traced_step (traced_of_running hr ⟨hon.path, hon.position⟩)

theorem traced_pause {s : Simulation A C} (h : Traced s) : Traced s.pause := by
  refine pause_elim h fun hr => ?_
  have hon := h.running hr
  exact traced_of_running hr ⟨hon.path, hon.position⟩

theorem traced_stepForward {s : Simulation A C} (h : Traced s) :
    Traced (s.act .stepForward) := by
  rcases act_stepForward_cases s with ⟨_, heq⟩ | ⟨_, heq⟩ | ⟨_, _, heq⟩
  · rw [heq]
    exact traced_start s
  · rw [heq]
    exact traced_advanceOne (s := s.held) ⟨h.running, h.idle⟩
  · rw [heq]
    exact h

/-- After the first step of a run, going back leads to the record before the last one. -/
theorem stepBackward_of_succ {s : Simulation A C} (h : Traced s)
    (hr : s.state.isRunning = true) {n : Nat} (hn : s.state.currentStep = n + 1) :
    ∃ r, trace s.automaton s.runInput n = some r ∧ s.stepBackward =
      { s with state := s.state.restore s.state.path.dropLast r, report := .hidden } := by
  obtain ⟨hpath, r, htr⟩ := onTrace_dropLast (h.running hr) hn
  -- what is left of the path is not empty, so going back finds a record at its end
  have hlast := getLast?_of_records hpath htr
  exact ⟨r, htr, by simp [stepBackward, hn, hr, hlast]⟩

/-- Going back does nothing at the beginning, and otherwise leads to the record before the last
one. -/
theorem stepBackward_cases {s : Simulation A C} (h : Traced s) :
    s.stepBackward = s
      ∨ (s.state.isRunning = true ∧ ∃ n r, s.state.currentStep = n + 1
        ∧ trace s.automaton s.runInput n = some r
        ∧ s.stepBackward =
          { s with state := s.state.restore s.state.path.dropLast r, report := .hidden }) := by
  cases hr : s.state.isRunning with
  | false =>
    left
    simp [stepBackward, hr]
  | true =>
    cases hn : s.state.currentStep with
    | zero =>
      left
      simp [stepBackward, hn]
    | succ n =>
      obtain ⟨r, htr, heq⟩ := stepBackward_of_succ h hr hn
      exact Or.inr ⟨rfl, n, r, rfl, htr, heq⟩

theorem traced_stepBackward {s : Simulation A C} (h : Traced s) : Traced s.stepBackward := by
  rcases stepBackward_cases h with heq | ⟨hr, n, r, hn, htr, heq⟩
  · rw [heq]
    exact h
  · rw [heq]
    exact traced_of_running hr (onTrace_restore (h.running hr) hn htr)

theorem traced_setSpeed {s : Simulation A C} (h : Traced s) (ms : Nat) :
    Traced (s.setSpeed ms) where
  running := fun hr => ⟨(h.running hr).path, (h.running hr).position⟩
  idle := fun hr => by
    have hst := h.idle hr
    simp only [setSpeed]
    rw [hst]
    rfl

/-- **The trace invariant is preserved by every operation.** -/
theorem traced_act {s : Simulation A C} (h : Traced s) (op : Operation A) : Traced (s.act op) := by
  cases op with
  | setTestInput word => exact traced_setTestInput h word
  | submitInput word =>
    by_cases hw : word = []
    · subst hw
      have hset := traced_setTestInput h []
      exact ⟨hset.running, hset.idle⟩
    · rw [act_submitInput s hw]
      exact traced_start _
  | start => exact traced_start s
  | fire t => exact traced_fire h t
  | pause => exact traced_pause h
  | resume => exact traced_resume h
  | stepForward => exact traced_stepForward h
  | stepBackward => exact traced_stepBackward h
  | stop => exact traced_stop s
  | setSpeed ms => exact traced_setSpeed h ms
  | setAutomaton a => exact traced_stop _
  | drive => exact driven_induction (P := Traced) (fun _ t _ hs => traced_fire hs t) s h

theorem traced_reachable {h : History A C} {s : Simulation A C} (hr : Reachable h s) :
    Traced s := by
  induction hr with
  | init a timing => exact traced_init a timing
  | act op _ ih => exact traced_act ih op

/-- Each record that is shown is one of the trace. -/
theorem exists_trace_of_mem_path {s : Simulation A C} (ht : Traced s) {r : Step C}
    (hr : r ∈ s.state.path) : ∃ i, trace s.automaton s.runInput i = some r := by
  cases hrun : s.state.isRunning with
  | true =>
    have hmem : some r ∈ s.state.path.map some := List.mem_map_of_mem hr
    rw [(ht.running hrun).path] at hmem
    obtain ⟨i, -, hi⟩ := List.mem_map.1 hmem
    exact ⟨i, hi⟩
  | false =>
    rw [ht.idle hrun] at hr
    exact absurd hr List.not_mem_nil

/--
**A run shows the beginning of the trace of its word.**

The automaton is the one that is in the simulation now, the word is the test input as it was when
the last run was begun. Without a run the simulation shows the initial configuration and all of
the test input.
-/
theorem run_follows_trace {h : History A C} {s : Simulation A C} (hr : Reachable h s) :
    (s.state.isRunning = true →
        s.state.path.map some
            = (List.range (s.state.currentStep + 1)).map (trace s.automaton h.word)
          ∧ (∃ r, s.state.path.getLast? = some r ∧ s.state.configuration = r.configuration
            ∧ s.state.processed = r.processed ∧ s.state.remaining = r.remaining)
          ∧ s.state.processed ++ s.state.remaining = h.word)
      ∧ (s.state.isRunning = false →
        s.state = State.idle s.automaton s.testInput s.state.speed) := by
  have ht := traced_reachable hr
  refine ⟨fun hrun => ?_, ht.idle⟩
  have hon := ht.running hrun
  -- the invariant is about the word in the simulation; the history tells which one that is
  rw [runInput_eq_word hr] at hon
  obtain ⟨r, htr, hconf, hproc, hrem⟩ := hon.position
  have hlast := getLast?_of_records hon.path htr
  refine ⟨hon.path, ⟨r, hlast, hconf, hproc, hrem⟩, ?_⟩
  obtain ⟨hp, hd⟩ := trace_position htr
  rw [hproc, hrem, hp, hd, List.take_append_drop]

/-- The input is edited in the middle of the run, and a step is taken and taken back. -/
theorem parity_run_follows_trace :
    let ops : List (Operation DFA) := [.setTestInput ['a', 'b', 'a'], .start, .fire ⟨2, 500⟩,
      .setTestInput ['b'], .pause, .stepForward, .stepBackward]
    let p := perform [] (new parity {}) ops
    p.2.state.isRunning = true ∧ p.1.word = ['a', 'b', 'a']
      ∧ p.2.state.path.map some = (List.range 2).map (trace p.2.automaton ['a', 'b', 'a']) := by
  intro ops p
  have hr : Reachable p.1 p.2 := reachable_perform (.init parity {}) ops
  have hrun : p.2.state.isRunning = true := by decide
  have hword : p.1.word = ['a', 'b', 'a'] := by decide
  have hstep : p.2.state.currentStep = 1 := by decide
  have h := ((run_follows_trace hr).1 hrun).1
  rw [hword, hstep] at h
  exact ⟨hrun, hword, h⟩

end AutomataLab.Simulation
