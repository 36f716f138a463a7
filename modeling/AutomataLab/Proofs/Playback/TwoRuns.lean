import AutomataLab.Proofs.Playback.History

/-!
# A run depends only on what its beginning saw

Two simulations with different pasts begin a run at the same word. From there on the same calls are
made in both, except that the test input of either may be edited at any time. What they show stays
the same (`Alike`): nothing that an earlier run, a verdict or an edit has left behind is looked at
before the next run begins.

The numbers of the generations do differ, and with them the ticks. So a firing is the same call in
both if each is given its own pending tick, or each a tick that is not pending (`SameCall`).
-/

namespace AutomataLab.Simulation

open Playback

variable {A C : Type}

/-- Two simulations in the middle of a run that show the same. -/
structure Alike (s s' : Simulation A C) : Prop where
  /-- A run was begun, and has not been given up. -/
  isRunning : s.state.isRunning = true
  /-- Both runs are of the same automaton. -/
  automaton : s'.automaton = s.automaton
  /-- Both runs read the same word, whatever the test inputs are. -/
  runInput : s'.runInput = s.runInput
  /-- A run that is begun from here would be prepared as long. -/
  prepareDelay : s'.timing.prepareDelay = s.timing.prepareDelay
  /-- The position, the path, the flags and the speed are the same. -/
  state : s'.state = s.state
  /-- The same is said about the outcome. -/
  report : s'.report = s.report
  /-- The flag of the preparation is on in both, or in neither. -/
  isLoading : s'.isLoading = s.isLoading
  /-- A tick is pending in both or in none, and after the same delay. -/
  delay : s'.pending.map Tick.delay = s.pending.map Tick.delay

theorem Alike.symm {s s' : Simulation A C} (h : Alike s s') : Alike s' s where
  isRunning := h.state ▸ h.isRunning
  automaton := h.automaton.symm
  runInput := h.runInput.symm
  prepareDelay := h.prepareDelay.symm
  state := h.state.symm
  report := h.report.symm
  isLoading := h.isLoading.symm
  delay := h.delay.symm

theorem Alike.phase {s s' : Simulation A C} (h : Alike s s') : s'.phase = s.phase :=
  congrArg State.phase h.state

/-! ## The clock -/

theorem alike_schedule {s s' : Simulation A C} (h : Alike s s') (delay : Nat) :
    Alike (s.schedule delay) (s'.schedule delay) :=
  { h with delay := rfl }

theorem alike_cancel {s s' : Simulation A C} (h : Alike s s') : Alike s.cancel s'.cancel :=
  { h with delay := rfl }

theorem alike_complete {s s' : Simulation A C} (h : Alike s s') (outcome : Outcome) :
    Alike (s.complete outcome) (s'.complete outcome) :=
  { alike_cancel h with
    state := congrArg (fun st => { st with isComplete := true }) h.state
    report := congrArg (Report.shown outcome) h.runInput }

variable [Acceptor A C]

/-! ## Steps -/

theorem reads_of_alike {s s' : Simulation A C} (h : Alike s s') {c : Char} {rest : List Char}
    {move : Advance C} (hread : s.Reads c rest move) : s'.Reads c rest move where
  next := by rw [h.state, hread.next]
  advance := by rw [h.automaton, h.state, hread.advance]

theorem foreseen_of_alike {s s' : Simulation A C} (h : Alike s s') :
    s'.foreseen = s.foreseen := by
  rw [foreseen, foreseen, h.automaton, h.state]

omit [Acceptor A C] in
theorem alike_read {s s' : Simulation A C} (h : Alike s s') (c : Char) (rest : List Char)
    (move : Advance C) : Alike (s.read c rest move) (s'.read c rest move) :=
  { h with state := congrArg (fun st => st.push c rest move) h.state }

theorem alike_advanceOne {s s' : Simulation A C} (h : Alike s s') :
    Alike s.advanceOne s'.advanceOne := by
  rcases advanceOne_cases s with ⟨hclosed, heq⟩ | ⟨hr, hc, ⟨c, rest, move, hread, heq⟩ | ⟨hstuck, heq⟩⟩
  · rw [← h.state] at hclosed
    rw [heq, advanceOne_of_closed hclosed]
    exact h
  · rw [← h.state] at hr hc
    rw [heq, advanceOne_of_reads hr hc (reads_of_alike h hread)]
    exact alike_read h c rest move
  · -- what one of them reads the other one reads too, so they are stuck together
    have hstuck' : ∀ c rest move, ¬ s'.Reads c rest move :=
      fun c rest move hread => hstuck c rest move (reads_of_alike h.symm hread)
    rw [← h.state] at hr hc
    rw [heq, advanceOne_of_stuck hr hc hstuck', foreseen_of_alike h]
    exact alike_complete h s.foreseen

theorem alike_step {s s' : Simulation A C} (h : Alike s s') : Alike s.step s'.step := by
  have hadv := alike_advanceOne h
  unfold step
  dsimp only
  -- whether a tick is promised, and after which delay, is told by the state
  rw [hadv.phase, hadv.state]
  split
  · exact alike_schedule hadv _
  · exact hadv

/-! ## Calls -/

theorem alike_start {s s' : Simulation A C} (ha : s'.automaton = s.automaton)
    (hi : s'.testInput = s.testInput) (hv : s'.state.speed = s.state.speed)
    (hd : s'.timing.prepareDelay = s.timing.prepareDelay) : Alike s.start s'.start where
  isRunning := rfl
  automaton := ha
  runInput := hi
  prepareDelay := hd
  state := by
    simp only [start, schedule, cancel]
    rw [ha, hi, hv]
  report := rfl
  isLoading := rfl
  delay := congrArg some hd

theorem alike_fire_pending {s s' : Simulation A C} (h : Alike s s') {t t' : Tick}
    (ht : s.pending = some t) (ht' : s'.pending = some t') :
    Alike (s.fire t).1 (s'.fire t').1 := by
  have htaken : Alike s.taken s'.taken := { h with isLoading := rfl, delay := rfl }
  rw [fire_of_pending ht, fire_of_pending ht']
  exact alike_step htaken

omit [Acceptor A C] in
theorem alike_pause {s s' : Simulation A C} (h : Alike s s') : Alike s.pause s'.pause := by
  rw [pause_of_running h.isRunning, pause_of_running h.symm.isRunning]
  exact
    { alike_cancel h with
      state := congrArg (fun st => { st with isPaused := true }) h.state }

theorem alike_resume {s s' : Simulation A C} (h : Alike s s') : Alike s.resume s'.resume := by
  have hfreed : Alike s.freed s'.freed :=
    { alike_cancel h with
      state := congrArg (fun st => { st with isPaused := false }) h.state
      isLoading := rfl }
  rw [resume_of_running h.isRunning, resume_of_running h.symm.isRunning]
  exact alike_step hfreed

theorem alike_stepForward {s s' : Simulation A C} (h : Alike s s') :
    Alike s.stepForward s'.stepForward := by
  have hphase := h.phase
  cases hp : s.phase with
  -- in the middle of a run no other one is begun
  | idle => exact absurd (h.isRunning.symm.trans (phase_eq_idle.1 hp)) (by simp)
  | paused =>
    have hheld : Alike s.held s'.held := { alike_cancel h with isLoading := rfl }
    rw [stepForward, stepForward, hphase, hp]
    exact alike_advanceOne hheld
  | running =>
    rw [stepForward, stepForward, hphase, hp]
    exact h
  | complete =>
    rw [stepForward, stepForward, hphase, hp]
    exact h

omit [Acceptor A C] in
theorem alike_stepBackward {s s' : Simulation A C} (h : Alike s s') :
    Alike s.stepBackward s'.stepBackward := by
  simp only [stepBackward, h.state]
  split
  · exact h
  · split
    · exact { h with state := rfl }
    · exact { h with state := rfl, report := rfl }

omit [Acceptor A C] in
theorem alike_setTestInput {s s' : Simulation A C} (h : Alike s s') (word : List Char) :
    Alike (s.setTestInput word) s' := by
  have hst := state_setTestInput_of_running h.isRunning word
  exact { h with isRunning := hst ▸ h.isRunning, state := h.state.trans hst.symm }

/-! ## Runs side by side -/

/-- The same call in two runs. -/
inductive SameCall (s s' : Simulation A C) : Operation A → Operation A → Prop
  | firePending {t t' : Tick} :
      s.pending = some t → s'.pending = some t' → SameCall s s' (.fire t) (.fire t')
  | fireStale {t t' : Tick} :
      s.pending ≠ some t → s'.pending ≠ some t' → SameCall s s' (.fire t) (.fire t')
  | pause : SameCall s s' .pause .pause
  | resume : SameCall s s' .resume .resume
  | stepForward : SameCall s s' .stepForward .stepForward
  | stepBackward : SameCall s s' .stepBackward .stepBackward
  | setSpeed (ms : Nat) : SameCall s s' (.setSpeed ms) (.setSpeed ms)

/-- What two runs come to that are begun in `s₀` and `s₀'`. Calls are made in both; the test input
of either is edited at any time. -/
inductive SideBySide (s₀ s₀' : Simulation A C) : Simulation A C → Simulation A C → Prop
  | start : SideBySide s₀ s₀' s₀.start s₀'.start
  | call {s s' : Simulation A C} {op op' : Operation A} :
      SideBySide s₀ s₀' s s' → SameCall s s' op op' → SideBySide s₀ s₀' (s.act op) (s'.act op')
  | editFirst {s s' : Simulation A C} (word : List Char) :
      SideBySide s₀ s₀' s s' → SideBySide s₀ s₀' (s.act (.setTestInput word)) s'
  | editSecond {s s' : Simulation A C} (word : List Char) :
      SideBySide s₀ s₀' s s' → SideBySide s₀ s₀' s (s'.act (.setTestInput word))

/-- **The same call keeps two runs alike.** -/
theorem alike_call {s s' : Simulation A C} (h : Alike s s') {op op' : Operation A}
    (hc : SameCall s s' op op') : Alike (s.act op) (s'.act op') := by
  cases hc with
  | firePending ht ht' => exact alike_fire_pending h ht ht'
  | fireStale ht ht' =>
    rw [act, act, fire_of_ne ht, fire_of_ne ht']
    exact h
  | pause => exact alike_pause h
  | resume => exact alike_resume h
  | stepForward => exact alike_stepForward h
  | stepBackward => exact alike_stepBackward h
  | setSpeed ms =>
    exact
      { h with
        state := congrArg (fun st => { st with speed := Timing.clampSpeed ms }) h.state }

theorem alike_of_sideBySide {s₀ s₀' s s' : Simulation A C} (hstart : Alike s₀.start s₀'.start)
    (h : SideBySide s₀ s₀' s s') : Alike s s' := by
  induction h with
  | start => exact hstart
  | call _ hc ih => exact alike_call ih hc
  | editFirst word _ ih => exact alike_setTestInput ih word
  | editSecond word _ ih => exact (alike_setTestInput ih.symm word).symm

/--
**A run depends only on what its beginning saw.**

That is the automaton, the test input, the speed and the delay of the preparation. Two simulations
that agree in these, whatever else was done with them before, show the same throughout their runs,
also when the test input is edited meanwhile. Only the test input and the numbers of the generations
may differ.
-/
theorem run_depends_on_start {s₀ s₀' s s' : Simulation A C}
    (ha : s₀'.automaton = s₀.automaton) (hi : s₀'.testInput = s₀.testInput)
    (hv : s₀'.state.speed = s₀.state.speed)
    (hd : s₀'.timing.prepareDelay = s₀.timing.prepareDelay) (h : SideBySide s₀ s₀' s s') :
    s'.automaton = s.automaton ∧ s'.state = s.state ∧ s'.report = s.report
      ∧ s'.isLoading = s.isLoading ∧ s'.phase = s.phase
      ∧ s'.pending.isSome = s.pending.isSome
      ∧ s'.pending.map Tick.delay = s.pending.map Tick.delay
      ∧ s'.runInput = s.runInput ∧ s'.timing.prepareDelay = s.timing.prepareDelay := by
  have hs := alike_of_sideBySide (alike_start ha hi hv hd) h
  have hsome : s'.pending.isSome = s.pending.isSome := by
    simpa using congrArg Option.isSome hs.delay
  exact ⟨hs.automaton, hs.state, hs.report, hs.isLoading, hs.phase, hsome, hs.delay, hs.runInput,
    hs.prepareDelay⟩

/-- The second simulation has a complete run at another speed behind it, and an input that was
refused; during its run the test input is edited. -/
theorem parity_runs_alike :
    let s₀ := (perform [] (new parity {}) [.setTestInput ['a', 'c']]).2
    let s₀' := (perform [] (new parity ⟨250, 500⟩) [.submitInput ['c'], .fire ⟨2, 500⟩,
      .submitInput [], .setSpeed 500, .setTestInput ['a', 'c']]).2
    let s := (((s₀.start.act (.fire ⟨2, 500⟩)).act .pause).act (.fire ⟨3, 500⟩)).act .stepForward
    let s' := (((((s₀'.start.act (.fire ⟨5, 500⟩)).act (.setTestInput ['b'])).act .pause).act
      (.fire ⟨6, 500⟩)).act (.setTestInput [])).act .stepForward
    SideBySide s₀ s₀' s s' ∧ s'.state = s.state ∧ s'.report = s.report
      ∧ s.report = .shown (.invalidSymbol 'c') ['a', 'c']
      ∧ s'.testInput ≠ s.testInput ∧ s'.generation ≠ s.generation := by
  intro s₀ s₀' s s'
  have hside : SideBySide s₀ s₀' s s' := by
    have hbegan : SideBySide s₀ s₀' _ _ := .start
    have ht : s₀.start.pending = some ⟨2, 500⟩ := by decide
    have ht' : s₀'.start.pending = some ⟨5, 500⟩ := by decide
    have hpaused := SideBySide.call (.editSecond ['b'] (.call hbegan (.firePending ht ht'))) .pause
    -- by now both ticks have been cancelled
    have hgone : ((s₀.start.act (.fire ⟨2, 500⟩)).act .pause).pending ≠ some ⟨3, 500⟩ := by decide
    have hgone' : (((s₀'.start.act (.fire ⟨5, 500⟩)).act (.setTestInput ['b'])).act .pause).pending
        ≠ some ⟨6, 500⟩ := by decide
    exact .call (.editSecond [] (.call hpaused (.fireStale hgone hgone'))) .stepForward
  have ha : s₀'.automaton = s₀.automaton := by decide
  obtain ⟨_, hstate, hreport, _⟩ :=
    run_depends_on_start ha (by decide) (by decide) (by decide) hside
  exact ⟨hside, hstate, hreport, by decide, by decide, by decide⟩

end AutomataLab.Simulation
