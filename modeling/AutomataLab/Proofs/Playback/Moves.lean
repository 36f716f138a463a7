import AutomataLab.Playback.Simulation

/-!
# What a simulation can do in one step

`advanceOne` either does nothing, reads one character, or finds the verdict; `advanceOne_cases`
says which and when, and everything else about steps is derived from it. `fire` either keeps the
promise of the pending tick or does nothing at all, and `drive` is nothing but firings, one after
the other (`drive_of_some`), so what a firing preserves a drive preserves (`driven_induction`).
An invariant need not look into these functions: `step_elim`, `fire_elim`, `pause_elim` and
`resume_elim` ask it about the simulations that they can lead to.
-/

namespace AutomataLab.Simulation

open Playback

variable {A C : Type}

/-! ## Phases, read off the three flags -/

theorem phase_eq_running {s : Simulation A C} : s.phase = .running ↔
    s.state.isRunning = true ∧ s.state.isPaused = false ∧ s.state.isComplete = false := by
  cases hr : s.state.isRunning <;> cases hp : s.state.isPaused <;>
    cases hc : s.state.isComplete <;> simp [phase, State.phase, hr, hp, hc]

theorem phase_eq_paused {s : Simulation A C} : s.phase = .paused ↔
    s.state.isRunning = true ∧ s.state.isPaused = true ∧ s.state.isComplete = false := by
  cases hr : s.state.isRunning <;> cases hp : s.state.isPaused <;>
    cases hc : s.state.isComplete <;> simp [phase, State.phase, hr, hp, hc]

theorem phase_eq_complete {s : Simulation A C} : s.phase = .complete ↔
    s.state.isRunning = true ∧ s.state.isComplete = true := by
  cases hr : s.state.isRunning <;> cases hp : s.state.isPaused <;>
    cases hc : s.state.isComplete <;> simp [phase, State.phase, hr, hp, hc]

theorem phase_eq_idle {s : Simulation A C} : s.phase = .idle ↔ s.state.isRunning = false := by
  cases hr : s.state.isRunning <;> cases hp : s.state.isPaused <;>
    cases hc : s.state.isComplete <;> simp [phase, State.phase, hr, hp, hc]

/-! ## Edits of the test input -/

/-- In the middle of a run the test input is no part of the state. -/
theorem state_setTestInput_of_running {s : Simulation A C} (hr : s.state.isRunning = true)
    (word : List Char) : (s.setTestInput word).state = s.state := by
  simp [setTestInput, hr]

/-- Without a run the test input is all that remains to be read. -/
theorem state_setTestInput_of_not_running {s : Simulation A C} (hr : s.state.isRunning = false)
    (word : List Char) : (s.setTestInput word).state = { s.state with remaining := word } := by
  simp [setTestInput, hr]

theorem phase_setTestInput (s : Simulation A C) (word : List Char) :
    (s.setTestInput word).phase = s.phase := by
  cases hr : s.state.isRunning <;> simp [phase, State.phase, setTestInput, hr]

theorem speed_setTestInput (s : Simulation A C) (word : List Char) :
    (s.setTestInput word).state.speed = s.state.speed := by
  cases hr : s.state.isRunning <;> simp [setTestInput, hr]

theorem processed_setTestInput (s : Simulation A C) (word : List Char) :
    (s.setTestInput word).state.processed = s.state.processed := by
  cases hr : s.state.isRunning <;> simp [setTestInput, hr]

/-! ## The lasting parts -/

/-- The parts of a simulation that no step changes. -/
structure Frame (s s' : Simulation A C) : Prop where
  /-- The automaton is only replaced from outside. -/
  automaton : s'.automaton = s.automaton
  /-- The test input is only edited from outside. -/
  testInput : s'.testInput = s.testInput
  /-- The word of a run is fixed when the run begins. -/
  runInput : s'.runInput = s.runInput
  /-- The timing was given with the new simulation. -/
  timing : s'.timing = s.timing
  /-- The speed is only chosen from outside. -/
  speed : s'.state.speed = s.state.speed

theorem Frame.refl (s : Simulation A C) : Frame s s := ⟨rfl, rfl, rfl, rfl, rfl⟩

theorem Frame.trans {s₁ s₂ s₃ : Simulation A C} (h₁ : Frame s₁ s₂) (h₂ : Frame s₂ s₃) :
    Frame s₁ s₃ where
  automaton := h₂.automaton.trans h₁.automaton
  testInput := h₂.testInput.trans h₁.testInput
  runInput := h₂.runInput.trans h₁.runInput
  timing := h₂.timing.trans h₁.timing
  speed := h₂.speed.trans h₁.speed

/-- The simulation as a resumption finds it when it takes its step. -/
def freed (s : Simulation A C) : Simulation A C :=
  { s.cancel with state := { s.state with isPaused := false }, isLoading := false }

/-- The simulation as a step by hand finds it. -/
def held (s : Simulation A C) : Simulation A C := { s.cancel with isLoading := false }

theorem pause_of_running {s : Simulation A C} (hr : s.state.isRunning = true) :
    s.pause = { s.cancel with state := { s.state with isPaused := true } } := by
  simp [pause, cancel, hr]

theorem pause_of_not_running {s : Simulation A C} (hr : s.state.isRunning = false) :
    s.pause = s := by
  simp [pause, hr]

/-- What holds of a simulation, and of it with its run held, holds after a pause. -/
theorem pause_elim {P : Simulation A C → Prop} {s : Simulation A C} (hrest : P s)
    (hpause : s.state.isRunning = true →
      P { s.cancel with state := { s.state with isPaused := true } }) : P s.pause := by
  cases hr : s.state.isRunning with
  | true =>
    rw [pause_of_running hr]
    exact hpause hr
  | false =>
    rw [pause_of_not_running hr]
    exact hrest

theorem pause_frame (s : Simulation A C) : Frame s s.pause :=
  pause_elim (.refl s) fun _ => ⟨rfl, rfl, rfl, rfl, rfl⟩

theorem stepBackward_frame (s : Simulation A C) : Frame s s.stepBackward := by
  simp only [stepBackward]
  split
  · exact .refl s
  · split <;> exact ⟨rfl, rfl, rfl, rfl, rfl⟩

variable [Acceptor A C]

/-! ## One step -/

/-- Reading one character of what remains. -/
structure Reads (s : Simulation A C) (c : Char) (rest : List Char) (move : Advance C) : Prop where
  /-- The character is the next one. -/
  next : s.state.remaining = c :: rest
  /-- The automaton can read it. -/
  advance : Acceptor.advance s.automaton s.state.configuration c = .ok move

/-- The simulation after a character was read. -/
def read (s : Simulation A C) (c : Char) (rest : List Char) (move : Advance C) :
    Simulation A C :=
  { s with state := s.state.push c rest move }

/-- What reading the rest of the word would lead to. -/
def foreseen (s : Simulation A C) : Outcome :=
  Acceptor.evaluateFrom s.automaton s.state.configuration s.state.remaining

theorem advanceOne_of_closed {s : Simulation A C}
    (h : s.state.isRunning = false ∨ s.state.isComplete = true) : s.advanceOne = s := by
  rcases h with h | h <;> simp [advanceOne, h]

theorem advanceOne_of_reads {s : Simulation A C} {c : Char} {rest : List Char}
    {move : Advance C} (hr : s.state.isRunning = true) (hc : s.state.isComplete = false)
    (h : s.Reads c rest move) : s.advanceOne = s.read c rest move := by
  simp [advanceOne, read, hr, hc, h.next, h.advance]

theorem advanceOne_of_stuck {s : Simulation A C} (hr : s.state.isRunning = true)
    (hc : s.state.isComplete = false) (h : ∀ c rest move, ¬ s.Reads c rest move) :
    s.advanceOne = s.complete s.foreseen := by
  cases hrem : s.state.remaining with
  -- the word is used up, or the automaton refuses its next character; both end the run
  | nil => simp [advanceOne, foreseen, Acceptor.evaluateFrom, hr, hc, hrem]
  | cons c rest =>
    cases hadv : Acceptor.advance s.automaton s.state.configuration c with
    | ok move => exact absurd ⟨hrem, hadv⟩ (h c rest move)
    | error outcome => simp [advanceOne, foreseen, Acceptor.evaluateFrom, hr, hc, hrem, hadv]

/--
**A step does nothing, reads, or decides.**

It does nothing exactly when there is no open run. A verdict that it finds is the
one that reading the rest of the word at once leads to.
-/
theorem advanceOne_cases (s : Simulation A C) :
    ((s.state.isRunning = false ∨ s.state.isComplete = true) ∧ s.advanceOne = s)
      ∨ (s.state.isRunning = true ∧ s.state.isComplete = false
        ∧ ((∃ c rest move, s.Reads c rest move ∧ s.advanceOne = s.read c rest move)
          ∨ ((∀ c rest move, ¬ s.Reads c rest move) ∧ s.advanceOne = s.complete s.foreseen))) := by
  by_cases hopen : s.state.isRunning = true ∧ s.state.isComplete = false
  · obtain ⟨hr, hc⟩ := hopen
    refine Or.inr ⟨hr, hc, ?_⟩
    by_cases hread : ∃ c rest move, s.Reads c rest move
    · obtain ⟨c, rest, move, h⟩ := hread
      exact Or.inl ⟨c, rest, move, h, advanceOne_of_reads hr hc h⟩
    · have hstuck : ∀ c rest move, ¬ s.Reads c rest move :=
        fun c rest move h => hread ⟨c, rest, move, h⟩
      exact Or.inr ⟨hstuck, advanceOne_of_stuck hr hc hstuck⟩
  · have hclosed : s.state.isRunning = false ∨ s.state.isComplete = true := by
      cases hr : s.state.isRunning <;> cases hc : s.state.isComplete <;> simp_all
    exact Or.inl ⟨hclosed, advanceOne_of_closed hclosed⟩

/-- What holds of the three things that a step can lead to holds after a step. -/
theorem advanceOne_elim {P : Simulation A C → Prop} {s : Simulation A C} (hrest : P s)
    (hread : ∀ c rest move, s.state.isRunning = true → s.Reads c rest move →
      P (s.read c rest move))
    (hcomplete : s.state.isRunning = true → s.state.isComplete = false →
      P (s.complete s.foreseen)) : P s.advanceOne := by
  rcases advanceOne_cases s with ⟨_, heq⟩ | ⟨hr, hc, ⟨c, rest, move, h, heq⟩ | ⟨_, heq⟩⟩
  · rw [heq]
    exact hrest
  · rw [heq]
    exact hread c rest move hr h
  · rw [heq]
    exact hcomplete hr hc

/-- What holds of what `advanceOne` gives, with or without a tick that is scheduled after it, holds
after a step. -/
theorem step_elim {P : Simulation A C → Prop} {s : Simulation A C} (hrest : P s.advanceOne)
    (hgo : s.advanceOne.phase = .running →
      P (s.advanceOne.schedule s.advanceOne.state.speed)) : P s.step := by
  unfold step
  dsimp only
  split
  · next hrun => exact hgo hrun
  · exact hrest

/-- A step taken by a run that is not paused promises the next one if it reads. -/
theorem step_cases {s : Simulation A C} (hr : s.state.isRunning = true)
    (hp : s.state.isPaused = false) :
    (s.state.isComplete = true ∧ s.step = s)
      ∨ (s.state.isComplete = false ∧ ∃ c rest move, s.Reads c rest move
        ∧ s.step = (s.read c rest move).schedule s.state.speed)
      ∨ (s.state.isComplete = false ∧ s.step = s.complete s.foreseen) := by
  rcases advanceOne_cases s with ⟨hclosed, heq⟩ | ⟨_, hc, ⟨c, rest, move, hread, heq⟩ | ⟨_, heq⟩⟩
  · have hc : s.state.isComplete = true := by simpa [hr] using hclosed
    have hne : s.phase ≠ .running := by simp [phase_eq_running, hc]
    exact Or.inl ⟨hc, by simp [step, heq, hne]⟩
  · -- what was read leaves the run going on, so the next tick is promised
    have hrun : (s.read c rest move).phase = .running := phase_eq_running.2 ⟨hr, hp, hc⟩
    refine Or.inr (Or.inl ⟨hc, c, rest, move, hread, ?_⟩)
    simp only [step, heq, hrun, if_true]
    rfl
  · have hne := phase_complete_ne_running s s.foreseen
    exact Or.inr (Or.inr ⟨hc, by simp [step, heq, hne]⟩)

/-! ## Firing -/

/-- The simulation as a firing finds it when it takes its step. -/
def taken (s : Simulation A C) : Simulation A C := { s with pending := none, isLoading := false }

theorem fire_of_pending {s : Simulation A C} {t : Tick} (h : s.pending = some t) :
    s.fire t = (s.taken.step, true) := by
  simp [fire, taken, h]

theorem fire_of_ne {s : Simulation A C} {t : Tick} (h : s.pending ≠ some t) :
    s.fire t = (s, false) := by
  simp [fire, h]

theorem fire_accepted {s : Simulation A C} {t : Tick} :
    (s.fire t).2 = true ↔ s.pending = some t := by
  by_cases h : s.pending = some t
  · simp [fire_of_pending h, h]
  · simp [fire_of_ne h, h]

/-- What holds of a simulation, and of it after a step if the tick is the pending one, holds after a
firing. -/
theorem fire_elim {P : Simulation A C → Prop} {s : Simulation A C} {t : Tick} (hrest : P s)
    (hfire : s.pending = some t → P s.taken.step) : P (s.fire t).1 := by
  by_cases hp : s.pending = some t
  · rw [fire_of_pending hp]
    exact hfire hp
  · rw [fire_of_ne hp]
    exact hrest

/-! ## Resuming -/

theorem resume_of_running {s : Simulation A C} (hr : s.state.isRunning = true) :
    s.resume = s.freed.step := by
  simp [resume, freed, cancel, hr]

theorem resume_of_not_running {s : Simulation A C} (hr : s.state.isRunning = false) :
    s.resume = s := by
  simp [resume, hr]

/-- What holds of a simulation, and of it after a step if there is a run to be let go on, holds after
a resumption. -/
theorem resume_elim {P : Simulation A C → Prop} {s : Simulation A C} (hrest : P s)
    (hgo : s.state.isRunning = true → P s.freed.step) : P s.resume := by
  cases hr : s.state.isRunning with
  | true =>
    rw [resume_of_running hr]
    exact hgo hr
  | false =>
    rw [resume_of_not_running hr]
    exact hrest

/-! ## What steps leave alone -/

theorem advanceOne_frame (s : Simulation A C) : Frame s s.advanceOne := by
  refine advanceOne_elim (.refl s) (fun c rest move _ _ => ?_) (fun _ _ => ?_)
  · exact ⟨rfl, rfl, rfl, rfl, rfl⟩
  · exact ⟨rfl, rfl, rfl, rfl, rfl⟩

theorem step_frame (s : Simulation A C) : Frame s s.step := by
  have h := advanceOne_frame s
  exact step_elim h fun _ => h.trans ⟨rfl, rfl, rfl, rfl, rfl⟩

theorem fire_frame (s : Simulation A C) (t : Tick) : Frame s (s.fire t).1 := by
  have htaken : Frame s s.taken := ⟨rfl, rfl, rfl, rfl, rfl⟩
  exact fire_elim (.refl s) fun _ => htaken.trans (step_frame s.taken)

theorem resume_frame (s : Simulation A C) : Frame s s.resume := by
  have hfreed : Frame s s.freed := ⟨rfl, rfl, rfl, rfl, rfl⟩
  exact resume_elim (.refl s) fun _ => hfreed.trans (step_frame s.freed)

theorem stepForward_frame {s : Simulation A C} (h : s.phase ≠ .idle) :
    Frame s s.stepForward := by
  unfold stepForward
  split
  · -- a step from the idle phase begins a run, which is no step in this sense
    next hp => exact absurd hp h
  · have hheld : Frame s s.held := ⟨rfl, rfl, rfl, rfl, rfl⟩
    exact hheld.trans (advanceOne_frame s.held)
  · exact .refl s
  · exact .refl s

/-- What a step by itself does to the clock: a verdict takes the tick away, and that is all. -/
structure Calm (s s' : Simulation A C) : Prop where
  /-- Whether the run is held does not change. -/
  isPaused : s'.state.isPaused = s.state.isPaused
  /-- Only the operations clear the flag, and none of them by its step. -/
  isLoading : s'.isLoading = s.isLoading
  /-- No tick is promised here; that is left to `step`. -/
  pending : s.pending = none → s'.pending = none
  /-- The counter does not go back. -/
  generation : s.generation ≤ s'.generation

theorem advanceOne_calm (s : Simulation A C) : Calm s s.advanceOne := by
  refine advanceOne_elim ?_ (fun c rest move _ _ => ?_) (fun _ _ => ?_)
  · exact ⟨rfl, rfl, id, Nat.le_refl _⟩
  · exact ⟨rfl, rfl, id, Nat.le_refl _⟩
  · -- the verdict cancels what is pending, which counts as a generation
    exact ⟨rfl, rfl, fun _ => rfl, Nat.le_succ _⟩

/-! ## Driving is firing -/

theorem drive_of_none {s : Simulation A C} (h : s.pending = none) : s.drive = [] := by
  rw [drive]
  split
  · rfl
  · next t ht =>
    rw [h] at ht
    exact absurd ht (by simp)

theorem drive_of_some {s : Simulation A C} {t : Tick} (h : s.pending = some t) :
    s.drive = (t.delay, (s.fire t).1) :: (s.fire t).1.drive := by
  rw [drive]
  split
  · next hn =>
    rw [h] at hn
    exact absurd hn (by simp)
  · next t' ht =>
    rw [h] at ht
    obtain rfl := Option.some.inj ht
    rfl

theorem driven_of_none {s : Simulation A C} (h : s.pending = none) : s.driven = s := by
  simp [driven, drive_of_none h]

theorem driven_of_some {s : Simulation A C} {t : Tick} (h : s.pending = some t) :
    s.driven = (s.fire t).1.driven := by
  unfold driven
  rw [drive_of_some h]
  -- a drive ends with its last entry, and the first firing is the last one if nothing follows it
  cases hd : (s.fire t).1.drive with
  | nil => rfl
  | cons x rest =>
    obtain ⟨last, hlast⟩ : ∃ last, (x :: rest).getLast? = some last :=
      ⟨_, List.getLast?_eq_some_getLast (by simp)⟩
    rw [List.getLast?_cons_cons, hlast]

/-- What every accepted firing preserves is preserved by a whole drive. -/
theorem driven_induction {P : Simulation A C → Prop}
    (hfire : ∀ (s : Simulation A C) (t : Tick), s.pending = some t → P s → P (s.fire t).1)
    (s : Simulation A C) (h : P s) : P s.driven := by
  induction s using drive.induct with
  | case1 s hn =>
    rw [driven_of_none hn]
    exact h
  | case2 s t ht ih =>
    rw [driven_of_some ht]
    exact ih (hfire s t ht h)

theorem pending_driven (s : Simulation A C) : s.driven.pending = none := by
  induction s using drive.induct with
  | case1 s hn =>
    rw [driven_of_none hn]
    exact hn
  | case2 s t ht ih =>
    rw [driven_of_some ht]
    exact ih

theorem driven_frame (s : Simulation A C) : Frame s s.driven :=
  driven_induction (P := Frame s) (fun r t _ h => h.trans (fire_frame r t)) s (.refl s)

end AutomataLab.Simulation
