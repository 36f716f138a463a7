import AutomataLab.Playback.State
import AutomataLab.Playback.Timing

/-!
# Playing an automaton back over a word

A simulation goes through a word one step at a time. It never waits itself: it has at most one
tick pending, and whoever drives it waits for the delay of the tick and hands it back to `fire`.
Every scheduling and every cancellation starts a new generation, and a tick carries the number of
its own, so a tick that was cancelled meanwhile does nothing when it comes.
-/

namespace AutomataLab

open Playback

/-- A promise to take the next step after a delay. -/
structure Tick where
  generation : Nat
  delay : Nat
  deriving DecidableEq

/-- An automaton, a word, and a playback of the one over the other. The word of the current run
is the test input as it was when the run was started. -/
structure Simulation (A C : Type) where
  automaton : A
  testInput : List Char
  runInput : List Char
  timing : Timing
  state : State C
  report : Report
  isLoading : Bool
  pending : Option Tick
  generation : Nat
  deriving DecidableEq

namespace Simulation

variable {A C : Type} [Acceptor A C]

/-- A simulation that nothing has been done with. -/
def new (a : A) (timing : Timing) : Simulation A C where
  automaton := a
  testInput := []
  runInput := []
  timing := { timing with speed := Timing.clampSpeed timing.speed }
  state := .idle a [] (Timing.clampSpeed timing.speed)
  report := .hidden
  isLoading := false
  pending := none
  generation := 0

/-- What the simulation is doing. -/
def phase (s : Simulation A C) : Phase := s.state.phase

/-! ## Ticks -/

/-- Promise a step after a delay. -/
def schedule (s : Simulation A C) (delay : Nat) : Simulation A C :=
  { s with generation := s.generation + 1, pending := some ⟨s.generation + 1, delay⟩ }

/-- Take back the promise, if there is one. -/
def cancel (s : Simulation A C) : Simulation A C :=
  { s with generation := s.generation + 1, pending := none }

/-! ## Steps -/

/-- The word is decided. -/
def complete (s : Simulation A C) (outcome : Outcome) : Simulation A C :=
  let s := s.cancel
  { s with
    report := .shown outcome s.runInput
    state := { s.state with isComplete := true } }

/-- Read one more character, or find the verdict if there is none or it cannot be read. Nothing
happens unless a run is going on that is not complete. -/
def advanceOne (s : Simulation A C) : Simulation A C :=
  if s.state.isComplete || !s.state.isRunning then s
  else
    match s.state.remaining with
    -- the word is used up
    | [] => s.complete (Acceptor.verdict s.automaton s.state.configuration)
    | c :: rest =>
      match Acceptor.advance s.automaton s.state.configuration c with
      | .ok step => { s with state := s.state.push c rest step }
      | .error outcome => s.complete outcome

/-- Take a step, and promise the next one if the run goes on by itself. -/
def step (s : Simulation A C) : Simulation A C :=
  let s := s.advanceOne
  if s.phase = .running then s.schedule s.state.speed else s

/-! ## Operations -/

/-- Begin a run over the test input. -/
def start (s : Simulation A C) : Simulation A C :=
  let s := s.cancel
  { s with
    isLoading := true
    runInput := s.testInput
    state := .started s.automaton s.testInput s.state.speed
    report := .hidden }.schedule s.timing.prepareDelay

/-- Give up the run. -/
def stop (s : Simulation A C) : Simulation A C :=
  let s := s.cancel
  { s with
    isLoading := false
    state := .idle s.automaton s.testInput s.state.speed
    report := .hidden }

/-- Replace the automaton, giving up the run. -/
def setAutomaton (s : Simulation A C) (a : A) : Simulation A C := { s with automaton := a }.stop

/-- Replace the test input; a run that is going on keeps its word. -/
def setTestInput (s : Simulation A C) (word : List Char) : Simulation A C :=
  { s with
    testInput := word
    state := if s.state.isRunning then s.state else { s.state with remaining := word } }

/-- Replace the test input and begin a run, unless the input is empty. Tells whether it began. -/
def submitInput (s : Simulation A C) (word : List Char) : Simulation A C × Bool :=
  let s := s.setTestInput word
  if word = [] then ({ s with report := .notice emptyInputNotice }, false) else (s.start, true)

/-- Keep the promise of a tick, if it is the pending one. Tells whether it was. -/
def fire (s : Simulation A C) (t : Tick) : Simulation A C × Bool :=
  if s.pending = some t then ({ s with pending := none, isLoading := false }.step, true)
  else (s, false)

/-- Hold the run. -/
def pause (s : Simulation A C) : Simulation A C :=
  if s.state.isRunning then
    let s := s.cancel
    { s with state := { s.state with isPaused := true } }
  else s

/-- Let the run go on, with a step at once. -/
def resume (s : Simulation A C) : Simulation A C :=
  if s.state.isRunning then
    let s := s.cancel
    { s with state := { s.state with isPaused := false }, isLoading := false }.step
  else s

/-- Begin a run, or take one step of a paused run. -/
def stepForward (s : Simulation A C) : Simulation A C :=
  match s.phase with
  | .idle => s.start
  | .paused => { s.cancel with isLoading := false }.advanceOne
  | .running | .complete => s

/-- Go back to the record before the last one. -/
def stepBackward (s : Simulation A C) : Simulation A C :=
  if s.state.currentStep = 0 || !s.state.isRunning then s
  else
    let path := s.state.path.dropLast
    match path.getLast? with
    -- there is nothing to go back to
    | none => { s with state := { s.state with path := path } }
    | some record => { s with state := s.state.restore path record, report := .hidden }

/-- Choose the time between two steps; a tick that is pending keeps its delay. -/
def setSpeed (s : Simulation A C) (ms : Nat) : Simulation A C :=
  { s with state := { s.state with speed := Timing.clampSpeed ms } }

/-! ## A run by itself

As long as a tick is pending, wait for it and fire it. A firing that leaves a tick behind has
read a character, so this ends. -/

omit [Acceptor A C] in
theorem phase_complete_ne_running (s : Simulation A C) (outcome : Outcome) :
    (s.complete outcome).phase ≠ .running := by
  cases h : s.state.isRunning <;> simp [phase, State.phase, complete, cancel, h]

theorem length_remaining_advanceOne (s : Simulation A C) :
    (s.advanceOne.phase = .running →
        s.advanceOne.state.remaining.length < s.state.remaining.length) ∧
      s.advanceOne.state.remaining.length ≤ s.state.remaining.length ∧
      (s.pending = none → s.advanceOne.pending = none) := by
  unfold advanceOne
  split
  · next h =>
    refine ⟨fun hp => ?_, Nat.le_refl _, id⟩
    cases hr : s.state.isRunning <;> cases hc : s.state.isComplete <;>
      simp_all [phase, State.phase]
  · split
    · exact ⟨fun hp => absurd hp (phase_complete_ne_running s _), by simp [complete, cancel],
        fun _ => rfl⟩
    · next c rest hrest =>
      split
      · simp [State.push, hrest]
      · exact ⟨fun hp => absurd hp (phase_complete_ne_running s _), by simp [complete, cancel],
          fun _ => rfl⟩

theorem length_remaining_fire {s : Simulation A C} {t : Tick} (h : s.pending = some t) :
    ((s.fire t).1.pending ≠ none →
        (s.fire t).1.state.remaining.length < s.state.remaining.length) ∧
      (s.fire t).1.state.remaining.length ≤ s.state.remaining.length := by
  have key := length_remaining_advanceOne { s with pending := none, isLoading := false }
  simp only [fire, h, if_true, step]
  split
  · next hp => exact ⟨fun _ => key.1 hp, key.2.1⟩
  · exact ⟨fun hn => absurd (key.2.2 rfl) hn, key.2.1⟩

/-- The delays waited and the simulation after each firing, until no tick is pending. -/
def drive (s : Simulation A C) : List (Nat × Simulation A C) :=
  match _h : s.pending with
  | none => []
  | some t => (t.delay, (s.fire t).1) :: drive (s.fire t).1
termination_by 2 * s.state.remaining.length + (if s.pending = none then 0 else 1)
decreasing_by
  have key := length_remaining_fire _h
  by_cases hn : (s.fire t).1.pending = none
  · simp [hn, _h]; omega
  · have := key.1 hn
    simp [hn, _h]; omega

/-- The simulation that is left when no tick is pending any more. -/
def driven (s : Simulation A C) : Simulation A C :=
  match s.drive.getLast? with
  | none => s
  | some last => last.2

end Simulation

end AutomataLab
