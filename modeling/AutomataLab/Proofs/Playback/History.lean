import AutomataLab.Automaton.DFA
import AutomataLab.Proofs.Playback.Moves

/-!
# Everything that can be done with a simulation

An `Operation` is one call of the user; `Reachable h s` says that `s` is what a new simulation
became by the operations in `h`. The history keeps each operation together with the simulation as
it found it, so whatever happened in a run can be read off it: the word that the last run was
begun over, the ticks that were handed out and those that were accepted. None of these is a field
of the simulation, and what the fields hold is compared with them in the modules that follow.

Ticks are given to `fire` without any condition, so a history may deliver them late, repeatedly,
in any order, and may even make them up.
-/

namespace AutomataLab

open Playback

/-- What a user can do with a simulation of an automaton of type `A`. -/
inductive Operation (A : Type) where
  | setTestInput (word : List Char)
  | submitInput (word : List Char)
  | start
  | fire (t : Tick)
  | pause
  | resume
  | stepForward
  | stepBackward
  | stop
  | setSpeed (ms : Nat)
  | setAutomaton (a : A)
  | drive

namespace Simulation

variable {A C : Type} [Acceptor A C]

/-- The simulation after an operation. -/
def act (s : Simulation A C) : Operation A → Simulation A C
  | .setTestInput word => s.setTestInput word
  | .submitInput word => (s.submitInput word).1
  | .start => s.start
  | .fire t => (s.fire t).1
  | .pause => s.pause
  | .resume => s.resume
  | .stepForward => s.stepForward
  | .stepBackward => s.stepBackward
  | .stop => s.stop
  | .setSpeed ms => s.setSpeed ms
  | .setAutomaton a => s.setAutomaton a
  | .drive => s.driven

theorem act_submitInput_nil (s : Simulation A C) :
    s.act (.submitInput []) = { s.setTestInput [] with report := .notice emptyInputNotice } := rfl

theorem act_submitInput (s : Simulation A C) {word : List Char} (hw : word ≠ []) :
    s.act (.submitInput word) = (s.setTestInput word).start := by
  rw [act, submitInput, if_neg hw]

theorem act_stepForward_of_idle {s : Simulation A C} (hp : s.phase = .idle) :
    s.act .stepForward = s.start := by
  rw [act, stepForward, hp]

theorem act_stepForward_of_paused {s : Simulation A C} (hp : s.phase = .paused) :
    s.act .stepForward = s.held.advanceOne := by
  rw [act, stepForward, hp]
  rfl

/-- A step forward begins a run, goes on with a paused one, or does nothing. -/
theorem act_stepForward_cases (s : Simulation A C) :
    (s.phase = .idle ∧ s.act .stepForward = s.start)
      ∨ (s.phase = .paused ∧ s.act .stepForward = s.held.advanceOne)
      ∨ (s.phase ≠ .idle ∧ s.phase ≠ .paused ∧ s.act .stepForward = s) := by
  cases hp : s.phase with
  | idle => exact Or.inl ⟨rfl, act_stepForward_of_idle hp⟩
  | paused => exact Or.inr (Or.inl ⟨rfl, act_stepForward_of_paused hp⟩)
  | running => exact Or.inr (Or.inr ⟨by simp, by simp, by rw [act, stepForward, hp]⟩)
  | complete => exact Or.inr (Or.inr ⟨by simp, by simp, by rw [act, stepForward, hp]⟩)

/-! ## What an operation is seen to do -/

/-- The word of the run that an operation begins, if it begins one. -/
def begins (s : Simulation A C) : Operation A → Option (List Char)
  | .start => some s.testInput
  | .submitInput word => if word = [] then none else some word
  | .stepForward => if s.phase = .idle then some s.testInput else none
  | _ => none

/-- The simulations that a drive goes through, itself first. -/
def stages (s : Simulation A C) : List (Simulation A C) := s :: s.drive.map (·.2)

/-- The ticks that an operation fires with success, in order. -/
def fires (s : Simulation A C) : Operation A → List Tick
  | .fire t => if (s.fire t).2 then [t] else []
  | .drive => s.stages.filterMap (·.pending)
  | _ => []

/-- Whether an operation puts the pending tick away and may schedule one of its own. -/
def renews (s : Simulation A C) : Operation A → Bool
  | .start => true
  | .submitInput word => word ≠ []
  | .fire t => (s.fire t).2
  | .resume => s.state.isRunning
  | .stepForward => s.phase = .idle
  | _ => false

/-- The ticks that an operation schedules, in order. -/
def schedules (s : Simulation A C) : Operation A → List Tick
  | .drive => s.stages.tail.filterMap (·.pending)
  | op => if s.renews op then (s.act op).pending.toList else []

theorem schedules_eq (s : Simulation A C) {op : Operation A} (hop : op ≠ .drive) :
    s.schedules op = if s.renews op then (s.act op).pending.toList else [] := by
  cases op with
  | drive => exact absurd rfl hop
  | _ => rfl

end Simulation

/-! ## Histories -/

/-- The operations so far, each with the simulation as it found it, the latest first. -/
abbrev History (A C : Type) := List (Simulation A C × Operation A)

namespace History

variable {A C : Type} [Acceptor A C]

/-- The word of the last run that was begun. -/
def word : History A C → List Char
  | [] => []
  | (s, op) :: h => (s.begins op).getD (word h)

/-- The ticks that were fired with success, in order. -/
def fired : History A C → List Tick
  | [] => []
  | (s, op) :: h => fired h ++ s.fires op

/-- The ticks that were scheduled, in order. -/
def scheduled : History A C → List Tick
  | [] => []
  | (s, op) :: h => scheduled h ++ s.schedules op

/-- The speed that was in force when the last tick was scheduled. -/
def speedAtSchedule : History A C → Option Nat
  | [] => none
  | (s, op) :: h => if s.schedules op = [] then speedAtSchedule h else some s.state.speed

/-- An empty input was refused since the run was completed. -/
def Refused : History A C → Prop
  | [] => False
  | (s, op) :: h => s.phase = .complete ∧ (op = .submitInput [] ∨ Refused h)

end History

namespace Simulation

variable {A C : Type} [Acceptor A C]

/-- The simulations that come about, each with the history that led to it. -/
inductive Reachable : History A C → Simulation A C → Prop
  | init (a : A) (timing : Timing) : Reachable [] (new a timing)
  | act {h : History A C} {s : Simulation A C} (op : Operation A) :
      Reachable h s → Reachable ((s, op) :: h) (s.act op)

/-- Do some operations, one after the other. -/
def perform (h : History A C) (s : Simulation A C) :
    List (Operation A) → History A C × Simulation A C
  | [] => (h, s)
  | op :: ops => perform ((s, op) :: h) (s.act op) ops

theorem reachable_perform {h : History A C} {s : Simulation A C} (hr : Reachable h s)
    (ops : List (Operation A)) : Reachable (perform h s ops).1 (perform h s ops).2 := by
  induction ops generalizing h s with
  | nil => exact hr
  | cons op ops ih => exact ih (.act op hr)

/-- Accepts the words over `a` and `b` with an even number of `a`. Runs of it serve as examples. -/
def parity : DFA where
  states := ["even", "odd"]
  alphabet := ['a', 'b']
  initial := "even"
  accepting := {"even"}
  transitions :=
    [("even", 'a', "odd"), ("odd", 'a', "even"), ("even", 'b', "even"), ("odd", 'b', "odd")].foldl
      (fun table e => DFA.setEntry table e.1 e.2.1 e.2.2) ∅

/-- What was reached before is the beginning of a history. -/
theorem reachable_of_append {later earlier : History A C} {s r : Simulation A C}
    {op : Operation A} (hr : Reachable (later ++ (r, op) :: earlier) s) :
    Reachable earlier r := by
  -- the later operations are taken off one by one, the last one first
  induction later generalizing s with
  | nil =>
    cases hr with
    | act _ h => exact h
  | cons e later ih =>
    cases hr with
    | act _ h => exact ih h

/-! ## What lasts -/

/-- The timing lasts for ever, the word of a run until the next one is begun, the speed until
another one is chosen. -/
structure Lasts (s : Simulation A C) (op : Operation A) (s' : Simulation A C) : Prop where
  /-- The timing was given with the new simulation. -/
  timing : s'.timing = s.timing
  /-- The word of a run is fixed when the run begins. -/
  runInput : s'.runInput = (s.begins op).getD s.runInput
  /-- A speed that is chosen is brought within the bounds first. -/
  speed : s'.state.speed = s.state.speed ∨ ∃ ms, s'.state.speed = Timing.clampSpeed ms

omit [Acceptor A C] in
theorem lasts_of_frame {s s' : Simulation A C} {op : Operation A} (hb : s.begins op = none)
    (h : Frame s s') : Lasts s op s' where
  timing := h.timing
  runInput := by
    rw [hb]
    exact h.runInput
  speed := Or.inl h.speed

theorem lasts_act (s : Simulation A C) (op : Operation A) : Lasts s op (s.act op) := by
  cases op with
  | setTestInput word => exact ⟨rfl, rfl, Or.inl (speed_setTestInput s word)⟩
  | submitInput word =>
    by_cases hw : word = []
    · subst hw
      rw [act_submitInput_nil]
      exact ⟨rfl, rfl, Or.inl (speed_setTestInput s [])⟩
    · rw [act_submitInput s hw]
      refine ⟨rfl, ?_, Or.inl (speed_setTestInput s word)⟩
      rw [begins, if_neg hw]
      rfl
  | start => exact ⟨rfl, rfl, Or.inl rfl⟩
  | fire t => exact lasts_of_frame rfl (fire_frame s t)
  | pause => exact lasts_of_frame rfl (pause_frame s)
  | resume => exact lasts_of_frame rfl (resume_frame s)
  | stepForward =>
    by_cases hp : s.phase = .idle
    · rw [act_stepForward_of_idle hp]
      refine ⟨rfl, ?_, Or.inl rfl⟩
      rw [begins, if_pos hp]
      rfl
    · -- from any other phase it is a step, or nothing at all
      exact lasts_of_frame (by rw [begins, if_neg hp]) (stepForward_frame hp)
  | stepBackward => exact lasts_of_frame rfl (stepBackward_frame s)
  | stop => exact ⟨rfl, rfl, Or.inl rfl⟩
  | setSpeed ms => exact ⟨rfl, rfl, Or.inr ⟨ms, rfl⟩⟩
  | setAutomaton a => exact ⟨rfl, rfl, Or.inl rfl⟩
  | drive => exact lasts_of_frame rfl (driven_frame s)

/-- The word that is run over is the one that the history tells. -/
theorem runInput_eq_word {h : History A C} {s : Simulation A C} (hr : Reachable h s) :
    s.runInput = h.word := by
  induction hr with
  | init a timing => rfl
  | @act h s op _ ih => rw [(lasts_act s op).runInput, ih, History.word]

/-! ## A drive does what its firings do -/

theorem stages_of_none {s : Simulation A C} (h : s.pending = none) : s.stages = [s] := by
  simp [stages, drive_of_none h]

theorem stages_of_some {s : Simulation A C} {t : Tick} (h : s.pending = some t) :
    s.stages = s :: (s.fire t).1.stages := by
  simp [stages, drive_of_some h]

theorem fires_drive_of_none {s : Simulation A C} (h : s.pending = none) :
    s.fires .drive = [] := by
  simp [fires, stages_of_none h, h]

theorem fires_drive_of_some {s : Simulation A C} {t : Tick} (h : s.pending = some t) :
    s.fires .drive = s.fires (.fire t) ++ (s.fire t).1.fires .drive := by
  have hacc : (s.fire t).2 = true := fire_accepted.2 h
  simp [fires, stages_of_some h, h, hacc]

theorem schedules_drive_of_none {s : Simulation A C} (h : s.pending = none) :
    s.schedules .drive = [] := by
  simp [schedules, stages_of_none h]

theorem schedules_drive_of_some {s : Simulation A C} {t : Tick} (h : s.pending = some t) :
    s.schedules .drive = s.schedules (.fire t) ++ (s.fire t).1.schedules .drive := by
  have hacc : s.renews (.fire t) = true := fire_accepted.2 h
  have hone : s.schedules (.fire t) = (s.fire t).1.pending.toList := by
    rw [schedules_eq s (by simp), if_pos hacc, act]
  -- what a drive schedules is pending at its stages but the first, which the first firing leads to
  have hhead : (s.fire t).1.stages = (s.fire t).1 :: (s.fire t).1.stages.tail := rfl
  rw [hone, schedules, stages_of_some h, List.tail_cons, hhead, schedules]
  cases hp : (s.fire t).1.pending <;> simp [hp]

end Simulation

end AutomataLab
