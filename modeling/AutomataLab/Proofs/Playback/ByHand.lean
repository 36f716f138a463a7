import Mathlib.Logic.Function.Iterate
import AutomataLab.Proofs.Playback.Drive

/-!
# Steps by hand, forward and back

Going back takes a record off the path, going forward asks the automaton again. Both keep a run on
the trace of its word, and a state on the trace is told by its step and its flags
(`eq_of_onTrace`). So however steps forward and back are mixed, all that has to be followed is the
number of the step (`HeldAt`).

A complete run is different, since its last step, the one that found the verdict, is not on the
path. Nothing can be read where a run is complete (`exhausted_reachable`), so the same verdict is
found again when the run is taken back from there and brought forward once more.
-/

namespace AutomataLab.Simulation

open Playback

variable {A C : Type} [Acceptor A C]

/-! ## States on the trace -/

/-- The step tells all of a state on the trace but the flags and the speed. -/
theorem eq_of_onTrace {a : A} {w : List Char} {st st' : State C} (h : OnTrace a w st)
    (h' : OnTrace a w st') (hstep : st'.currentStep = st.currentStep)
    (hrunning : st'.isRunning = st.isRunning) (hpaused : st'.isPaused = st.isPaused)
    (hcomplete : st'.isComplete = st.isComplete) (hspeed : st'.speed = st.speed) : st' = st := by
  obtain ⟨r, hr, hconf, hproc, hrem⟩ := h.position
  obtain ⟨r', hr', hconf', hproc', hrem'⟩ := h'.position
  -- at the same step both are at the same record
  have hrr : r' = r := by
    rw [hstep, hr] at hr'
    exact (Option.some.inj hr').symm
  subst hrr
  have hpath : st'.path = st.path := by
    refine (List.map_inj_right fun _ _ => Option.some.inj).1 ?_
    rw [h.path, h'.path, hstep]
  cases st
  cases st'
  simp_all

/-- What the automaton reads from a record on extends the trace. -/
theorem trace_of_consumed {a : A} {w : List Char} {i k : Nat} {r : Step C}
    (h : trace a w i = some r) (hk : k ≤ Acceptor.consumed a r.configuration r.remaining) :
    ∃ r', trace a w (i + k) = some r' := by
  induction k generalizing i r with
  | zero => exact ⟨r, h⟩
  | succ k ih =>
    cases hrem : r.remaining with
    | nil =>
      rw [hrem, Acceptor.consumed] at hk
      exact absurd hk (by omega)
    | cons c rest =>
      cases hm : Acceptor.advance a r.configuration c with
      | error outcome =>
        rw [hrem, Acceptor.consumed, hm] at hk
        exact absurd hk (by simp)
      | ok move =>
        rw [hrem, Acceptor.consumed, hm] at hk
        -- one character on, the automaton reads one character less from there
        obtain ⟨hc, hrest⟩ := drop_eq_cons_iff.1 ((trace_position h).2.symm.trans hrem)
        have hnext := trace_succ h hc hm
        rw [hrest] at hnext
        obtain ⟨r', hr'⟩ := ih hnext (by simpa using hk)
        exact ⟨r', by rw [← hr']; congr 1; omega⟩

/-! ## Where a run is complete nothing can be read -/

/-- A complete run cannot read on. -/
def Exhausted (s : Simulation A C) : Prop :=
  s.phase = .complete → ∀ c rest move, ¬ s.Reads c rest move

theorem exhausted_of_open {s : Simulation A C} (h : s.phase ≠ .complete) : Exhausted s :=
  fun hc => absurd hc h

/-- Whatever leaves the position alone and completes nothing keeps it so. -/
theorem exhausted_of_same {s s' : Simulation A C} (h : Exhausted s)
    (hp : s'.phase = .complete → s.phase = .complete) (ha : s'.automaton = s.automaton)
    (hconf : s'.state.configuration = s.state.configuration)
    (hrem : s'.state.remaining = s.state.remaining) : Exhausted s' := by
  intro hphase c rest move hread
  refine h (hp hphase) c rest move ⟨hrem ▸ hread.next, ?_⟩
  rw [← ha, ← hconf]
  exact hread.advance

theorem exhausted_advanceOne {s : Simulation A C} (h : Exhausted s) : Exhausted s.advanceOne := by
  rcases advanceOne_cases s with ⟨_, heq⟩ | ⟨_, hc, ⟨c, rest, move, _, heq⟩ | ⟨hstuck, heq⟩⟩
  · rw [heq]
    exact h
  · rw [heq]
    refine exhausted_of_open fun hp => ?_
    exact absurd (hc.symm.trans (phase_eq_complete.1 hp).2) (by simp)
  · rw [heq]
    -- the verdict was found because nothing could be read, and the position is the same
    exact fun _ c rest move hread => hstuck c rest move ⟨hread.next, hread.advance⟩

theorem exhausted_step {s : Simulation A C} (h : Exhausted s) : Exhausted s.step := by
  have hadv := exhausted_advanceOne h
  exact step_elim hadv fun _ => exhausted_of_same hadv id rfl rfl rfl

theorem exhausted_fire {s : Simulation A C} (h : Exhausted s) (t : Tick) :
    Exhausted (s.fire t).1 := by
  have htaken : Exhausted s.taken := exhausted_of_same h id rfl rfl rfl
  exact fire_elim h fun _ => exhausted_step htaken

theorem exhausted_setTestInput {s : Simulation A C} (h : Exhausted s) (word : List Char) :
    Exhausted (s.setTestInput word) := by
  cases hr : s.state.isRunning with
  | true =>
    have hst := state_setTestInput_of_running hr word
    exact exhausted_of_same h (fun hp => phase_setTestInput s word ▸ hp) rfl
      (congrArg State.configuration hst) (congrArg State.remaining hst)
  | false =>
    refine exhausted_of_open ?_
    rw [phase_setTestInput, phase_eq_idle.2 hr]
    simp

theorem exhausted_pause {s : Simulation A C} (h : Exhausted s) : Exhausted s.pause :=
  pause_elim h fun _ => exhausted_of_same h (by simp [phase_eq_complete, cancel]) rfl rfl rfl

theorem exhausted_resume {s : Simulation A C} (h : Exhausted s) : Exhausted s.resume := by
  refine resume_elim h fun _ => exhausted_step ?_
  exact exhausted_of_same h (by simp [phase_eq_complete, freed, cancel]) rfl rfl rfl

theorem exhausted_act {s : Simulation A C} (ht : Traced s) (h : Exhausted s)
    (op : Operation A) : Exhausted (s.act op) := by
  cases op with
  | setTestInput word => exact exhausted_setTestInput h word
  | submitInput word =>
    by_cases hw : word = []
    · subst hw
      exact exhausted_of_same (exhausted_setTestInput h []) id rfl rfl rfl
    · rw [act_submitInput s hw]
      exact exhausted_of_open (open_start _).1
  | start => exact exhausted_of_open (open_start s).1
  | fire t => exact exhausted_fire h t
  | pause => exact exhausted_pause h
  | resume => exact exhausted_resume h
  | stepForward =>
    rcases act_stepForward_cases s with ⟨_, heq⟩ | ⟨_, heq⟩ | ⟨_, _, heq⟩
    · rw [heq]
      exact exhausted_of_open (open_start s).1
    · have hheld : Exhausted s.held := exhausted_of_same h id rfl rfl rfl
      rw [heq]
      exact exhausted_advanceOne hheld
    · rw [heq]
      exact h
  | stepBackward =>
    rcases stepBackward_cases ht with heq | ⟨_, n, r, _, _, heq⟩
    · rw [act, heq]
      exact h
    · rw [act, heq]
      exact exhausted_of_open (by simp [phase_eq_complete, State.restore])
  | stop => exact exhausted_of_open (open_stop s).1
  | setSpeed ms => exact exhausted_of_same h id rfl rfl rfl
  | setAutomaton a => exact exhausted_of_open (open_stop _).1
  | drive => exact driven_induction (P := Exhausted) (fun _ t _ hs => exhausted_fire hs t) s h

theorem exhausted_reachable {h : History A C} {s : Simulation A C} (hr : Reachable h s) :
    Exhausted s := by
  induction hr with
  | init a timing => exact exhausted_of_open (by simp [phase_eq_complete, new, State.idle])
  | act op hr ih => exact exhausted_act (traced_reachable hr) ih op

/-! ## Following the number of the step -/

/-- A paused run at step `n` that was brought there from `s` by hand. -/
structure HeldAt (s : Simulation A C) (n : Nat) (s' : Simulation A C) : Prop where
  /-- Steps by hand change none of the lasting parts. -/
  frame : Frame s s'
  /-- The run is still on the trace of its word. -/
  traced : Traced s'
  /-- Between steps by hand the run is held. -/
  phase : s'.phase = .paused
  /-- All that has to be followed is the number of the step. -/
  currentStep : s'.state.currentStep = n

theorem HeldAt.onTrace {s s' : Simulation A C} {n : Nat} (h : HeldAt s n s') :
    OnTrace s.automaton s.runInput s'.state := by
  rw [← h.frame.automaton, ← h.frame.runInput]
  exact h.traced.running (phase_eq_paused.1 h.phase).1

/-- **Steps by hand that lead to the same step lead to the same state.** -/
theorem HeldAt.state_eq {s s₁ s₂ : Simulation A C} {n : Nat} (h₁ : HeldAt s n s₁)
    (h₂ : HeldAt s n s₂) : s₂.state = s₁.state := by
  obtain ⟨hr₁, hp₁, hc₁⟩ := phase_eq_paused.1 h₁.phase
  obtain ⟨hr₂, hp₂, hc₂⟩ := phase_eq_paused.1 h₂.phase
  exact eq_of_onTrace h₁.onTrace h₂.onTrace (h₂.currentStep.trans h₁.currentStep.symm)
    (hr₂.trans hr₁.symm) (hp₂.trans hp₁.symm) (hc₂.trans hc₁.symm)
    (h₂.frame.speed.trans h₁.frame.speed.symm)

/-- Where the trace goes on, the run can read. -/
theorem HeldAt.reads {s s' : Simulation A C} {n : Nat} {r : Step C} (h : HeldAt s n s')
    (hr : trace s.automaton s.runInput (n + 1) = some r) : ∃ c rest move, s'.Reads c rest move := by
  obtain ⟨r₀, c, move, hr₀, hc, hm, _⟩ := trace_succ_cases hr
  obtain ⟨r₁, hr₁, hconf, _, hrem⟩ := h.onTrace.position
  -- the run is at the record from which the trace goes on
  rw [h.currentStep, hr₀] at hr₁
  obtain rfl := Option.some.inj hr₁
  refine ⟨c, s.runInput.drop (n + 1), move, ?_, ?_⟩
  · rw [hrem, (trace_position hr₀).2]
    exact drop_eq_cons_iff.2 ⟨hc, rfl⟩
  · rw [h.frame.automaton, hconf]
    exact hm

theorem heldAt_stepForward {s s' : Simulation A C} {n : Nat} {r : Step C} (h : HeldAt s n s')
    (hr : trace s.automaton s.runInput (n + 1) = some r) : HeldAt s (n + 1) s'.stepForward := by
  obtain ⟨hrun, hpaused, hc⟩ := phase_eq_paused.1 h.phase
  obtain ⟨c, rest, move, hread⟩ := h.reads hr
  have heq : s'.stepForward = s'.held.read c rest move :=
    (act_stepForward_of_paused h.phase).trans
      (advanceOne_of_reads (s := s'.held) hrun hc ⟨hread.next, hread.advance⟩)
  have hidle : s'.phase ≠ .idle := by
    rw [h.phase]
    simp
  exact
    { frame := h.frame.trans (stepForward_frame hidle)
      traced := traced_stepForward h.traced
      phase := by
        rw [heq]
        exact phase_eq_paused.2 ⟨hrun, hpaused, hc⟩
      currentStep := by
        rw [heq]
        exact congrArg (· + 1) h.currentStep }

theorem heldAt_iterate_stepForward {s s' : Simulation A C} {n k : Nat} {r : Step C}
    (h : HeldAt s n s') (hr : trace s.automaton s.runInput (n + k) = some r) :
    HeldAt s (n + k) (stepForward^[k] s') := by
  induction k generalizing r with
  | zero => exact h
  | succ k ih =>
    obtain ⟨_, _, _, hr₀, _⟩ := trace_succ_cases hr
    rw [Function.iterate_succ_apply']
    exact heldAt_stepForward (ih hr₀) hr

/-- A run that is paused or complete can be taken back by a step, and is paused then. -/
theorem heldAt_of_stepBackward {s : Simulation A C} (ht : Traced s)
    (hp : s.phase = .paused ∨ s.phase = .complete) {n : Nat} (hn : s.state.currentStep = n + 1) :
    HeldAt s n s.stepBackward ∧ s.stepBackward.report = .hidden := by
  have hrun : s.state.isRunning = true := by
    rcases hp with hp | hp
    · exact (phase_eq_paused.1 hp).1
    · exact (phase_eq_complete.1 hp).1
  -- of either phase going back makes a pause
  have hstill : (s.state.isPaused || s.state.isComplete) = true := by
    rcases hp with hp | hp
    · simp [(phase_eq_paused.1 hp).2.1]
    · simp [(phase_eq_complete.1 hp).2]
  obtain ⟨r, _, heq⟩ := stepBackward_of_succ ht hrun hn
  refine ⟨⟨stepBackward_frame s, traced_stepBackward ht, ?_, ?_⟩, ?_⟩
  · rw [heq]
    exact phase_eq_paused.2 ⟨hrun, hstill, rfl⟩
  · rw [heq]
    exact congrArg (· - 1) hn
  · rw [heq]

theorem heldAt_stepBackward {s s' : Simulation A C} {n : Nat} (h : HeldAt s (n + 1) s') :
    HeldAt s n s'.stepBackward := by
  have hback := (heldAt_of_stepBackward h.traced (Or.inl h.phase) h.currentStep).1
  exact { hback with frame := h.frame.trans hback.frame }

theorem heldAt_iterate_stepBackward {s s' : Simulation A C} {n k : Nat}
    (h : HeldAt s (n + k) s') : HeldAt s n (stepBackward^[k] s') := by
  induction k generalizing n with
  | zero => exact h
  | succ k ih =>
    have hk : HeldAt s (n + 1 + k) s' := by
      rw [Nat.add_right_comm]
      exact h
    rw [Function.iterate_succ_apply']
    exact heldAt_stepBackward (ih hk)

/-! ## A complete run, taken back and completed again -/

theorem heldAt_of_complete {s : Simulation A C} (ht : Traced s) (hp : s.phase = .complete)
    {n k : Nat} (hn : s.state.currentStep = n + (k + 1)) :
    HeldAt s n (stepBackward^[k + 1] s) ∧ (stepBackward^[k + 1] s).report = .hidden := by
  -- the first step back makes the complete run a paused one, and the others keep it paused
  induction k generalizing n with
  | zero => exact heldAt_of_stepBackward ht (Or.inr hp) hn
  | succ k ih =>
    have hn' : s.state.currentStep = n + 1 + (k + 1) := by omega
    obtain ⟨hheld, _⟩ := ih hn'
    rw [Function.iterate_succ_apply']
    exact ⟨heldAt_stepBackward hheld,
      (heldAt_of_stepBackward hheld.traced (Or.inl hheld.phase) hheld.currentStep).2⟩

/-- Brought back to the step where the run is complete, one step more finds the verdict. -/
theorem complete_of_heldAt {s s' : Simulation A C} (ht : Traced s) (he : Exhausted s)
    (hp : s.phase = .complete) (h : HeldAt s s.state.currentStep s') :
    s'.stepForward.phase = .complete ∧ s'.stepForward.state = { s.state with isPaused := true }
      ∧ s'.stepForward.report = s.wordVerdict := by
  obtain ⟨hrun, hcomplete⟩ := phase_eq_complete.1 hp
  obtain ⟨hrun', hpaused, hopen⟩ := phase_eq_paused.1 h.phase
  -- but for its flags the complete run is what a run held at its step looks like
  have hon : OnTrace s.automaton s.runInput
      { s.state with isPaused := true, isComplete := false } :=
    ⟨(ht.running hrun).path, (ht.running hrun).position⟩
  have hstate : s'.state = { s.state with isPaused := true, isComplete := false } :=
    eq_of_onTrace hon h.onTrace h.currentStep (hrun'.trans hrun.symm) hpaused hopen h.frame.speed
  -- so the run that was brought back can read no more than the complete one could
  have hstuck : ∀ c rest move, ¬ s'.held.Reads c rest move := by
    intro c rest move hread
    obtain ⟨hnext, hadv⟩ := hread
    refine he hp c rest move ⟨?_, ?_⟩
    · exact (congrArg State.remaining hstate).symm.trans hnext
    · rw [← h.frame.automaton, ← hadv]
      exact congrArg (Acceptor.advance s'.automaton · c)
        (congrArg State.configuration hstate).symm
  have heq : s'.stepForward = s'.held.complete s'.foreseen :=
    (act_stepForward_of_paused h.phase).trans (advanceOne_of_stuck (s := s'.held) hrun' hopen hstuck)
  rw [heq]
  refine ⟨phase_eq_complete.2 ⟨hrun', rfl⟩, ?_, ?_⟩
  · have hst : (s'.held.complete s'.foreseen).state = { s'.state with isComplete := true } := rfl
    rw [hst, hstate, ← hcomplete]
  · rw [foreseen_eq_evaluate h.traced hrun', h.frame.automaton, h.frame.runInput]
    exact congrArg (Report.shown _) h.frame.runInput

/-! ## No tick is left pending -/

/-- A run that does not go on by itself. -/
structure AtRest (s : Simulation A C) : Prop where
  /-- The run is on the trace of its word. -/
  traced : Traced s
  /-- It is held, or it has come to its end. -/
  phase : s.phase = .paused ∨ s.phase = .complete
  /-- Nothing will happen without a call. -/
  pending : s.pending = none

theorem atRest_advanceOne {s : Simulation A C} (ht : Traced s) (hp : s.phase = .paused)
    (hn : s.pending = none) : AtRest s.advanceOne where
  traced := traced_advanceOne ht
  phase := by
    refine advanceOne_elim (P := fun r => r.phase = .paused ∨ r.phase = .complete) (Or.inl hp)
      (fun c rest move _ _ => ?_) (fun hr _ => ?_)
    · exact Or.inl hp
    · exact Or.inr (phase_eq_complete.2 ⟨hr, rfl⟩)
  pending := (advanceOne_calm s).pending hn

theorem atRest_stepForward {s : Simulation A C} (h : AtRest s) : AtRest (s.act .stepForward) := by
  rcases act_stepForward_cases s with ⟨hidle, _⟩ | ⟨hp, heq⟩ | ⟨_, _, heq⟩
  · rcases h.phase with hp | hp <;> exact absurd (hidle.symm.trans hp) (by simp)
  · have hheld : Traced s.held := ⟨h.traced.running, h.traced.idle⟩
    rw [heq]
    exact atRest_advanceOne hheld hp rfl
  · rw [heq]
    exact h

theorem atRest_stepBackward {s : Simulation A C} (h : AtRest s) : AtRest s.stepBackward := by
  refine ⟨traced_stepBackward h.traced, ?_, ?_⟩
  · rcases stepBackward_cases h.traced with heq | ⟨_, n, r, hn, _, _⟩
    · rw [heq]
      exact h.phase
    · exact Or.inl (heldAt_of_stepBackward h.traced h.phase hn).1.phase
  · rcases stepBackward_cases h.traced with heq | ⟨_, n, r, _, _, heq⟩
    · rw [heq]
      exact h.pending
    · rw [heq]
      exact h.pending

theorem atRest_reachable {h : History A C} {s : Simulation A C} (hr : Reachable h s)
    (hp : s.phase = .paused ∨ s.phase = .complete) : AtRest s where
  traced := traced_reachable hr
  phase := hp
  pending := (ticking_reachable hr).pending_eq_none (by rcases hp with hp | hp <;> simp [hp])

/-! ## Forward and back -/

theorem state_forward_back {s : Simulation A C} (ht : Traced s) (hp : s.phase = .paused) {k : Nat}
    (hk : k ≤ s.ahead) : (stepBackward^[k] (stepForward^[k] s)).state = s.state := by
  have hs : HeldAt s s.state.currentStep s := ⟨.refl s, ht, hp, rfl⟩
  obtain ⟨r, hr, hconf, _, hrem⟩ := hs.onTrace.position
  rw [ahead, hconf, hrem] at hk
  -- the trace goes on for as many records as there are characters to be read
  obtain ⟨r', hr'⟩ := trace_of_consumed hr hk
  exact hs.state_eq (heldAt_iterate_stepBackward (heldAt_iterate_stepForward hs hr'))

theorem state_back_forward {s : Simulation A C} (ht : Traced s) (hp : s.phase = .paused) {k : Nat}
    (hk : k ≤ s.state.currentStep) : (stepForward^[k] (stepBackward^[k] s)).state = s.state := by
  obtain ⟨n, hn⟩ := Nat.exists_eq_add_of_le' hk
  have hs : HeldAt s (n + k) s := ⟨.refl s, ht, hp, hn⟩
  obtain ⟨r, hr, _⟩ := hs.onTrace.position
  rw [hn] at hr
  exact hs.state_eq (heldAt_iterate_stepForward (heldAt_iterate_stepBackward hs) hr)

theorem complete_back_forward {s : Simulation A C} (ht : Traced s) (he : Exhausted s)
    (hp : s.phase = .complete) {k : Nat} (hk : k + 1 ≤ s.state.currentStep) :
    let s' := stepForward^[k + 2] (stepBackward^[k + 1] s)
    s'.phase = .complete ∧ s'.state = { s.state with isPaused := true }
      ∧ s'.report = s.wordVerdict := by
  obtain ⟨n, hn⟩ := Nat.exists_eq_add_of_le' hk
  obtain ⟨r, hr, _⟩ := (ht.running (phase_eq_complete.1 hp).1).position
  rw [hn] at hr
  have hback := (heldAt_of_complete ht hp hn).1
  have hforth := heldAt_iterate_stepForward hback hr
  rw [← hn] at hforth
  rw [Function.iterate_succ_apply']
  exact complete_of_heldAt ht he hp hforth

/--
**Steps forward and steps back undo each other.**

A paused run comes back to the very state it was in, whichever way the steps are taken first, as
far as the automaton can read and as far as the run has come. A complete run that is taken back is
paused and says nothing, and is complete again, with the verdict of its word, after one step more
than it was taken back. No tick is pending at any time.
-/
theorem steps_undo_each_other {h : History A C} {s : Simulation A C} (hr : Reachable h s) :
    (s.phase = .paused → ∀ k,
        (k ≤ s.ahead → (stepBackward^[k] (stepForward^[k] s)).state = s.state)
          ∧ (k ≤ s.state.currentStep →
            (stepForward^[k] (stepBackward^[k] s)).state = s.state))
      ∧ (s.phase = .complete → ∀ k, 1 ≤ k → k ≤ s.state.currentStep →
        ((stepBackward^[k] s).phase = .paused
            ∧ (stepBackward^[k] s).state.currentStep = s.state.currentStep - k
            ∧ (stepBackward^[k] s).report = .hidden)
          ∧ (stepForward^[k + 1] (stepBackward^[k] s)).phase = .complete
          ∧ (stepForward^[k + 1] (stepBackward^[k] s)).state = { s.state with isPaused := true }
          ∧ (stepForward^[k + 1] (stepBackward^[k] s)).report
            = .shown (Acceptor.evaluate s.automaton h.word) h.word)
      ∧ (s.phase = .paused ∨ s.phase = .complete → ∀ i j,
        (stepBackward^[j] (stepForward^[i] s)).pending = none
          ∧ (stepForward^[j] (stepBackward^[i] s)).pending = none) := by
  have ht := traced_reachable hr
  refine ⟨fun hp k => ⟨state_forward_back ht hp, state_back_forward ht hp⟩,
    fun hp k hk hstep => ?_, fun hp i j => ?_⟩
  · obtain ⟨k, rfl⟩ := Nat.exists_eq_add_of_le' hk
    obtain ⟨n, hn⟩ := Nat.exists_eq_add_of_le' hstep
    obtain ⟨hback, hhidden⟩ := heldAt_of_complete ht hp hn
    obtain ⟨hphase, hstate, hreport⟩ :=
      complete_back_forward ht (exhausted_reachable hr) hp hstep
    rw [wordVerdict, runInput_eq_word hr] at hreport
    have hn' : n = s.state.currentStep - (k + 1) := by omega
    exact ⟨⟨hback.phase, hback.currentStep.trans hn', hhidden⟩, hphase, hstate, hreport⟩
  · have hforth {r : Simulation A C} (h : AtRest r) (n : Nat) : AtRest (stepForward^[n] r) :=
      Function.Iterate.rec AtRest h (fun _ => atRest_stepForward) n
    have hback {r : Simulation A C} (h : AtRest r) (n : Nat) : AtRest (stepBackward^[n] r) :=
      Function.Iterate.rec AtRest h (fun _ => atRest_stepBackward) n
    have hs := atRest_reachable hr hp
    exact ⟨(hback (hforth hs i) j).pending, (hforth (hback hs i) j).pending⟩

/-- The run is paused after its first step, and complete where it meets a character that is not in
the alphabet; the test input is edited before it is taken back. -/
theorem parity_steps_undo_each_other :
    let p := perform [] (new parity {})
      [.setTestInput ['a', 'b', 'c'], .start, .fire ⟨2, 500⟩, .pause]
    let q := perform p.1 p.2 [.stepForward, .stepForward, .setTestInput ['a']]
    (p.2.phase = .paused ∧ p.2.ahead = 1 ∧ p.2.state.currentStep = 1
        ∧ (stepBackward^[1] (stepForward^[1] p.2)).state = p.2.state
        ∧ (stepForward^[1] (stepBackward^[1] p.2)).state = p.2.state)
      ∧ q.2.phase = .complete ∧ q.2.state.currentStep = 2
      ∧ (stepBackward^[2] q.2).state.currentStep = 0
      ∧ (stepForward^[3] (stepBackward^[2] q.2)).state = { q.2.state with isPaused := true }
      ∧ (stepForward^[3] (stepBackward^[2] q.2)).report
        = .shown (.invalidSymbol 'c') ['a', 'b', 'c'] := by
  intro p q
  have hp : Reachable p.1 p.2 := reachable_perform (.init parity {}) _
  have hq : Reachable q.1 q.2 := reachable_perform hp _
  have hpaused : p.2.phase = .paused := by decide
  have hahead : p.2.ahead = 1 := by decide
  have hstep : p.2.state.currentStep = 1 := by decide
  have hcomplete : q.2.phase = .complete := by decide
  have hstep' : q.2.state.currentStep = 2 := by decide
  have hverdict : Acceptor.evaluate q.2.automaton q.1.word = .invalidSymbol 'c' := by decide
  have hword : q.1.word = ['a', 'b', 'c'] := by decide
  obtain ⟨hforth, hback⟩ := (steps_undo_each_other hp).1 hpaused 1
  obtain ⟨⟨_, hstart, _⟩, _, hstate, hreport⟩ :=
    (steps_undo_each_other hq).2.1 hcomplete 2 (by decide) (Nat.le_of_eq hstep'.symm)
  rw [hverdict, hword] at hreport
  rw [hstep'] at hstart
  exact ⟨⟨hpaused, hahead, hstep, hforth (Nat.le_of_eq hahead.symm),
    hback (Nat.le_of_eq hstep.symm)⟩, hcomplete, hstep', hstart, hstate, hreport⟩

end AutomataLab.Simulation
