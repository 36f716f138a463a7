import AutomataLab.Proofs.Playback.Trace

/-!
# A run that goes on by itself has exactly one tick pending

The phase is read off three flags, and none of the operations that change the flags looks at the
tick. Still a tick is pending exactly in the running phase (`Ticking`), so a run that should go on
cannot be stranded, and one that is held cannot go on by itself.

Where the pending tick comes from is said once, for all operations: it was pending before and the
operation scheduled none, or the operation scheduled it, under a new generation
(`act_pending_cases`). What a tick carries follows from that: the current generation, and the delay
that was in force when it was scheduled.
-/

namespace AutomataLab.Simulation

open Playback

variable {A C : Type}

/-! ## A tick is pending exactly in the running phase -/

/-- A tick is pending if and only if the run goes on by itself. -/
def Ticking (s : Simulation A C) : Prop := (∃ t, s.pending = some t) ↔ s.phase = .running

theorem ticking_of_pending {s : Simulation A C} {t : Tick} (ht : s.pending = some t)
    (hp : s.phase = .running) : Ticking s :=
  ⟨fun _ => hp, fun _ => ⟨t, ht⟩⟩

theorem ticking_of_none {s : Simulation A C} (hn : s.pending = none) (hp : s.phase ≠ .running) :
    Ticking s := by
  refine ⟨fun ⟨t, ht⟩ => ?_, fun h => absurd h hp⟩
  rw [hn] at ht
  exact absurd ht (by simp)

theorem Ticking.pending_eq_none {s : Simulation A C} (h : Ticking s) (hp : s.phase ≠ .running) :
    s.pending = none := by
  cases hn : s.pending with
  | none => rfl
  | some t => exact absurd (h.1 ⟨t, hn⟩) hp

variable [Acceptor A C]

theorem ticking_init (a : A) (timing : Timing) : Ticking (new a timing) :=
  ticking_of_none rfl (by simp [phase_eq_running, new, State.idle])

theorem ticking_start (s : Simulation A C) : Ticking s.start :=
  ticking_of_pending rfl (phase_eq_running.2 ⟨rfl, rfl, rfl⟩)

theorem ticking_stop (s : Simulation A C) : Ticking s.stop :=
  ticking_of_none rfl (by simp [phase_eq_running, stop, State.idle])

omit [Acceptor A C] in
theorem ticking_complete (s : Simulation A C) (outcome : Outcome) :
    Ticking (s.complete outcome) :=
  ticking_of_none rfl (phase_complete_ne_running s outcome)

/-- A step of a run that is not paused leaves a tick exactly if there is more to do. -/
theorem ticking_step {s : Simulation A C} (hr : s.state.isRunning = true)
    (hp : s.state.isPaused = false) (hn : s.pending = none) : Ticking s.step := by
  rcases step_cases hr hp with ⟨hc, heq⟩ | ⟨hc, c, rest, move, _, heq⟩ | ⟨_, heq⟩
  · rw [heq]
    exact ticking_of_none hn (by simp [phase_eq_running, hc])
  · rw [heq]
    exact ticking_of_pending rfl (phase_eq_running.2 ⟨hr, hp, hc⟩)
  · rw [heq]
    exact ticking_complete s s.foreseen

theorem ticking_fire {s : Simulation A C} (h : Ticking s) (t : Tick) : Ticking (s.fire t).1 := by
  refine fire_elim h fun hp => ?_
  -- a tick was pending, so the run goes on by itself and its step decides about the next one
  obtain ⟨hr, hpaused, _⟩ := phase_eq_running.1 (h.1 ⟨t, hp⟩)
  exact ticking_step hr hpaused rfl

omit [Acceptor A C] in
theorem ticking_pause {s : Simulation A C} (h : Ticking s) : Ticking s.pause :=
  -- the tick is cancelled, and a paused run is not in the running phase
  pause_elim h fun _ => ticking_of_none rfl (by simp [phase_eq_running])

theorem ticking_resume {s : Simulation A C} (h : Ticking s) : Ticking s.resume :=
  resume_elim h fun hr => ticking_step hr rfl rfl

theorem ticking_stepForward {s : Simulation A C} (h : Ticking s) :
    Ticking (s.act .stepForward) := by
  rcases act_stepForward_cases s with ⟨_, heq⟩ | ⟨hp, heq⟩ | ⟨_, _, heq⟩
  · rw [heq]
    exact ticking_start s
  · -- the run stays paused, so the step must not leave a tick
    have hcalm := advanceOne_calm s.held
    have hpaused : s.held.advanceOne.state.isPaused = true :=
      hcalm.isPaused.trans (phase_eq_paused.1 hp).2.1
    rw [heq]
    exact ticking_of_none (hcalm.pending rfl) (by simp [phase_eq_running, hpaused])
  · rw [heq]
    exact h

theorem ticking_stepBackward {s : Simulation A C} (ht : Traced s) (h : Ticking s) :
    Ticking s.stepBackward := by
  rcases stepBackward_cases ht with heq | ⟨hr, n, r, _, _, heq⟩
  · rw [heq]
    exact h
  · -- the tick stays; going back leaves the running phase as it is and enters it from no other
    have hphase : s.stepBackward.phase = .running ↔ s.phase = .running := by
      rw [heq, phase_eq_running, phase_eq_running]
      simp [State.restore, hr]
    have hpend : s.stepBackward.pending = s.pending := by rw [heq]
    unfold Ticking
    rw [hpend, hphase]
    exact h

theorem ticking_act {s : Simulation A C} (ht : Traced s) (h : Ticking s) (op : Operation A) :
    Ticking (s.act op) := by
  cases op with
  | setTestInput word =>
    unfold Ticking
    rw [act, phase_setTestInput]
    exact h
  | submitInput word =>
    by_cases hw : word = []
    · subst hw
      have hset := phase_setTestInput s []
      exact ⟨fun hp => hset.trans (h.1 hp), fun hp => h.2 (hset.symm.trans hp)⟩
    · rw [act_submitInput s hw]
      exact ticking_start _
  | start => exact ticking_start s
  | fire t => exact ticking_fire h t
  | pause => exact ticking_pause h
  | resume => exact ticking_resume h
  | stepForward => exact ticking_stepForward h
  | stepBackward => exact ticking_stepBackward ht h
  | stop => exact ticking_stop s
  | setSpeed ms => exact h
  | setAutomaton a => exact ticking_stop _
  | drive => exact driven_induction (P := Ticking) (fun _ t _ hs => ticking_fire hs t) s h

theorem ticking_reachable {h : History A C} {s : Simulation A C} (hr : Reachable h s) :
    Ticking s := by
  induction hr with
  | init a timing => exact ticking_init a timing
  | act op hr ih => exact ticking_act (traced_reachable hr) ih op

/-! ## The speed is within its bounds -/

theorem speed_reachable {h : History A C} {s : Simulation A C} (hr : Reachable h s) :
    Timing.minSpeed ≤ s.state.speed ∧ s.state.speed ≤ Timing.maxSpeed := by
  induction hr with
  | init a timing =>
    exact ⟨Timing.minSpeed_le_clampSpeed _, Timing.clampSpeed_le_maxSpeed _⟩
  | @act h s op _ ih =>
    -- the speed stays, or is chosen anew and brought within the bounds
    rcases (lasts_act s op).speed with heq | ⟨ms, heq⟩
    · rw [heq]
      exact ih
    · rw [heq]
      exact ⟨Timing.minSpeed_le_clampSpeed ms, Timing.clampSpeed_le_maxSpeed ms⟩

/-! ## Where the pending tick comes from -/

/-- A tick that was scheduled between `s` and `s'`: it belongs to a new generation and carries
the delay that was in force. -/
structure Fresh (s s' : Simulation A C) (t : Tick) : Prop where
  /-- No tick before it has its number. -/
  newer : s.generation < t.generation
  /-- Nothing was scheduled or cancelled after it. -/
  current : t.generation = s'.generation
  /-- Before the first step of a run the delay is that of the preparation. -/
  delay : (s'.isLoading = true ∧ t.delay = s.timing.prepareDelay)
    ∨ (s'.isLoading = false ∧ t.delay = s.state.speed)

/-- Nothing was scheduled or cancelled between `s` and `s'`. -/
structure Undisturbed (s s' : Simulation A C) : Prop where
  /-- The same tick is pending, or none in both. -/
  pending : s'.pending = s.pending
  /-- The counter has not moved. -/
  generation : s'.generation = s.generation
  /-- The flag of the preparation is as it was. -/
  isLoading : s'.isLoading = s.isLoading

theorem fresh_start (s : Simulation A C) {t : Tick} (h : s.start.pending = some t) :
    Fresh s s.start t := by
  obtain rfl := Option.some.inj h
  -- the old tick is cancelled first, so the counter has gone on by two
  exact ⟨by simp only [cancel]; omega, rfl, Or.inl ⟨rfl, rfl⟩⟩

theorem fresh_step {s : Simulation A C} {t : Tick} (hn : s.pending = none)
    (hl : s.isLoading = false) (h : s.step.pending = some t) : Fresh s s.step t := by
  have hcalm := advanceOne_calm s
  have hload := hcalm.isLoading.trans hl
  have hspeed := (advanceOne_frame s).speed
  revert h
  refine step_elim (P := fun r => r.pending = some t → Fresh s r t) (fun h => ?_) (fun _ h => ?_)
  · exact absurd ((hcalm.pending hn).symm.trans h) (by simp)
  · obtain rfl := Option.some.inj h
    exact ⟨Nat.lt_succ_of_le hcalm.generation, rfl, Or.inr ⟨hload, hspeed⟩⟩

/-- A tick that an operation leaves after putting the old one away is fresh. -/
theorem fresh_act {s : Simulation A C} {op : Operation A} {t : Tick} (hn : s.renews op = true)
    (h : (s.act op).pending = some t) : Fresh s (s.act op) t := by
  cases op with
  | start => exact fresh_start s h
  | submitInput word =>
    have hw : word ≠ [] := by simpa [renews] using hn
    rw [act_submitInput s hw] at h ⊢
    -- the input was set meanwhile, so of the two delays only that of the preparation carries over
    obtain ⟨hnewer, hcurrent, hdelay⟩ := fresh_start (s.setTestInput word) h
    refine ⟨hnewer, hcurrent, ?_⟩
    rcases hdelay with hd | ⟨hl, _⟩
    · exact Or.inl hd
    · exact absurd hl (by simp [start, schedule])
  | fire t₀ =>
    rw [act, fire_of_pending (fire_accepted.1 hn)] at h ⊢
    obtain ⟨hnewer, hcurrent, hdelay⟩ := fresh_step (s := s.taken) rfl rfl h
    exact ⟨hnewer, hcurrent, hdelay⟩
  | resume =>
    rw [act, resume_of_running hn] at h ⊢
    -- the old tick is cancelled first, which takes a generation of its own
    obtain ⟨hnewer, hcurrent, hdelay⟩ := fresh_step (s := s.freed) rfl rfl h
    exact ⟨Nat.lt_of_succ_lt hnewer, hcurrent, hdelay⟩
  | stepForward =>
    have hp : s.phase = .idle := by simpa [renews] using hn
    rw [act_stepForward_of_idle hp] at h ⊢
    exact fresh_start s h
  | _ => exact absurd hn (by simp [renews])

/-- Any other operation takes the tick away or does nothing to the clock at all. -/
theorem undisturbed_act {s : Simulation A C} {op : Operation A} {t : Tick}
    (hn : s.renews op = false) (h : (s.act op).pending = some t) :
    Undisturbed s (s.act op) := by
  cases op with
  | setTestInput word => exact ⟨rfl, rfl, rfl⟩
  | submitInput word =>
    have hw : word = [] := by simpa [renews] using hn
    subst hw
    exact ⟨rfl, rfl, rfl⟩
  | start => exact absurd hn (by simp [renews])
  | fire t₀ =>
    have hp : s.pending ≠ some t₀ := fun hp => by simp [renews, fire_accepted.2 hp] at hn
    rw [act, fire_of_ne hp]
    exact ⟨rfl, rfl, rfl⟩
  | pause =>
    cases hr : s.state.isRunning with
    | true =>
      rw [act, pause_of_running hr] at h
      exact absurd h (by simp [cancel])
    | false =>
      rw [act, pause_of_not_running hr]
      exact ⟨rfl, rfl, rfl⟩
  | resume =>
    rw [act, resume_of_not_running hn]
    exact ⟨rfl, rfl, rfl⟩
  | stepForward =>
    rcases act_stepForward_cases s with ⟨hp, _⟩ | ⟨_, heq⟩ | ⟨_, _, heq⟩
    · exact absurd hn (by simp [renews, hp])
    · rw [heq, (advanceOne_calm s.held).pending rfl] at h
      exact absurd h (by simp)
    · rw [heq]
      exact ⟨rfl, rfl, rfl⟩
  | stepBackward =>
    simp only [act, stepBackward]
    split
    · exact ⟨rfl, rfl, rfl⟩
    · split <;> exact ⟨rfl, rfl, rfl⟩
  | stop => exact absurd h (by simp [act, stop, cancel])
  | setSpeed ms => exact ⟨rfl, rfl, rfl⟩
  | setAutomaton a => exact absurd h (by simp [act, setAutomaton, stop, cancel])
  -- a drive goes on until nothing is pending
  | drive => exact absurd ((pending_driven s).symm.trans h) (by simp)

/-- **The pending tick was pending before, or the operation scheduled it.** -/
theorem act_pending_cases {s : Simulation A C} {op : Operation A} {t : Tick}
    (h : (s.act op).pending = some t) :
    (s.schedules op = [] ∧ Undisturbed s (s.act op))
      ∨ (s.schedules op = [t] ∧ Fresh s (s.act op) t) := by
  have hop : op ≠ .drive := by
    rintro rfl
    exact absurd ((pending_driven s).symm.trans h) (by simp)
  rw [schedules_eq s hop, h]
  cases hn : s.renews op with
  | true => exact Or.inr ⟨rfl, fresh_act hn h⟩
  | false => exact Or.inl ⟨rfl, undisturbed_act hn h⟩

/-! ## What the pending tick carries -/

/-- The pending tick stays the latest one. -/
theorem current_act {s : Simulation A C}
    (h : ∀ t, s.pending = some t → t.generation = s.generation) (op : Operation A) (t : Tick)
    (ht : (s.act op).pending = some t) : t.generation = (s.act op).generation := by
  rcases act_pending_cases ht with ⟨_, hu⟩ | ⟨_, hf⟩
  · rw [hu.generation]
    exact h t (hu.pending.symm.trans ht)
  · exact hf.current

/-- The pending tick carries the current generation and the delay of its scheduling. -/
structure Clocked (h : History A C) (s : Simulation A C) : Prop where
  /-- Nothing was scheduled or cancelled after it. -/
  current : ∀ t, s.pending = some t → t.generation = s.generation
  /-- The tick of a start comes after the delay of the preparation. -/
  prepare : ∀ t, s.pending = some t → s.isLoading = true → t.delay = s.timing.prepareDelay
  /-- Any other tick comes after the speed that was in force when it was scheduled. -/
  speed : ∀ t, s.pending = some t → s.isLoading = false → h.speedAtSchedule = some t.delay

theorem clocked_init (a : A) (timing : Timing) : Clocked [] (new a timing) where
  current := fun t ht => absurd ht (by simp [new])
  prepare := fun t ht => absurd ht (by simp [new])
  speed := fun t ht => absurd ht (by simp [new])

theorem clocked_act {h : History A C} {s : Simulation A C} (hc : Clocked h s)
    (op : Operation A) : Clocked ((s, op) :: h) (s.act op) := by
  constructor
  case current => exact current_act hc.current op
  case prepare =>
    intro t ht hl
    rw [(lasts_act s op).timing]
    rcases act_pending_cases ht with ⟨_, hu⟩ | ⟨_, hf⟩
    · exact hc.prepare t (hu.pending.symm.trans ht) (hu.isLoading.symm.trans hl)
    · -- the flag tells which of the two delays a fresh tick has
      rcases hf.delay with ⟨_, hd⟩ | ⟨hl', _⟩
      · exact hd
      · exact absurd (hl.symm.trans hl') (by simp)
  case speed =>
    intro t ht hl
    rcases act_pending_cases ht with ⟨hsch, hu⟩ | ⟨hsch, hf⟩
    · -- the tick is the old one, and so is the speed it was scheduled at
      rw [History.speedAtSchedule, if_pos hsch]
      exact hc.speed t (hu.pending.symm.trans ht) (hu.isLoading.symm.trans hl)
    · rw [History.speedAtSchedule, if_neg (by rw [hsch]; simp)]
      rcases hf.delay with ⟨hl', _⟩ | ⟨_, hd⟩
      · exact absurd (hl.symm.trans hl') (by simp)
      · rw [hd]

theorem clocked_reachable {h : History A C} {s : Simulation A C} (hr : Reachable h s) :
    Clocked h s := by
  induction hr with
  | init a timing => exact clocked_init a timing
  | act op _ ih => exact clocked_act ih op

/-- Every speed that was ever in force is within the bounds. -/
theorem speedAtSchedule_bounds {h : History A C} {s : Simulation A C} (hr : Reachable h s)
    {v : Nat} (hv : h.speedAtSchedule = some v) : Timing.minSpeed ≤ v ∧ v ≤ Timing.maxSpeed := by
  induction hr with
  | init a timing => exact absurd hv (by simp [History.speedAtSchedule])
  | @act h s op hr ih =>
    rw [History.speedAtSchedule] at hv
    split at hv
    · exact ih hv
    · obtain rfl := Option.some.inj hv
      exact speed_reachable hr

/--
**A single chain of ticks.**

A tick is pending exactly in the running phase; it is the latest one, and its delay was settled
when it was scheduled. In every other phase nothing happens by itself.
-/
theorem pending_iff_running {h : History A C} {s : Simulation A C} (hr : Reachable h s) :
    ((∃ t, s.pending = some t) ↔ s.state.isRunning = true ∧ s.state.isPaused = false
        ∧ s.state.isComplete = false)
      ∧ ((∃ t, s.pending = some t) ↔ s.phase = .running)
      ∧ (100 ≤ s.state.speed ∧ s.state.speed ≤ 1000)
      ∧ (∀ t, s.pending = some t →
        t.generation = s.generation
          ∧ (s.isLoading = true → t.delay = s.timing.prepareDelay)
          ∧ (s.isLoading = false →
            h.speedAtSchedule = some t.delay ∧ 100 ≤ t.delay ∧ t.delay ≤ 1000)
          ∧ (∀ ms, (s.setSpeed ms).pending = some t)
          ∧ (s.fire t).2 = true)
      ∧ (s.phase ≠ .running → s.drive = [] ∧ ∀ t, s.fire t = (s, false)) := by
  have htick := ticking_reachable hr
  have hclock := clocked_reachable hr
  refine ⟨htick.trans phase_eq_running, htick, speed_reachable hr, ?_, ?_⟩
  · intro t ht
    refine ⟨hclock.current t ht, hclock.prepare t ht, fun hl => ?_, fun ms => ht,
      fire_accepted.2 ht⟩
    -- the delay was the speed at some time, and a speed is always within the bounds
    have hv := hclock.speed t ht hl
    exact ⟨hv, speedAtSchedule_bounds hr hv⟩
  · intro hp
    have hn := htick.pending_eq_none hp
    refine ⟨drive_of_none hn, fun t => fire_of_ne ?_⟩
    rw [hn]
    simp

/-- A tick keeps the delay it was scheduled with when the speed is changed. -/
theorem parity_tick_keeps_delay :
    let ops : List (Operation DFA) :=
      [.setTestInput ['a', 'b'], .start, .fire ⟨2, 500⟩, .setSpeed 200]
    let p := perform [] (new parity {}) ops
    p.2.pending = some ⟨3, 500⟩ ∧ p.2.state.speed = 200 ∧ p.1.speedAtSchedule = some 500
      ∧ p.2.phase = .running := by
  intro ops p
  have hr : Reachable p.1 p.2 := reachable_perform (.init parity {}) ops
  have hpend : p.2.pending = some ⟨3, 500⟩ := by decide
  have hspeed : p.2.state.speed = 200 := by decide
  have hload : p.2.isLoading = false := by decide
  obtain ⟨_, hphase, _, htick, _⟩ := pending_iff_running hr
  obtain ⟨_, _, hdelay, _⟩ := htick _ hpend
  exact ⟨hpend, hspeed, (hdelay hload).1, hphase.1 ⟨_, hpend⟩⟩

end AutomataLab.Simulation
