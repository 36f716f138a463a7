import Mathlib.Data.List.Forall2
import AutomataLab.Proofs.Playback.History
import AutomataLab.Proofs.Translation

/-!
# Two machines played back in step

If one machine translates another, playbacks of the two can be watched side by side: the same calls
are made in both, and a tick of the one corresponds to the tick that the other handed out at the
same place of its history (`InStep`). What they show is then the same but for the configurations and
the outcomes, which are read as the translation says (`Mirrors`).

Every operation keeps this (`mirrors_act`). It also hands out the same ticks in both
(`schedules_of_mirrors`), so ticks at the same place are equal, and this is what lets the run lemma
treat a firing like any other operation (`mirrors_of_inStep`).

Of two machines of one kind with the same configurations each can be put in the place of the other:
their simulations agree in all but the machine (`runs_agree`).
-/

namespace AutomataLab

variable {A B C D : Type}

/-! ## What is shown, read in another way -/

namespace Playback

/-- A record with its configurations read as others. -/
def Step.map (carry : C → D) (r : Step C) : Step D where
  configuration := carry r.configuration
  symbol := r.symbol
  source := r.source.map carry
  processed := r.processed
  remaining := r.remaining
  transitions := r.transitions
  epsilonReached := r.epsilonReached

/-- A state with its configurations read as others. -/
def State.map (carry : C → D) (st : State C) : State D where
  isRunning := st.isRunning
  isPaused := st.isPaused
  isComplete := st.isComplete
  currentStep := st.currentStep
  configuration := carry st.configuration
  processed := st.processed
  remaining := st.remaining
  speed := st.speed
  path := st.path.map (Step.map carry)

/-- Two reports tell the same, or outcomes of the same word that correspond. -/
def Report.Corresponds (tell : Outcome → Outcome) (r r' : Report) : Prop :=
  r.outcome = none ∧ r' = r
    ∨ ∃ outcome word, r = .shown outcome word ∧ r' = .shown (tell outcome) word

section

variable {carry : C → D} {tell : Outcome → Outcome}

theorem State.map_push (st : State C) (c : Char) (rest : List Char) (move : Advance C) :
    (st.push c rest move).map carry = (st.map carry).push c rest (move.map carry) := by
  rw [State.map, State.push, List.map_append]
  rfl

theorem State.map_restore (st : State C) (path : List (Step C)) (record : Step C) :
    (st.restore path record).map carry
      = (st.map carry).restore (path.map (Step.map carry)) (record.map carry) := rfl

variable [Acceptor A C] [Acceptor B D] {a : A} {b : B}

theorem State.map_idle (htr : Acceptor.Translates a b carry tell) (word : List Char)
    (speed : Nat) : State.idle b word speed = (State.idle a word speed).map carry := by
  rw [State.idle, htr.initial]
  rfl

theorem State.map_started (htr : Acceptor.Translates a b carry tell) (word : List Char)
    (speed : Nat) : State.started b word speed = (State.started a word speed).map carry := by
  rw [State.started, State.map_idle htr, State.firstStep, htr.initial, htr.initialEpsilonReached]
  rfl

end

end Playback

namespace Simulation

open Playback

/-! ## Two simulations that show the same -/

/-- A simulation of `b` that shows what a simulation of `a` does. -/
structure Mirrors (a : A) (b : B) (carry : C → D) (tell : Outcome → Outcome)
    (s : Simulation A C) (s' : Simulation B D) : Prop where
  /-- The first is a simulation of `a`. -/
  first : s.automaton = a
  /-- The second is a simulation of `b`. -/
  second : s'.automaton = b
  /-- The next run of both would be over the same word. -/
  testInput : s'.testInput = s.testInput
  /-- The present run of both is over the same word. -/
  runInput : s'.runInput = s.runInput
  /-- Both were given the same timing. -/
  timing : s'.timing = s.timing
  /-- The states are the same but for the configurations. -/
  state : s'.state = s.state.map carry
  /-- What is said is the same but for the outcome. -/
  report : s.report.Corresponds tell s'.report
  /-- The flag of the preparation is on in both, or in neither. -/
  isLoading : s'.isLoading = s.isLoading
  /-- The same tick is pending, its number included. -/
  pending : s'.pending = s.pending
  /-- The counters agree, so the next ticks will be the same as well. -/
  generation : s'.generation = s.generation

section

variable {a : A} {b : B} {carry : C → D} {tell : Outcome → Outcome} {s : Simulation A C}
  {s' : Simulation B D}

theorem Mirrors.phase (h : Mirrors a b carry tell s s') : s'.phase = s.phase := by
  rw [Simulation.phase, Simulation.phase, h.state]
  rfl

theorem Mirrors.isRunning (h : Mirrors a b carry tell s s') :
    s'.state.isRunning = s.state.isRunning := by
  rw [h.state]
  rfl

theorem Mirrors.isComplete (h : Mirrors a b carry tell s s') :
    s'.state.isComplete = s.state.isComplete := by
  rw [h.state]
  rfl

theorem Mirrors.speed (h : Mirrors a b carry tell s s') : s'.state.speed = s.state.speed := by
  rw [h.state]
  rfl

theorem Mirrors.currentStep (h : Mirrors a b carry tell s s') :
    s'.state.currentStep = s.state.currentStep := by
  rw [h.state]
  rfl

theorem mirrors_schedule (h : Mirrors a b carry tell s s') (delay : Nat) :
    Mirrors a b carry tell (s.schedule delay) (s'.schedule delay) := by
  have hgeneration : s'.generation + 1 = s.generation + 1 := congrArg (· + 1) h.generation
  exact
    { h with
      pending := congrArg (fun n => some (Tick.mk n delay)) hgeneration
      generation := hgeneration }

theorem mirrors_cancel (h : Mirrors a b carry tell s s') :
    Mirrors a b carry tell s.cancel s'.cancel :=
  { h with
    pending := rfl
    generation := congrArg (· + 1) h.generation }

theorem mirrors_complete (h : Mirrors a b carry tell s s') (outcome : Outcome) :
    Mirrors a b carry tell (s.complete outcome) (s'.complete (tell outcome)) :=
  { mirrors_cancel h with
    state := congrArg (fun st => { st with isComplete := true }) h.state
    report :=
      Or.inr ⟨outcome, s.runInput, rfl, congrArg (Report.shown (tell outcome)) h.runInput⟩ }

theorem mirrors_pause (h : Mirrors a b carry tell s s') :
    Mirrors a b carry tell s.pause s'.pause := by
  cases hr : s.state.isRunning with
  | true =>
    rw [pause_of_running hr, pause_of_running (h.isRunning.trans hr)]
    exact
      { mirrors_cancel h with
        state := congrArg (fun st => { st with isPaused := true }) h.state }
  | false =>
    rw [pause_of_not_running hr, pause_of_not_running (h.isRunning.trans hr)]
    exact h

theorem mirrors_setTestInput (h : Mirrors a b carry tell s s') (word : List Char) :
    Mirrors a b carry tell (s.setTestInput word) (s'.setTestInput word) := by
  refine { h with testInput := rfl, state := ?_ }
  simp only [setTestInput, h.isRunning]
  split
  · exact h.state
  · rw [h.state]
    rfl

theorem mirrors_stepBackward (h : Mirrors a b carry tell s s') :
    Mirrors a b carry tell s.stepBackward s'.stepBackward := by
  -- the records to go back to correspond, since the paths do
  have hpath : s'.state.path.dropLast = s.state.path.dropLast.map (Step.map carry) := by
    rw [h.state, List.map_dropLast]
    rfl
  simp only [stepBackward, h.currentStep, h.isRunning, hpath, List.getLast?_map]
  split
  · exact h
  · cases s.state.path.dropLast.getLast? with
    | none => exact { h with state := by rw [h.state]; rfl }
    | some record =>
      exact
        { h with
          state := by rw [State.map_restore, h.state]; rfl
          report := Or.inl ⟨rfl, rfl⟩ }

/-! ## Steps -/

variable [Acceptor A C] [Acceptor B D] (htr : Acceptor.Translates a b carry tell)

include htr

theorem mirrors_new (timing : Timing) : Mirrors a b carry tell (new a timing) (new b timing) where
  first := rfl
  second := rfl
  testInput := rfl
  runInput := rfl
  timing := rfl
  state := State.map_idle htr [] _
  report := Or.inl ⟨rfl, rfl⟩
  isLoading := rfl
  pending := rfl
  generation := rfl

theorem reads_of_mirrors (h : Mirrors a b carry tell s s') {c : Char} {rest : List Char}
    {move : Advance C} (hread : s.Reads c rest move) : s'.Reads c rest (move.map carry) where
  next := by
    rw [h.state]
    exact hread.next
  advance := by
    have hmove := hread.advance
    rw [h.first] at hmove
    rw [h.second, h.state]
    exact htr.advance_of_ok hmove

/-- What the second simulation reads the first one reads too. -/
theorem exists_reads_of_mirrors (h : Mirrors a b carry tell s s') {c : Char} {rest : List Char}
    {move' : Advance D} (hread : s'.Reads c rest move') : ∃ move, s.Reads c rest move := by
  have hnext := hread.next
  have hmove' := hread.advance
  rw [h.state] at hnext
  rw [h.second, h.state] at hmove'
  cases hadvance : Acceptor.advance a s.state.configuration c with
  | ok move => exact ⟨move, hnext, h.first ▸ hadvance⟩
  | error outcome => exact absurd (hmove'.symm.trans (htr.advance_of_error hadvance)) (by simp)

theorem foreseen_of_mirrors (h : Mirrors a b carry tell s s') :
    s'.foreseen = tell s.foreseen := by
  rw [foreseen, foreseen, h.first, h.second, h.state]
  exact htr.evaluateFrom_eq s.state.remaining

theorem mirrors_advanceOne (h : Mirrors a b carry tell s s') :
    Mirrors a b carry tell s.advanceOne s'.advanceOne := by
  rcases advanceOne_cases s with ⟨hclosed, heq⟩
    | ⟨hr, hc, ⟨c, rest, move, hread, heq⟩ | ⟨hstuck, heq⟩⟩
  · rw [← h.isRunning, ← h.isComplete] at hclosed
    rw [heq, advanceOne_of_closed hclosed]
    exact h
  · rw [← h.isRunning] at hr
    rw [← h.isComplete] at hc
    rw [heq, advanceOne_of_reads hr hc (reads_of_mirrors htr h hread)]
    refine { h with state := ?_ }
    rw [Simulation.read, h.state]
    exact (State.map_push s.state c rest move).symm
  · -- the second machine reads nothing that the first one does not read
    have hstuck' : ∀ c rest move, ¬ s'.Reads c rest move := by
      intro c rest move' hread
      obtain ⟨move, hread⟩ := exists_reads_of_mirrors htr h hread
      exact hstuck c rest move hread
    rw [← h.isRunning] at hr
    rw [← h.isComplete] at hc
    rw [heq, advanceOne_of_stuck hr hc hstuck', foreseen_of_mirrors htr h]
    exact mirrors_complete h s.foreseen

theorem mirrors_step (h : Mirrors a b carry tell s s') :
    Mirrors a b carry tell s.step s'.step := by
  have hadv := mirrors_advanceOne htr h
  unfold step
  dsimp only
  -- phase and speed are the same in both, so the same tick is promised
  rw [hadv.phase, hadv.speed]
  split
  · exact mirrors_schedule hadv _
  · exact hadv

/-! ## Operations -/

theorem mirrors_start (h : Mirrors a b carry tell s s') :
    Mirrors a b carry tell s.start s'.start := by
  have hstate : State.started s'.automaton s'.testInput s'.state.speed
      = (State.started s.automaton s.testInput s.state.speed).map carry := by
    rw [h.first, h.second, h.testInput, h.speed]
    exact State.map_started htr s.testInput s.state.speed
  have hcancel := mirrors_cancel h
  rw [start, start, hcancel.timing]
  refine mirrors_schedule ?_ _
  exact
    { hcancel with
      runInput := h.testInput
      timing := rfl
      state := hstate
      report := Or.inl ⟨rfl, rfl⟩
      isLoading := rfl }

theorem mirrors_stop (h : Mirrors a b carry tell s s') :
    Mirrors a b carry tell s.stop s'.stop := by
  have hstate : State.idle s'.automaton s'.testInput s'.state.speed
      = (State.idle s.automaton s.testInput s.state.speed).map carry := by
    rw [h.first, h.second, h.testInput, h.speed]
    exact State.map_idle htr s.testInput s.state.speed
  exact
    { mirrors_cancel h with
      state := hstate
      report := Or.inl ⟨rfl, rfl⟩
      isLoading := rfl }

theorem mirrors_fire (h : Mirrors a b carry tell s s') (t : Tick) :
    Mirrors a b carry tell (s.fire t).1 (s'.fire t).1 := by
  by_cases ht : s.pending = some t
  · have htaken : Mirrors a b carry tell s.taken s'.taken :=
      { h with isLoading := rfl, pending := rfl }
    rw [fire_of_pending ht, fire_of_pending (h.pending.trans ht)]
    exact mirrors_step htr htaken
  · rw [fire_of_ne ht, fire_of_ne (fun h' => ht (h.pending.symm.trans h'))]
    exact h

theorem mirrors_resume (h : Mirrors a b carry tell s s') :
    Mirrors a b carry tell s.resume s'.resume := by
  cases hr : s.state.isRunning with
  | true =>
    have hfreed : Mirrors a b carry tell s.freed s'.freed :=
      { mirrors_cancel h with
        state := congrArg (fun st => { st with isPaused := false }) h.state
        isLoading := rfl }
    rw [resume_of_running hr, resume_of_running (h.isRunning.trans hr)]
    exact mirrors_step htr hfreed
  | false =>
    rw [resume_of_not_running hr, resume_of_not_running (h.isRunning.trans hr)]
    exact h

theorem mirrors_stepForward (h : Mirrors a b carry tell s s') :
    Mirrors a b carry tell s.stepForward s'.stepForward := by
  rw [stepForward, stepForward, h.phase]
  cases s.phase with
  | idle => exact mirrors_start htr h
  | paused =>
    have hheld : Mirrors a b carry tell s.held s'.held :=
      { mirrors_cancel h with isLoading := rfl }
    exact mirrors_advanceOne htr hheld
  | running => exact h
  | complete => exact h

theorem mirrors_submitInput (h : Mirrors a b carry tell s s') (word : List Char) :
    Mirrors a b carry tell (s.submitInput word).1 (s'.submitInput word).1 := by
  have hset := mirrors_setTestInput h word
  simp only [submitInput]
  split
  · exact { hset with report := Or.inl ⟨rfl, rfl⟩ }
  · exact mirrors_start htr hset

theorem mirrors_driven (h : Mirrors a b carry tell s s') :
    Mirrors a b carry tell s.driven s'.driven := by
  -- what is pending is the same, so both drives fire the same ticks and end together
  induction s using drive.induct generalizing s' with
  | case1 s hn =>
    rw [driven_of_none hn, driven_of_none (h.pending.trans hn)]
    exact h
  | case2 s t ht ih =>
    rw [driven_of_some ht, driven_of_some (h.pending.trans ht)]
    exact ih (mirrors_fire htr h t)

end

/-! ## The same calls -/

/-- The same call for two machines, ticks being matched in some way. No call puts another machine in
place. -/
inductive Counterpart (matched : Tick → Tick → Prop) : Operation A → Operation B → Prop
  | setTestInput (word : List Char) : Counterpart matched (.setTestInput word) (.setTestInput word)
  | submitInput (word : List Char) : Counterpart matched (.submitInput word) (.submitInput word)
  | start : Counterpart matched .start .start
  | fire {t t' : Tick} : matched t t' → Counterpart matched (.fire t) (.fire t')
  | pause : Counterpart matched .pause .pause
  | resume : Counterpart matched .resume .resume
  | stepForward : Counterpart matched .stepForward .stepForward
  | stepBackward : Counterpart matched .stepBackward .stepBackward
  | stop : Counterpart matched .stop .stop
  | setSpeed (ms : Nat) : Counterpart matched (.setSpeed ms) (.setSpeed ms)
  | drive : Counterpart matched .drive .drive

theorem Counterpart.mono {matched matched' : Tick → Tick → Prop} {op : Operation A}
    {op' : Operation B} (h : Counterpart matched op op')
    (himp : ∀ t t', matched t t' → matched' t t') : Counterpart matched' op op' := by
  cases h with
  | fire ht => exact .fire (himp _ _ ht)
  | _ => constructor

section

variable [Acceptor A C] [Acceptor B D]

/-- Ticks that were handed out at the same place of two histories. -/
def SamePlace (h : History A C) (h' : History B D) (t t' : Tick) : Prop :=
  ∃ i : Nat, h.scheduled[i]? = some t ∧ h'.scheduled[i]? = some t'

/-- What simulations of two machines come to by the same calls. -/
inductive InStep (a : A) (b : B) :
    History A C → Simulation A C → History B D → Simulation B D → Prop
  | new (timing : Timing) : InStep a b [] (new a timing) [] (new b timing)
  | act {h : History A C} {s : Simulation A C} {h' : History B D} {s' : Simulation B D}
      {op : Operation A} {op' : Operation B} :
      InStep a b h s h' s' → Counterpart (SamePlace h h') op op' →
        InStep a b ((s, op) :: h) (s.act op) ((s', op') :: h') (s'.act op')

variable {a : A} {b : B} {carry : C → D} {tell : Outcome → Outcome} {s : Simulation A C}
  {s' : Simulation B D} {h : History A C} {h' : History B D}

theorem reachable_of_inStep (hin : InStep a b h s h' s') : Reachable h s ∧ Reachable h' s' := by
  induction hin with
  | new timing => exact ⟨.init a timing, .init b timing⟩
  | act _ _ ih => exact ⟨.act _ ih.1, .act _ ih.2⟩

variable (htr : Acceptor.Translates a b carry tell)

include htr

/-- **The same call keeps two simulations showing the same.** -/
theorem mirrors_act (hm : Mirrors a b carry tell s s') {op : Operation A} {op' : Operation B}
    (hop : Counterpart Eq op op') : Mirrors a b carry tell (s.act op) (s'.act op') := by
  cases hop with
  | setTestInput word => exact mirrors_setTestInput hm word
  | submitInput word => exact mirrors_submitInput htr hm word
  | start => exact mirrors_start htr hm
  | fire ht =>
    subst ht
    exact mirrors_fire htr hm _
  | pause => exact mirrors_pause hm
  | resume => exact mirrors_resume htr hm
  | stepForward => exact mirrors_stepForward htr hm
  | stepBackward => exact mirrors_stepBackward hm
  | stop => exact mirrors_stop htr hm
  | setSpeed ms =>
    exact
      { hm with
        state := congrArg (fun st => { st with speed := Timing.clampSpeed ms }) hm.state }
  | drive => exact mirrors_driven htr hm

omit htr in
theorem renews_of_mirrors (hm : Mirrors a b carry tell s s') {op : Operation A} {op' : Operation B}
    (hop : Counterpart Eq op op') : s'.renews op' = s.renews op := by
  cases hop with
  | @fire t t' ht =>
    subst ht
    have hacc : (s'.fire t).2 = true ↔ (s.fire t).2 = true := by
      rw [fire_accepted, fire_accepted, hm.pending]
    exact Bool.eq_iff_iff.2 hacc
  | resume => exact hm.isRunning
  | stepForward =>
    rw [renews, renews, hm.phase]
  | _ => rfl

theorem schedules_driven (hm : Mirrors a b carry tell s s') :
    s'.schedules .drive = s.schedules .drive := by
  induction s using drive.induct generalizing s' with
  | case1 s hn => rw [schedules_drive_of_none hn, schedules_drive_of_none (hm.pending.trans hn)]
  | case2 s t ht ih =>
    have hfire := mirrors_fire htr hm t
    have hone : s'.schedules (.fire t) = s.schedules (.fire t) := by
      rw [schedules_eq s' (by simp), schedules_eq s (by simp), renews_of_mirrors hm (.fire rfl),
        act, act, hfire.pending]
    rw [schedules_drive_of_some ht, schedules_drive_of_some (hm.pending.trans ht), hone, ih hfire]

/-- **The same call hands out the same ticks.** -/
theorem schedules_of_mirrors (hm : Mirrors a b carry tell s s') {op : Operation A}
    {op' : Operation B} (hop : Counterpart Eq op op') : s'.schedules op' = s.schedules op := by
  by_cases hdrive : op = .drive
  · -- a drive schedules more than what is pending after it
    subst hdrive
    cases hop
    exact schedules_driven htr hm
  · have hdrive' : op' ≠ .drive := by
      rintro rfl
      cases hop
      exact hdrive rfl
    rw [schedules_eq s' hdrive', schedules_eq s hdrive, renews_of_mirrors hm hop,
      (mirrors_act htr hm hop).pending]

/-- **Simulations in step show the same, and have handed out the same ticks.** -/
theorem mirrors_of_inStep (hin : InStep a b h s h' s') :
    Mirrors a b carry tell s s' ∧ h'.scheduled = h.scheduled := by
  induction hin with
  | new timing => exact ⟨mirrors_new htr timing, rfl⟩
  | @act h s h' s' op op' _ hop ih =>
    obtain ⟨hm, hscheduled⟩ := ih
    -- ticks at the same place are the same tick
    have hsame : Counterpart Eq op op' := hop.mono fun t t' ⟨i, ht, ht'⟩ => by
      rw [hscheduled, ht] at ht'
      exact Option.some.inj ht'
    refine ⟨mirrors_act htr hm hsame, ?_⟩
    rw [History.scheduled, History.scheduled, hscheduled, schedules_of_mirrors htr hm hsame]

end

end Simulation

/-! ## Machines of one kind that stand in for each other -/

namespace Playback

theorem Step.map_id (r : Step C) : r.map id = r := by
  rw [Step.map, Option.map_id_fun]
  rfl

theorem State.map_id (st : State C) : st.map id = st := by
  have hpath : st.path.map (Step.map id) = st.path :=
    (List.map_congr_left fun r _ => Step.map_id r).trans (List.map_id' st.path)
  rw [State.map, hpath]
  rfl

theorem Report.eq_of_corresponds {r r' : Report} (h : r.Corresponds id r') : r' = r := by
  rcases h with ⟨-, rfl⟩ | ⟨outcome, word, rfl, rfl⟩
  · rfl
  · rfl

end Playback

namespace Simulation

open Playback

variable [Acceptor A C] {a b : A} {s s' : Simulation A C} {h h' : History A C}

/-- The same call in two simulations. A machine that is put in place may be exchanged for one that
does the same. -/
inductive CommonCall : Operation A → Operation A → Prop
  | same (op : Operation A) : CommonCall op op
  | exchange {k k' : A} :
      Acceptor.Translates k k' (id : C → C) id → CommonCall (.setAutomaton k) (.setAutomaton k')

omit [Acceptor A C] in
theorem eq_of_mirrors (hm : Mirrors a b id id s s') :
    s' = { s with automaton := s'.automaton } := by
  obtain ⟨-, -, htest, hrun, htiming, hstate, hreport, hloading, hpending, hgeneration⟩ := hm
  have hstate' := hstate.trans s.state.map_id
  have hreport' := Report.eq_of_corresponds hreport
  cases s'
  subst htest hrun htiming hstate' hreport' hloading hpending hgeneration
  rfl

omit [Acceptor A C] in
/-- A call that puts no other machine in place is its own counterpart. -/
theorem counterpart_self {op : Operation A} (hop : ∀ k, op ≠ .setAutomaton k) :
    Counterpart Eq op op := by
  cases op with
  | setAutomaton k => exact absurd rfl (hop k)
  | fire t => exact .fire rfl
  | _ => constructor

theorem mirrors_setAutomaton (hm : Mirrors a b id id s s') {k k' : A}
    (htr : Acceptor.Translates k k' id id) :
    Mirrors k k' id id (s.setAutomaton k) (s'.setAutomaton k') := by
  have hplaced : Mirrors k k' id id { s with automaton := k } { s' with automaton := k' } :=
    { hm with first := rfl, second := rfl }
  exact mirrors_stop htr hplaced

/-- **The same call keeps two simulations in step, whichever machine is put in place.** -/
theorem exists_mirrors_act (htr : Acceptor.Translates a b id id) (hm : Mirrors a b id id s s')
    {op op' : Operation A} (hop : CommonCall op op') :
    ∃ k k', Acceptor.Translates k k' id id ∧ Mirrors k k' id id (s.act op) (s'.act op')
      ∧ s'.schedules op' = s.schedules op := by
  cases hop with
  | exchange hk => exact ⟨_, _, hk, mirrors_setAutomaton hm hk, rfl⟩
  | same op =>
    by_cases hset : ∃ k, op = .setAutomaton k
    · -- the same machine is put in place in both, whatever the two had been
      obtain ⟨k, rfl⟩ := hset
      exact ⟨k, k, .refl k, mirrors_setAutomaton hm (.refl k), rfl⟩
    · have hself := counterpart_self fun k hk => hset ⟨k, hk⟩
      exact ⟨a, b, htr, mirrors_act htr hm hself, schedules_of_mirrors htr hm hself⟩

theorem perform_common (htr : Acceptor.Translates a b id id) (hm : Mirrors a b id id s s')
    (hscheduled : h'.scheduled = h.scheduled) {ops ops' : List (Operation A)}
    (hops : List.Forall₂ CommonCall ops ops') :
    (perform h' s' ops').2
        = { (perform h s ops).2 with automaton := (perform h' s' ops').2.automaton }
      ∧ (perform h' s' ops').1.scheduled = (perform h s ops).1.scheduled := by
  induction hops generalizing h s h' s' a b with
  | nil => exact ⟨eq_of_mirrors hm, hscheduled⟩
  | @cons op op' ops ops' hop _ ih =>
    obtain ⟨k, k', hk, hact, hschedules⟩ := exists_mirrors_act htr hm hop
    refine ih hk hact ?_
    rw [History.scheduled, History.scheduled, hscheduled, hschedules]

/-- **Machines that do the same are played back alike.** Whatever is done with both, their
simulations agree in all but the machine, and have handed out the same ticks. -/
theorem runs_agree (htr : Acceptor.Translates a b id id) (timing : Timing)
    {ops ops' : List (Operation A)} (hops : List.Forall₂ CommonCall ops ops') :
    (perform [] (new b timing) ops').2
        = { (perform [] (new a timing) ops).2 with
            automaton := (perform [] (new b timing) ops').2.automaton }
      ∧ (perform [] (new b timing) ops').1.scheduled
        = (perform [] (new a timing) ops).1.scheduled :=
  perform_common htr (mirrors_new htr timing) rfl hops

end Simulation

end AutomataLab
