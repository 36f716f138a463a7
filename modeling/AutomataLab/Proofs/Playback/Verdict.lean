import AutomataLab.Proofs.Playback.Trace

/-!
# The verdict of a run is that of the whole word

A run finds its verdict step by step, through whatever pauses, undone steps and cancelled ticks
lie between; `Acceptor.evaluate` reads the word at once. They agree whenever a verdict is shown.

`Settles` says all that an operation which goes on with a run can do to the verdict: it keeps the
one there is, or leaves the run open with nothing said, or finds the verdict of the whole word.
Every other operation but one leaves no run complete and nothing said (`act_settles`). The one is
the submission of an empty input, which is refused with a remark that takes the place of whatever
was shown.
-/

namespace AutomataLab.Simulation

open Playback

variable {A C : Type} [Acceptor A C]

/-! ## What going on with a run does to the verdict -/

/-- The verdict of the word that is run over, read at once. -/
def wordVerdict (s : Simulation A C) : Report :=
  .shown (Acceptor.evaluate s.automaton s.runInput) s.runInput

/-- A verdict is kept, or none is found, or that of the whole word is found. -/
structure Settles (s s' : Simulation A C) : Prop where
  /-- The run is the same. -/
  verdict : s'.wordVerdict = s.wordVerdict
  /-- A run that is complete stays so, and shows the same. -/
  kept : s.phase = .complete → s'.phase = .complete ∧ s'.report = s.report
  /-- A run that is not complete shows the same, or the verdict of the whole word. -/
  found : s.phase ≠ .complete →
    (s'.phase ≠ .complete ∧ s'.report = s.report)
      ∨ (s'.phase = .complete ∧ s'.report = s.wordVerdict)

/-- Nothing that concerns the verdict has changed. -/
theorem settles_of_quiet {s s' : Simulation A C} (hv : s'.wordVerdict = s.wordVerdict)
    (hp : s'.phase = .complete ↔ s.phase = .complete) (hrep : s'.report = s.report) :
    Settles s s' where
  verdict := hv
  kept := fun hc => ⟨hp.2 hc, hrep⟩
  found := fun hc => Or.inl ⟨fun hc' => hc (hp.1 hc'), hrep⟩

theorem Settles.refl (s : Simulation A C) : Settles s s := settles_of_quiet rfl Iff.rfl rfl

theorem Settles.trans {s₁ s₂ s₃ : Simulation A C} (h₁ : Settles s₁ s₂) (h₂ : Settles s₂ s₃) :
    Settles s₁ s₃ where
  verdict := h₂.verdict.trans h₁.verdict
  kept := fun hc => by
    obtain ⟨hc₂, hrep₂⟩ := h₁.kept hc
    obtain ⟨hc₃, hrep₃⟩ := h₂.kept hc₂
    exact ⟨hc₃, hrep₃.trans hrep₂⟩
  found := fun hc => by
    rcases h₁.found hc with ⟨hc₂, hrep₂⟩ | ⟨hc₂, hrep₂⟩
    · -- still open in the middle: the second part keeps what is shown, or finds the verdict
      rcases h₂.found hc₂ with ⟨hc₃, hrep₃⟩ | ⟨hc₃, hrep₃⟩
      · exact Or.inl ⟨hc₃, hrep₃.trans hrep₂⟩
      · exact Or.inr ⟨hc₃, hrep₃.trans h₁.verdict⟩
    · obtain ⟨hc₃, hrep₃⟩ := h₂.kept hc₂
      exact Or.inr ⟨hc₃, hrep₃.trans hrep₂⟩

/-- On the trace, reading on comes to the same as reading the whole word. -/
theorem foreseen_eq_evaluate {s : Simulation A C} (ht : Traced s)
    (hr : s.state.isRunning = true) :
    s.foreseen = Acceptor.evaluate s.automaton s.runInput := by
  obtain ⟨r, htr, hconf, _, hrem⟩ := (ht.running hr).position
  rw [foreseen, hconf, hrem, evaluate_eq_of_trace htr]

theorem settles_advanceOne {s : Simulation A C} (ht : Traced s) : Settles s s.advanceOne := by
  refine advanceOne_elim (.refl s) (fun c rest move _ _ => ?_) (fun hr hc => ?_)
  · exact settles_of_quiet rfl Iff.rfl rfl
  · have hopen : s.phase ≠ .complete := by simp [phase_eq_complete, hc]
    rw [foreseen_eq_evaluate ht hr]
    exact ⟨rfl, fun h => absurd h hopen, fun _ => Or.inr ⟨phase_eq_complete.2 ⟨hr, rfl⟩, rfl⟩⟩

theorem settles_step {s : Simulation A C} (ht : Traced s) : Settles s s.step := by
  have hadv := settles_advanceOne ht
  exact step_elim hadv fun _ => hadv.trans (settles_of_quiet rfl Iff.rfl rfl)

theorem settles_fire {s : Simulation A C} (ht : Traced s) (t : Tick) :
    Settles s (s.fire t).1 := by
  have htaken : Settles s s.taken := settles_of_quiet rfl Iff.rfl rfl
  exact fire_elim (.refl s) fun _ => htaken.trans (settles_step ⟨ht.running, ht.idle⟩)

theorem settles_driven {s : Simulation A C} (ht : Traced s) : Settles s s.driven := by
  -- that a firing settles depends on the trace, so the drive keeps both
  have h := driven_induction (P := fun r => Traced r ∧ Settles s r)
    (fun r t _ hr => ⟨traced_fire hr.1 t, hr.2.trans (settles_fire hr.1 t)⟩) s ⟨ht, .refl s⟩
  exact h.2

theorem settles_pause (s : Simulation A C) : Settles s s.pause :=
  pause_elim (.refl s) fun _ => settles_of_quiet rfl (by simp [phase_eq_complete, cancel]) rfl

theorem settles_resume {s : Simulation A C} (ht : Traced s) : Settles s s.resume := by
  refine resume_elim (.refl s) fun hr => ?_
  -- a resumption changes no more than the flags before it takes its step
  have hon := ht.running hr
  have hfreed : Settles s s.freed :=
    settles_of_quiet rfl (by simp [phase_eq_complete, freed, cancel]) rfl
  exact hfreed.trans (settles_step (traced_of_running hr ⟨hon.path, hon.position⟩))

/-! ## Every operation but one settles or opens -/

/-- No run is complete, and nothing is said. -/
def Open (s : Simulation A C) : Prop := s.phase ≠ .complete ∧ s.report = .hidden

theorem open_start (s : Simulation A C) : Open s.start :=
  ⟨by simp [phase_eq_complete, start, schedule, State.started, State.idle], rfl⟩

theorem open_stop (s : Simulation A C) : Open s.stop :=
  ⟨by simp [phase_eq_complete, stop, State.idle], rfl⟩

theorem settles_or_open_stepBackward {s : Simulation A C} (ht : Traced s) :
    Settles s s.stepBackward ∨ Open s.stepBackward := by
  rcases stepBackward_cases ht with heq | ⟨_, n, r, _, _, heq⟩
  · rw [heq]
    exact Or.inl (.refl s)
  · rw [heq]
    exact Or.inr ⟨by simp [phase_eq_complete, State.restore], rfl⟩

theorem act_settles {s : Simulation A C} (ht : Traced s) {op : Operation A}
    (hne : op ≠ .submitInput []) : Settles s (s.act op) ∨ Open (s.act op) := by
  cases op with
  | setTestInput word => exact Or.inl (settles_of_quiet rfl (by rw [act, phase_setTestInput]) rfl)
  | submitInput word =>
    have hw : word ≠ [] := fun hw => hne (by rw [hw])
    rw [act_submitInput s hw]
    exact Or.inr (open_start _)
  | start => exact Or.inr (open_start s)
  | fire t => exact Or.inl (settles_fire ht t)
  | pause => exact Or.inl (settles_pause s)
  | resume => exact Or.inl (settles_resume ht)
  | stepForward =>
    rcases act_stepForward_cases s with ⟨_, heq⟩ | ⟨_, heq⟩ | ⟨_, _, heq⟩
    · rw [heq]
      exact Or.inr (open_start s)
    · have hheld : Settles s s.held := settles_of_quiet rfl Iff.rfl rfl
      rw [heq]
      exact Or.inl (hheld.trans (settles_advanceOne ⟨ht.running, ht.idle⟩))
    · rw [heq]
      exact Or.inl (.refl s)
  | stepBackward => exact settles_or_open_stepBackward ht
  | stop => exact Or.inr (open_stop s)
  | setSpeed ms => exact Or.inl (settles_of_quiet rfl Iff.rfl rfl)
  | setAutomaton a => exact Or.inr (open_stop _)
  | drive => exact Or.inl (settles_driven ht)

/-! ## The invariant -/

/-- What is shown, told from the phase and the history. -/
structure Judged (h : History A C) (s : Simulation A C) : Prop where
  /-- No outcome is shown before the run is complete. -/
  unsettled : s.phase ≠ .complete → s.report.outcome = none
  /-- A complete run shows the verdict of its word. -/
  settled : s.phase = .complete → ¬ h.Refused → s.report = s.wordVerdict
  /-- Only the remark on an empty input takes its place. -/
  refused : s.phase = .complete → h.Refused → s.report.outcome = none

theorem judged_init (a : A) (timing : Timing) : Judged [] (new a timing) where
  unsettled := fun _ => rfl
  settled := fun hc => absurd hc (by simp [phase_eq_complete, new, State.idle])
  refused := fun _ h => h.elim

/-- **The verdict invariant is preserved by every operation.** -/
theorem judged_act {h : History A C} {s : Simulation A C} (ht : Traced s) (hj : Judged h s)
    (op : Operation A) : Judged ((s, op) :: h) (s.act op) := by
  by_cases hop : op = .submitInput []
  · -- the input is refused; whatever was shown is gone
    subst hop
    refine ⟨fun _ => rfl, fun hc hn => ?_, fun _ _ => rfl⟩
    have hc' : s.phase = .complete := by
      rw [← phase_setTestInput s []]
      exact hc
    exact absurd ⟨hc', Or.inl rfl⟩ hn
  · rcases act_settles ht hop with hs | ⟨hopen, hhid⟩
    · by_cases hc : s.phase = .complete
      · -- the run had been complete, and still shows what it showed
        obtain ⟨hc', hrep⟩ := hs.kept hc
        have href : History.Refused ((s, op) :: h) ↔ h.Refused := by
          simp [History.Refused, hc, hop]
        refine ⟨fun hn => absurd hc' hn, fun _ hn => ?_, fun _ hy => ?_⟩
        · rw [hrep, hs.verdict]
          exact hj.settled hc fun hy => hn (href.2 hy)
        · rw [hrep]
          exact hj.refused hc (href.1 hy)
      · -- the run goes on, or finds its verdict just now
        have href : ¬ History.Refused ((s, op) :: h) := fun hy => hc hy.1
        rcases hs.found hc with ⟨hc', hrep⟩ | ⟨hc', hrep⟩
        · exact ⟨fun _ => by rw [hrep]; exact hj.unsettled hc, fun hn => absurd hn hc',
            fun hn => absurd hn hc'⟩
        · exact ⟨fun hn => absurd hc' hn, fun _ _ => by rw [hrep, hs.verdict],
            fun _ hy => absurd hy href⟩
    · -- a run was begun, ended or taken back
      exact ⟨fun _ => by rw [hhid]; rfl, fun hc => absurd hc hopen, fun hc => absurd hc hopen⟩

theorem judged_reachable {h : History A C} {s : Simulation A C} (hr : Reachable h s) :
    Judged h s := by
  induction hr with
  | init a timing => exact judged_init a timing
  | act op hr ih => exact judged_act (traced_reachable hr) ih op

/-- An outcome is shown by a complete run only, and is that of the word that is run over. -/
theorem Judged.of_outcome {h : History A C} {s : Simulation A C} (hj : Judged h s) {o : Outcome}
    (ho : s.report.outcome = some o) : s.phase = .complete ∧ s.report = s.wordVerdict := by
  have hc : s.phase = .complete := by
    by_cases hc : s.phase = .complete
    · exact hc
    · rw [hj.unsettled hc] at ho
      exact absurd ho (by simp)
  have hn : ¬ h.Refused := by
    intro hy
    rw [hj.refused hc hy] at ho
    exact absurd ho (by simp)
  exact ⟨hc, hj.settled hc hn⟩

theorem Judged.outcome_eq {h : History A C} {s : Simulation A C} (hj : Judged h s) {o : Outcome}
    (ho : s.report.outcome = some o) : o = Acceptor.evaluate s.automaton s.runInput := by
  rw [(hj.of_outcome ho).2] at ho
  exact (Option.some.inj ho).symm

/--
**What playing back finds is what reading the word at once finds.**

The verdict is that of the automaton in the simulation on the word of the run, whatever the test
input has become meanwhile. A run that is complete shows it, unless an empty input was refused
since.
-/
theorem outcome_eq_evaluate {h : History A C} {s : Simulation A C} (hr : Reachable h s) :
    (∀ o, s.report.outcome = some o →
        s.phase = .complete ∧ o = Acceptor.evaluate s.automaton h.word
          ∧ s.report.accepted = o.isAccepted ∧ s.report.visible = true
          ∧ s.report.message = o.message (.ofList h.word))
      ∧ (s.phase = .complete → (s.report.outcome = none ↔ h.Refused)) := by
  have hj := judged_reachable hr
  have hword := runInput_eq_word hr
  constructor
  · intro o ho
    obtain ⟨hc, hrep⟩ := hj.of_outcome ho
    rw [wordVerdict, hword] at hrep
    rw [hrep] at ho ⊢
    obtain rfl := Option.some.inj ho
    exact ⟨hc, rfl, rfl, rfl, rfl⟩
  · intro hc
    constructor
    · intro ho
      by_cases hy : h.Refused
      · exact hy
      · rw [hj.settled hc hy] at ho
        exact absurd ho (by simp [wordVerdict, Report.shown])
    · exact hj.refused hc

/-- The verdict is found, undone and found again, and the input is edited in between. -/
theorem parity_verdict_found_again :
    let ops : List (Operation DFA) := [.setTestInput ['a', 'b'], .start, .pause, .stepForward,
      .stepForward, .stepForward, .stepBackward, .setTestInput ['a', 'a'], .stepForward, .resume]
    let p := perform [] (new parity {}) ops
    p.1.word = ['a', 'b'] ∧ p.2.report.outcome = some (.endedInRejectingState "odd")
      ∧ p.2.phase = .complete
      ∧ Outcome.endedInRejectingState "odd" = Acceptor.evaluate p.2.automaton p.1.word := by
  intro ops p
  have hr : Reachable p.1 p.2 := reachable_perform (.init parity {}) ops
  have hword : p.1.word = ['a', 'b'] := by decide
  have ho : p.2.report.outcome = some (.endedInRejectingState "odd") := by decide
  obtain ⟨hc, heq, _⟩ := (outcome_eq_evaluate hr).1 _ ho
  exact ⟨hword, ho, hc, heq⟩

end AutomataLab.Simulation
