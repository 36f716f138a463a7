import AutomataLab.Proofs.Playback.Ticks

/-!
# Preparing a run

A run begins with a tick of its own, and until this tick comes the run is being prepared and the
simulation tells so. The flag that it tells it by is kept apart from the tick: what puts the tick
away has to clear the flag as well. All but one of the operations do; a pause takes the tick away
and leaves the flag.

So there are two ways for the flag to be on. The tick of the last start is pending (`Prepares`), or
a pause has taken it away and the run has not been let go on since (`HeldUp`). Nothing else is
possible (`explained_reachable`), and a run whose preparation is held up is paused, so the flag is
right in every other phase.
-/

namespace AutomataLab

open Playback

/-! ## What the history tells -/

namespace History

variable {A C : Type} [Acceptor A C]

/-- The tick that the last start scheduled. -/
def startTick : History A C → Option Tick
  | [] => none
  | (s, op) :: h => if s.begins op = none then startTick h else (s.schedules op).head?

/-- The tick of the last start is pending. -/
def Prepares (h : History A C) (s : Simulation A C) : Prop :=
  ∃ t, h.startTick = some t ∧ s.pending = some t

/-- A pause took the tick of the last start away before it came, and nothing has ended the pause. -/
def HeldUp : History A C → Prop
  | [] => False
  | (s, .pause) :: h => Prepares h s ∨ HeldUp h
  | (s, op) :: h => HeldUp h ∧ ¬s.Supersedes op

variable {h : History A C} {s : Simulation A C} {op : Operation A} {t : Tick}

theorem heldUp_cons (hop : op ≠ .pause) :
    HeldUp ((s, op) :: h) ↔ HeldUp h ∧ ¬s.Supersedes op := by
  cases op with
  | pause => exact absurd rfl hop
  | _ => exact Iff.rfl

theorem startTick_cons (hb : s.begins op = none) : startTick ((s, op) :: h) = h.startTick := by
  rw [startTick, if_pos hb]

theorem mem_scheduled_of_startTick (ht : h.startTick = some t) : t ∈ h.scheduled := by
  induction h with
  | nil => exact absurd ht (by simp [startTick])
  | cons e h ih =>
    obtain ⟨s, op⟩ := e
    rw [scheduled, List.mem_append]
    rw [startTick] at ht
    split at ht
    · exact Or.inl (ih ht)
    · exact Or.inr (List.mem_of_mem_head? ht)

end History

namespace Simulation

variable {A C : Type} [Acceptor A C] {h : History A C} {s : Simulation A C} {op : Operation A}
  {t : Tick}

/-! ## Starts -/

/-- What begins a run does so by a start, whose tick takes the place of any other. -/
theorem begins_cases (hb : s.begins op ≠ none) :
    (∃ r, s.act op = start r) ∧ s.Supersedes op ∧ s.schedules op = (s.act op).pending.toList := by
  cases op with
  | start => exact ⟨⟨s, rfl⟩, trivial, rfl⟩
  | submitInput word =>
    have hw : word ≠ [] := fun hw => hb (if_pos hw)
    refine ⟨⟨s.setTestInput word, act_submitInput s hw⟩, hw, ?_⟩
    rw [schedules_eq s (by simp), if_pos (by simp [renews, hw])]
  | stepForward =>
    by_cases hp : s.phase = .idle
    · refine ⟨⟨s, act_stepForward_of_idle hp⟩, Or.inr hp, ?_⟩
      rw [schedules_eq s (by simp), if_pos (by simp [renews, hp])]
    · exact absurd (if_neg hp) hb
  | _ => exact absurd rfl hb

/-- A start prepares its run. -/
theorem prepares_of_begins (hb : s.begins op ≠ none) :
    History.Prepares ((s, op) :: h) (s.act op) ∧ (s.act op).isLoading = true := by
  obtain ⟨⟨r, hr⟩, -, hschedules⟩ := begins_cases hb
  refine ⟨⟨_, ?_, by rw [hr]; rfl⟩, by rw [hr]; rfl⟩
  rw [History.startTick, if_neg hb, hschedules, hr]
  rfl

/-! ## The flag -/

theorem isLoading_step (s : Simulation A C) : s.step.isLoading = s.isLoading := by
  have hcalm := advanceOne_calm s
  exact step_elim (P := fun r => r.isLoading = s.isLoading) hcalm.isLoading
    fun _ => hcalm.isLoading

theorem isLoading_fire (ht : s.pending = some t) : (s.fire t).1.isLoading = false := by
  rw [fire_of_pending ht]
  exact isLoading_step s.taken

theorem isLoading_driven (ht : s.pending = some t) : s.driven.isLoading = false := by
  rw [driven_of_some ht]
  exact driven_induction (P := fun r => r.isLoading = false) (fun _ _ hp _ => isLoading_fire hp) _
    (isLoading_fire ht)

/-- An operation other than a pause puts the tick away and clears the flag, or it leaves both. -/
theorem isLoading_act_cases (hb : s.begins op = none) (hop : op ≠ .pause) :
    ((s.act op).isLoading = false ∧ (s.Supersedes op ∨ ∃ t, s.pending = some t))
      ∨ ((s.act op).isLoading = s.isLoading ∧ (s.act op).pending = s.pending
        ∧ (s.Supersedes op → s.phase ≠ .paused)) := by
  cases op with
  | setTestInput word => exact Or.inr ⟨rfl, rfl, False.elim⟩
  | submitInput word =>
    -- with a word in it the input would begin a run, so it is the empty one, which is refused
    have hw : word = [] := by simpa [begins] using hb
    subst hw
    exact Or.inr ⟨rfl, rfl, fun hs => absurd rfl hs⟩
  | start => exact absurd hb (by simp [begins])
  | fire t =>
    by_cases ht : s.pending = some t
    · -- the pending tick is put away by its own firing, which supersedes nothing
      exact Or.inl ⟨isLoading_fire ht, Or.inr ⟨t, ht⟩⟩
    · rw [act, fire_of_ne ht]
      exact Or.inr ⟨rfl, rfl, False.elim⟩
  | pause => exact absurd rfl hop
  | resume =>
    cases hr : s.state.isRunning with
    | true =>
      -- the flag is cleared before the step of the resumption, which leaves it
      rw [act, resume_of_running hr]
      exact Or.inl ⟨isLoading_step s.freed, Or.inl trivial⟩
    | false =>
      -- without a run nothing is resumed, though by name it supersedes; but then nothing is paused
      rw [act, resume_of_not_running hr]
      exact Or.inr ⟨rfl, rfl, fun _ => by simp [phase_eq_paused, hr]⟩
  | stepForward =>
    rcases act_stepForward_cases s with ⟨hp, -⟩ | ⟨hp, heq⟩ | ⟨-, hp, heq⟩
    · exact absurd hb (by simp [begins, hp])
    · rw [heq]
      exact Or.inl ⟨(advanceOne_calm s.held).isLoading, Or.inl (Or.inl hp)⟩
    · -- running or complete: the step is not taken
      rw [heq]
      exact Or.inr ⟨rfl, rfl, fun _ => hp⟩
  | stepBackward =>
    -- going back looks at neither the tick nor the flag
    refine Or.inr ⟨?_, ?_, False.elim⟩
    all_goals
      simp only [act, stepBackward]
      split
      · rfl
      · split <;> rfl
  | stop => exact Or.inl ⟨rfl, Or.inl trivial⟩
  | setSpeed ms => exact Or.inr ⟨rfl, rfl, False.elim⟩
  | setAutomaton a => exact Or.inl ⟨rfl, Or.inl trivial⟩
  | drive =>
    cases hp : s.pending with
    -- the first firing of a drive clears the flag, and the others leave it so
    | some t => exact Or.inl ⟨isLoading_driven hp, Or.inr ⟨t, rfl⟩⟩
    | none =>
      rw [act, driven_of_none hp]
      exact Or.inr ⟨rfl, hp, False.elim⟩

/-! ## A preparation that is held up -/

/-- What does not supersede a pause leaves it. -/
theorem phase_act_of_paused (htraced : Traced s) (ht : Ticking s) (hp : s.phase = .paused)
    (hs : ¬s.Supersedes op) : (s.act op).phase = .paused := by
  -- a paused run has no tick, so firings and drives do nothing
  have hn : s.pending = none := ht.pending_eq_none (by simp [hp])
  cases op with
  | setTestInput word => exact (phase_setTestInput s word).trans hp
  | submitInput word =>
    -- a word would begin another run; the refused input only changes what is said
    have hw : word = [] := by simpa [Supersedes] using hs
    subst hw
    exact (phase_setTestInput s []).trans hp
  | fire t =>
    rw [act, fire_of_ne (by simp [hn])]
    exact hp
  | stepForward => exact absurd (Or.inl hp) hs
  | stepBackward =>
    rcases stepBackward_cases htraced with heq | ⟨hr, n, r, -, -, heq⟩
    · rw [act, heq]
      exact hp
    · rw [act, heq, phase_eq_paused]
      exact ⟨hr, by simp [State.restore, (phase_eq_paused.1 hp).2.1], rfl⟩
  | setSpeed ms => exact hp
  | drive =>
    rw [act, driven_of_none hn]
    exact hp
  | _ => exact absurd trivial hs

/-- A run whose preparation is held up is paused. -/
theorem paused_of_heldUp (hr : Reachable h s) (hheld : h.HeldUp) : s.phase = .paused := by
  induction hr with
  | init a timing => exact hheld.elim
  | @act h s op hr ih =>
    by_cases hop : op = .pause
    · subst hop
      -- the run was going on or paused, so it can be held
      have hopen : s.state.isRunning = true ∧ s.state.isComplete = false := by
        rcases hheld with ⟨t, -, ht⟩ | hheld
        · obtain ⟨hrun, -, hcomplete⟩ := phase_eq_running.1 ((ticking_reachable hr).1 ⟨t, ht⟩)
          exact ⟨hrun, hcomplete⟩
        · obtain ⟨hrun, -, hcomplete⟩ := phase_eq_paused.1 (ih hheld)
          exact ⟨hrun, hcomplete⟩
      rw [act, pause_of_running hopen.1, phase_eq_paused]
      exact ⟨hopen.1, rfl, hopen.2⟩
    · obtain ⟨hheld, hs⟩ := (History.heldUp_cons hop).1 hheld
      exact phase_act_of_paused (traced_reachable hr) (ticking_reachable hr) (ih hheld) hs

theorem pending_of_heldUp (hr : Reachable h s) (hheld : h.HeldUp) : s.pending = none :=
  (ticking_reachable hr).pending_eq_none (by simp [paused_of_heldUp hr hheld])

/-! ## The two ways for the flag to be on -/

/-- A preparation that goes on was not disturbed. -/
theorem undisturbed_of_prepares (hr : Reachable h s) (hb : s.begins op = none)
    (hp : History.Prepares ((s, op) :: h) (s.act op)) :
    h.Prepares s ∧ Undisturbed s (s.act op) := by
  obtain ⟨t, hstart, ht⟩ := hp
  rw [History.startTick_cons hb] at hstart
  rcases act_pending_cases ht with ⟨-, hu⟩ | ⟨-, hf⟩
  · exact ⟨⟨t, hstart, hu.pending.symm.trans ht⟩, hu⟩
  · -- what was scheduled just now is ahead of the tick of the start
    have hold := (accounted_reachable hr).old t (History.mem_scheduled_of_startTick hstart)
    exact absurd hold (Nat.not_le_of_lt hf.newer)

/-- The flag is on for one of the two reasons. -/
def Explained (h : History A C) (s : Simulation A C) : Prop :=
  s.isLoading = true ↔ h.Prepares s ∨ h.HeldUp

theorem explained_init (a : A) (timing : Timing) : Explained [] (new a timing) := by
  simp [Explained, new, History.Prepares, History.startTick, History.HeldUp]

theorem explained_of_begins (hb : s.begins op ≠ none) : Explained ((s, op) :: h) (s.act op) := by
  obtain ⟨hp, hloading⟩ := prepares_of_begins (h := h) hb
  exact iff_of_true hloading (Or.inl hp)

/-- A pause turns the first reason into the second. -/
theorem explained_pause (ht : Ticking s) (h₀ : Explained h s) :
    Explained ((s, .pause) :: h) (s.act .pause) := by
  have hsupersedes : s.Supersedes .pause := trivial
  have hn : (s.act .pause).pending = none :=
    (pending_of_supersedes ht hsupersedes).resolve_right (by simp [renews])
  have hkept : (s.act .pause).isLoading = s.isLoading := by
    rw [act, pause]
    split <;> rfl
  -- with its tick gone the start is not being prepared any more, but held up
  have hnot : ¬History.Prepares ((s, .pause) :: h) (s.act .pause) := by
    rintro ⟨t, -, ht⟩
    exact absurd (hn.symm.trans ht) (by simp)
  unfold Explained
  rw [hkept, or_iff_right hnot]
  exact h₀

/-- An operation that puts the tick away without a new start leaves no reason. -/
theorem explained_of_cleared (hr : Reachable h s) (h₀ : Explained h s) (hb : s.begins op = none)
    (hop : op ≠ .pause) (hcleared : (s.act op).isLoading = false)
    (hcause : s.Supersedes op ∨ ∃ t, s.pending = some t) :
    Explained ((s, op) :: h) (s.act op) := by
  refine iff_of_false (by simp [hcleared]) ?_
  rintro (hp | hheld)
  · -- a preparation that went on would have kept the flag
    obtain ⟨hp, hu⟩ := undisturbed_of_prepares hr hb hp
    have hon := hu.isLoading.trans (h₀.2 (Or.inl hp))
    exact absurd (hcleared.symm.trans hon) (by simp)
  · -- while it is held up no tick is pending
    obtain ⟨hheld, hs⟩ := (History.heldUp_cons hop).1 hheld
    obtain ⟨t, ht⟩ := hcause.resolve_left hs
    exact absurd ((pending_of_heldUp hr hheld).symm.trans ht) (by simp)

/-- An operation that leaves the tick leaves both reasons as they are. -/
theorem explained_of_kept (hr : Reachable h s) (h₀ : Explained h s) (hb : s.begins op = none)
    (hop : op ≠ .pause) (hkept : (s.act op).isLoading = s.isLoading)
    (hpending : (s.act op).pending = s.pending) (hphase : s.Supersedes op → s.phase ≠ .paused) :
    Explained ((s, op) :: h) (s.act op) := by
  have hprepares : History.Prepares ((s, op) :: h) (s.act op) ↔ h.Prepares s := by
    simp only [History.Prepares, History.startTick_cons hb, hpending]
  have hheld : h.HeldUp ∧ ¬s.Supersedes op ↔ h.HeldUp :=
    and_iff_left_of_imp fun hheld hs => hphase hs (paused_of_heldUp hr hheld)
  unfold Explained
  rw [hkept, hprepares, History.heldUp_cons hop, hheld]
  exact h₀

theorem explained_act (hr : Reachable h s) (h₀ : Explained h s) (op : Operation A) :
    Explained ((s, op) :: h) (s.act op) := by
  by_cases hb : s.begins op = none
  · by_cases hop : op = .pause
    · subst hop
      exact explained_pause (ticking_reachable hr) h₀
    · rcases isLoading_act_cases hb hop with ⟨hcleared, hcause⟩ | ⟨hkept, hpending, hphase⟩
      · exact explained_of_cleared hr h₀ hb hop hcleared hcause
      · exact explained_of_kept hr h₀ hb hop hkept hpending hphase
  · exact explained_of_begins hb

theorem explained_reachable (hr : Reachable h s) : Explained h s := by
  induction hr with
  | init a timing => exact explained_init a timing
  | act op hr ih => exact explained_act hr ih op

/--
**The flag is on while a run is prepared, and while a pause holds the preparation up.**

A run is prepared as long as the tick of its start is pending. If a pause takes this tick away, the
flag stays on until the run is let go on, by itself or by hand, is given up, or another one is
begun. Nothing is pending all this time and the run is paused; so in every other phase, and whenever
some tick is pending, the flag tells whether that is the tick of the last start.
-/
theorem loading_iff_preparing (hr : Reachable h s) :
    (s.isLoading = true ↔ h.Prepares s ∨ h.HeldUp)
      ∧ (h.HeldUp → s.phase = .paused ∧ s.pending = none)
      ∧ (s.phase ≠ .paused → (s.isLoading = true ↔ h.Prepares s))
      ∧ ((∃ t, s.pending = some t) → (s.isLoading = true ↔ h.Prepares s)) := by
  have hflag : s.isLoading = true ↔ h.Prepares s ∨ h.HeldUp := explained_reachable hr
  have hpaused := paused_of_heldUp hr
  have hnone := pending_of_heldUp hr
  refine ⟨hflag, fun hheld => ⟨hpaused hheld, hnone hheld⟩, fun hphase => ?_, fun ⟨t, ht⟩ => ?_⟩
  · exact hflag.trans (or_iff_left fun hheld => hphase (hpaused hheld))
  · exact hflag.trans (or_iff_left fun hheld => absurd ((hnone hheld).symm.trans ht) (by simp))

/-- The run is being prepared; a pause holds it up, and going on by hand ends that. -/
theorem parity_loading_iff_preparing :
    let e := perform [] (new parity {}) [.setTestInput ['a'], .start]
    let p := perform e.1 e.2 [.pause, .setSpeed 200]
    let q := perform p.1 p.2 [.stepForward]
    (e.1.Prepares e.2 ∧ e.2.isLoading = true)
      ∧ (p.1.HeldUp ∧ p.2.isLoading = true ∧ p.2.phase = .paused ∧ p.2.pending = none)
      ∧ (q.2.isLoading = false ∧ ¬q.1.Prepares q.2 ∧ ¬q.1.HeldUp) := by
  intro e p q
  have he : Reachable e.1 e.2 := reachable_perform (.init parity {}) _
  have hp : Reachable p.1 p.2 := reachable_perform he _
  have hq : Reachable q.1 q.2 := reachable_perform hp _
  have hprepares : e.1.Prepares e.2 := ⟨⟨2, 500⟩, rfl, rfl⟩
  have hheld : p.1.HeldUp := ⟨Or.inl hprepares, id⟩
  obtain ⟨hflag, -, -, -⟩ := loading_iff_preparing he
  obtain ⟨hflag', hpaused, -⟩ := loading_iff_preparing hp
  have hoff : q.2.isLoading = false := by decide
  have hneither := mt (loading_iff_preparing hq).1.2 (by simp [hoff])
  exact ⟨⟨hprepares, hflag.2 (Or.inl hprepares)⟩, ⟨hheld, hflag'.2 (Or.inr hheld), hpaused hheld⟩,
    hoff, not_or.1 hneither⟩

/-- A pause takes the tick of the start away and leaves the flag on. -/
theorem parity_pause_keeps_loading :
    ¬∀ (h : History DFA String) (s : Simulation DFA String), Reachable h s →
      (s.isLoading = true ↔ ∃ t, h.startTick = some t ∧ s.pending = some t)
        ∧ (s.pending = none → s.isLoading = false) := by
  intro hexact
  have hr := reachable_perform (.init parity {}) [.setTestInput ['a'], .start, .pause]
  have hoff := (hexact _ _ hr).2 rfl
  exact absurd hoff (by decide)

end Simulation

end AutomataLab
