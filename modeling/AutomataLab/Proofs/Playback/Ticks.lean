import AutomataLab.Proofs.Playback.Clock

/-!
# A tick is good for one step at most

Ticks may come late, repeatedly and in any order. What makes that harmless is the counter: a tick
is scheduled under a number that no tick had before, and once it is no longer pending it is
`Spent`, which nothing can undo (`spent_act`). Hence a tick is accepted at most once
(`accounted_reachable`), and not at all once an operation has superseded it (`spent_of_append`).

The last section says who may read at all: an accepted firing, a resumption, and a step forward
of a paused run, each at most one character.
-/

namespace AutomataLab.Simulation

open Playback

variable {A C : Type} [Acceptor A C]

/-! ## The counter never goes back -/

theorem generation_le_step (s : Simulation A C) : s.generation ≤ s.step.generation := by
  have h := (advanceOne_calm s).generation
  exact step_elim (P := fun r => s.generation ≤ r.generation) h fun _ => Nat.le_succ_of_le h

theorem generation_le_fire (s : Simulation A C) (t : Tick) :
    s.generation ≤ (s.fire t).1.generation := by
  exact fire_elim (P := fun r => s.generation ≤ r.generation) (Nat.le_refl _)
    fun _ => generation_le_step s.taken

omit [Acceptor A C] in
theorem generation_le_cancel (s : Simulation A C) : s.generation ≤ s.cancel.generation :=
  Nat.le_succ _

theorem generation_le_start (s : Simulation A C) : s.generation ≤ s.start.generation :=
  Nat.le_add_right s.generation 2

theorem generation_le_act (s : Simulation A C) (op : Operation A) :
    s.generation ≤ (s.act op).generation := by
  cases op with
  | setTestInput word => exact Nat.le_refl _
  | submitInput word =>
    by_cases hw : word = []
    · subst hw
      exact Nat.le_refl _
    · rw [act_submitInput s hw]
      exact generation_le_start (s.setTestInput word)
  | start => exact generation_le_start s
  | fire t => exact generation_le_fire s t
  | pause =>
    -- a pause cancels, and cancelling takes a generation
    exact pause_elim (P := fun r => s.generation ≤ r.generation) (Nat.le_refl _)
      fun _ => generation_le_cancel s
  | resume =>
    exact resume_elim (P := fun r => s.generation ≤ r.generation) (Nat.le_refl _)
      fun _ => Nat.le_trans (generation_le_cancel s) (generation_le_step s.freed)
  | stepForward =>
    rcases act_stepForward_cases s with ⟨_, heq⟩ | ⟨_, heq⟩ | ⟨_, _, heq⟩
    · rw [heq]
      exact generation_le_start s
    · rw [heq]
      exact Nat.le_trans (generation_le_cancel s) (advanceOne_calm s.held).generation
    · exact Nat.le_of_eq (by rw [heq])
  | stepBackward =>
    -- going back leaves the counter alone, whether there is a record to go back to or not
    simp only [act, stepBackward]
    split
    · exact Nat.le_refl _
    · split <;> exact Nat.le_refl _
  | stop => exact generation_le_cancel s
  | setSpeed ms => exact Nat.le_refl _
  | setAutomaton a => exact generation_le_cancel s
  | drive =>
    -- each firing of the drive leaves the counter where it was or further on
    exact driven_induction (P := fun r => s.generation ≤ r.generation)
      (fun r t _ h => Nat.le_trans h (generation_le_fire r t)) s (Nat.le_refl _)

/-! ## One operation, one tick -/

/-- What a tick tells that an operation scheduled, unless it is a drive. -/
theorem fresh_of_mem_schedules {s : Simulation A C} {op : Operation A} {t : Tick}
    (hop : op ≠ .drive) (ht : t ∈ s.schedules op) : Fresh s (s.act op) t := by
  rw [schedules_eq s hop] at ht
  split at ht
  · next hn => exact fresh_act hn (Option.mem_toList.1 ht)
  · exact absurd ht List.not_mem_nil

theorem schedules_nodup (s : Simulation A C) {op : Operation A} (hop : op ≠ .drive) :
    (s.schedules op).Nodup := by
  rw [schedules_eq s hop]
  split
  · cases (s.act op).pending with
    | none => exact List.nodup_nil
    | some t => exact List.pairwise_singleton _ t
  · exact List.nodup_nil

/-- What a tick tells that an operation fired, unless it is a drive. -/
theorem eq_fire_of_mem_fires {s : Simulation A C} {op : Operation A} {t : Tick}
    (hop : op ≠ .drive) (ht : t ∈ s.fires op) : op = .fire t ∧ s.pending = some t := by
  cases op with
  | drive => exact absurd rfl hop
  | fire t₀ =>
    rw [fires] at ht
    split at ht
    · next hacc =>
      obtain rfl := List.mem_singleton.1 ht
      exact ⟨rfl, fire_accepted.1 hacc⟩
    · exact absurd ht List.not_mem_nil
  | _ => exact absurd ht List.not_mem_nil

theorem fires_nodup (s : Simulation A C) {op : Operation A} (hop : op ≠ .drive) :
    (s.fires op).Nodup := by
  cases op with
  | drive => exact absurd rfl hop
  | fire t =>
    rw [fires]
    split
    · exact List.pairwise_singleton _ t
    · exact List.nodup_nil
  | _ => exact List.nodup_nil

/-! ## A spent tick stays spent -/

/-- A tick that was scheduled once and is not pending any more. -/
def Spent (s : Simulation A C) (t : Tick) : Prop :=
  t.generation ≤ s.generation ∧ s.pending ≠ some t

theorem spent_act {s : Simulation A C} {t : Tick} (h : Spent s t) (op : Operation A) :
    Spent (s.act op) t := by
  refine ⟨Nat.le_trans h.1 (generation_le_act s op), fun hp => ?_⟩
  rcases act_pending_cases hp with ⟨_, hu⟩ | ⟨_, hf⟩
  · exact h.2 (hu.pending.symm.trans hp)
  · -- what was scheduled just now has a greater number
    exact absurd h.1 (Nat.not_le_of_lt hf.newer)

theorem spent_of_fire {s : Simulation A C} {t : Tick} (hp : s.pending = some t)
    (hcur : t.generation = s.generation) : Spent (s.fire t).1 t := by
  refine ⟨hcur ▸ generation_le_fire s t, fun hp' => ?_⟩
  rw [fire_of_pending hp] at hp'
  have hnewer : s.taken.generation < t.generation := (fresh_step rfl rfl hp').newer
  exact absurd hcur (Nat.ne_of_gt hnewer)

theorem not_mem_fires_of_spent {s : Simulation A C} {t : Tick} (h : Spent s t)
    (op : Operation A) : t ∉ s.fires op := by
  by_cases hop : op = .drive
  · subst hop
    induction s using drive.induct with
    | case1 s hn =>
      rw [fires_drive_of_none hn]
      exact List.not_mem_nil
    | case2 s t₀ ht₀ ih =>
      rw [fires_drive_of_some ht₀, List.mem_append]
      -- the first firing takes what is pending, which a spent tick is not
      rintro (hmem | hmem)
      · exact h.2 (eq_fire_of_mem_fires (by simp) hmem).2
      · -- what the first firing leaves spent the rest of the drive cannot fire either
        exact ih (spent_act h (.fire t₀)) hmem
  · exact fun hmem => h.2 (eq_fire_of_mem_fires hop hmem).2

/-- What is spent before some operations is not fired by them, and is spent after them. -/
theorem spent_of_append {later earlier : History A C} {s r : Simulation A C} {op : Operation A}
    {t : Tick} (hr : Reachable (later ++ (r, op) :: earlier) s) (h : Spent (r.act op) t) :
    Spent s t ∧ t ∉ History.fired later := by
  -- over the operations that came later, the last of which is at the head
  induction later generalizing s with
  | nil =>
    cases hr with
    | act _ _ => exact ⟨h, List.not_mem_nil⟩
  | cons e later ih =>
    cases hr with
    | act op' hr' =>
      obtain ⟨hspent, hnot⟩ := ih hr'
      refine ⟨spent_act hspent op', ?_⟩
      rw [History.fired, List.mem_append]
      rintro (hmem | hmem)
      · exact hnot hmem
      · exact not_mem_fires_of_spent hspent op' hmem

/-! ## Every tick is accounted for -/

/-- The ticks that were scheduled and those that were fired, as far as a simulation has come. -/
structure Accounted (scheduled fired : List Tick) (s : Simulation A C) : Prop where
  /-- The pending tick is the latest. -/
  current : ∀ t, s.pending = some t → t.generation = s.generation
  /-- The pending tick was scheduled. -/
  pending : ∀ t, s.pending = some t → t ∈ scheduled
  /-- No tick is ahead of the counter. -/
  old : ∀ t ∈ scheduled, t.generation ≤ s.generation
  /-- What was fired was scheduled. -/
  sub : ∀ t ∈ fired, t ∈ scheduled
  /-- What was fired is not pending. -/
  spent : ∀ t ∈ fired, s.pending ≠ some t
  /-- No two schedulings gave the same tick. -/
  scheduled_nodup : scheduled.Nodup
  /-- No tick was accepted twice. -/
  fired_nodup : fired.Nodup

theorem accounted_init (a : A) (timing : Timing) : Accounted [] [] (new a timing) where
  current := fun t ht => absurd ht (by simp [new])
  pending := fun t ht => absurd ht (by simp [new])
  old := fun t ht => absurd ht List.not_mem_nil
  sub := fun t ht => absurd ht List.not_mem_nil
  spent := fun t ht => absurd ht List.not_mem_nil
  scheduled_nodup := List.nodup_nil
  fired_nodup := List.nodup_nil

theorem accounted_act_of_ne_drive {S F : List Tick} {s : Simulation A C}
    (h : Accounted S F s) {op : Operation A} (hop : op ≠ .drive) :
    Accounted (S ++ s.schedules op) (F ++ s.fires op) (s.act op) := by
  constructor
  case current => exact current_act h.current op
  case pending =>
    intro t ht
    rcases act_pending_cases ht with ⟨_, hu⟩ | ⟨hone, _⟩
    · exact List.mem_append_left _ (h.pending t (hu.pending.symm.trans ht))
    · exact List.mem_append_right _ (by rw [hone]; exact List.mem_singleton_self t)
  case old =>
    intro t ht
    rcases List.mem_append.1 ht with hold | hnew
    · exact Nat.le_trans (h.old t hold) (generation_le_act s op)
    · exact Nat.le_of_eq (fresh_of_mem_schedules hop hnew).current
  case sub =>
    intro t ht
    refine List.mem_append_left _ ?_
    rcases List.mem_append.1 ht with hold | hnew
    · exact h.sub t hold
    · exact h.pending t (eq_fire_of_mem_fires hop hnew).2
  case spent =>
    intro t ht
    rcases List.mem_append.1 ht with hold | hnew
    · exact (spent_act ⟨h.old t (h.sub t hold), h.spent t hold⟩ op).2
    · -- the tick that was just accepted makes room for one with a greater number
      obtain ⟨rfl, hp⟩ := eq_fire_of_mem_fires hop hnew
      exact (spent_of_fire hp (h.current t hp)).2
  case scheduled_nodup =>
    refine List.nodup_append.2 ⟨h.scheduled_nodup, schedules_nodup s hop, ?_⟩
    -- a fresh tick is ahead of the counter, and no tick before it was
    rintro t ht _ hnew rfl
    exact absurd (h.old t ht) (Nat.not_le_of_lt (fresh_of_mem_schedules hop hnew).newer)
  case fired_nodup =>
    refine List.nodup_append.2 ⟨h.fired_nodup, fires_nodup s hop, ?_⟩
    -- only the pending tick is accepted, and what was fired before is not pending
    rintro t ht _ hnew rfl
    exact h.spent t ht (eq_fire_of_mem_fires hop hnew).2

/-- **The accounts are preserved by every operation.** -/
theorem accounted_act {S F : List Tick} {s : Simulation A C} (h : Accounted S F s)
    (op : Operation A) : Accounted (S ++ s.schedules op) (F ++ s.fires op) (s.act op) := by
  by_cases hop : op = .drive
  · subst hop
    -- a drive keeps the accounts because each of its firings does
    induction s using drive.induct generalizing S F with
    | case1 s hn =>
      rw [schedules_drive_of_none hn, fires_drive_of_none hn, List.append_nil, List.append_nil,
        act, driven_of_none hn]
      exact h
    | case2 s t ht ih =>
      have hfire : Accounted (S ++ s.schedules (.fire t)) (F ++ s.fires (.fire t))
          (s.act (.fire t)) := accounted_act_of_ne_drive h (by simp)
      rw [schedules_drive_of_some ht, fires_drive_of_some ht, ← List.append_assoc,
        ← List.append_assoc, act, driven_of_some ht]
      exact ih hfire
  · exact accounted_act_of_ne_drive h hop

theorem accounted_reachable {h : History A C} {s : Simulation A C} (hr : Reachable h s) :
    Accounted h.scheduled h.fired s := by
  induction hr with
  | init a timing => exact accounted_init a timing
  | act op _ ih => exact accounted_act ih op

/-! ## Superseding -/

/-- After these operations no earlier tick is good any more. -/
def Supersedes (s : Simulation A C) : Operation A → Prop
  | .start | .pause | .resume | .stop | .setAutomaton _ => True
  | .submitInput word => word ≠ []
  | .stepForward => s.phase = .paused ∨ s.phase = .idle
  | _ => False

omit [Acceptor A C] in
theorem pending_of_not_running {s : Simulation A C} (ht : Ticking s)
    (hr : s.state.isRunning = false) : s.pending = none :=
  ht.pending_eq_none (by simp [phase_eq_running, hr])

/-- What supersedes takes the pending tick away, and may schedule another. -/
theorem pending_of_supersedes {s : Simulation A C} {op : Operation A} (ht : Ticking s)
    (hs : s.Supersedes op) : (s.act op).pending = none ∨ s.renews op = true := by
  cases op with
  | start => exact Or.inr rfl
  | submitInput word =>
    have hw : word ≠ [] := hs
    exact Or.inr (by simp [renews, hw])
  | pause =>
    left
    cases hr : s.state.isRunning with
    | true =>
      rw [act, pause_of_running hr]
      rfl
    | false =>
      rw [act, pause_of_not_running hr]
      exact pending_of_not_running ht hr
  | resume =>
    cases hr : s.state.isRunning with
    | true => exact Or.inr hr
    | false =>
      rw [act, resume_of_not_running hr]
      exact Or.inl (pending_of_not_running ht hr)
  | stepForward =>
    rcases hs with hp | hp
    · -- a paused run is stepped by hand, which promises nothing
      rw [act_stepForward_of_paused hp]
      exact Or.inl ((advanceOne_calm s.held).pending rfl)
    · exact Or.inr (by simp [renews, hp])
  | stop => exact Or.inl rfl
  | setAutomaton a => exact Or.inl rfl
  | setTestInput word => exact hs.elim
  | fire t => exact hs.elim
  | stepBackward => exact hs.elim
  | setSpeed ms => exact hs.elim
  | drive => exact hs.elim

/-- An operation that supersedes spends every tick there was. -/
theorem spent_of_supersedes {h : History A C} {s : Simulation A C} {op : Operation A} {t : Tick}
    (hr : Reachable h s) (hs : s.Supersedes op) (ht : t ∈ h.scheduled) : Spent (s.act op) t := by
  have hold := (accounted_reachable hr).old t ht
  refine ⟨Nat.le_trans hold (generation_le_act s op), fun hp => ?_⟩
  -- what is pending now is nothing, or a fresh tick ahead of every old one
  rcases pending_of_supersedes (ticking_reachable hr) hs with hn | hn
  · exact absurd (hn.symm.trans hp) (by simp)
  · exact absurd hold (Nat.not_le_of_lt (fresh_act hn hp).newer)

/-! ## Who reads -/

/-- The operations that may read from the word. -/
def MayRead (s : Simulation A C) : Operation A → Prop
  | .fire t => s.pending = some t
  | .resume => True
  | .stepForward => s.phase = .paused
  | _ => False

/-- At most one character has moved from what remains to what is processed. -/
def ReadsAtMostOne (s s' : Simulation A C) : Prop :=
  ∃ cs : List Char, cs.length ≤ 1 ∧ s'.state.processed = s.state.processed ++ cs
    ∧ s.state.remaining = cs ++ s'.state.remaining

omit [Acceptor A C] in
theorem readsAtMostOne_refl (s : Simulation A C) : ReadsAtMostOne s s :=
  ⟨[], Nat.zero_le _, (List.append_nil _).symm, rfl⟩

theorem readsAtMostOne_advanceOne (s : Simulation A C) : ReadsAtMostOne s s.advanceOne := by
  refine advanceOne_elim (readsAtMostOne_refl s) (fun c rest move _ hread => ?_) (fun _ _ => ?_)
  · exact ⟨[c], Nat.le_refl _, rfl, hread.next⟩
  · exact ⟨[], Nat.zero_le _, (List.append_nil _).symm, rfl⟩

theorem readsAtMostOne_step (s : Simulation A C) : ReadsAtMostOne s s.step := by
  have h := readsAtMostOne_advanceOne s
  exact step_elim h fun _ => h

theorem readsAtMostOne_act {s : Simulation A C} {op : Operation A} (h : s.MayRead op) :
    ReadsAtMostOne s (s.act op) := by
  cases op with
  | fire t =>
    rw [act, fire_of_pending h]
    exact readsAtMostOne_step s.taken
  | resume =>
    exact resume_elim (P := ReadsAtMostOne s) (readsAtMostOne_refl s)
      fun _ => readsAtMostOne_step s.freed
  | stepForward =>
    rw [act_stepForward_of_paused h]
    exact readsAtMostOne_advanceOne s.held
  | setTestInput word => exact h.elim
  | submitInput word => exact h.elim
  | start => exact h.elim
  | pause => exact h.elim
  | stepBackward => exact h.elim
  | stop => exact h.elim
  | setSpeed ms => exact h.elim
  | setAutomaton a => exact h.elim
  | drive => exact h.elim

/-- What any other operation leaves processed had been processed before. -/
theorem processed_act {s : Simulation A C} {op : Operation A} (ht : Traced s)
    (hop : op ≠ .drive) (h : ¬ s.MayRead op) :
    (s.act op).state.processed <+: s.state.processed := by
  have hkept : (s.act op).state.processed = s.state.processed →
      (s.act op).state.processed <+: s.state.processed := fun heq => heq ▸ List.prefix_rfl
  cases op with
  | setTestInput word => exact hkept (processed_setTestInput s word)
  | submitInput word =>
    by_cases hw : word = []
    · subst hw
      exact hkept (processed_setTestInput s [])
    · rw [act_submitInput s hw]
      exact List.nil_prefix
  | start => exact List.nil_prefix
  | fire t =>
    exact hkept (by rw [act, fire_of_ne h])
  | pause =>
    exact pause_elim (P := fun r => r.state.processed <+: s.state.processed) List.prefix_rfl
      fun _ => List.prefix_rfl
  | resume => exact absurd trivial h
  | stepForward =>
    rcases act_stepForward_cases s with ⟨_, heq⟩ | ⟨hp, _⟩ | ⟨_, _, heq⟩
    · rw [heq]
      exact List.nil_prefix
    · exact absurd hp h
    · exact hkept (by rw [heq])
  | stepBackward =>
    rcases stepBackward_cases ht with heq | ⟨hr, n, r, hn, htr, heq⟩
    · exact hkept (by rw [act, heq])
    · -- both the present position and the record before it are on the trace
      obtain ⟨r', htr', _, hproc, _⟩ := (ht.running hr).position
      rw [hn] at htr'
      -- the record before has processed one character less of the same word
      rw [act, heq, hproc, (trace_position htr').1]
      have hrec : (s.state.restore s.state.path.dropLast r).processed = s.runInput.take n :=
        (trace_position htr).1
      rw [hrec]
      exact List.take_prefix_take_left (Nat.le_succ n)
  | stop => exact List.nil_prefix
  | setSpeed ms => exact List.prefix_rfl
  | setAutomaton a => exact List.nil_prefix
  | drive => exact absurd rfl hop

/-- Ticks fired one after the other, each of them accepted. -/
def FiredThrough (s : Simulation A C) : List Tick → Simulation A C → Prop
  | [], s' => s' = s
  | t :: ts, s' => (s.fire t).2 = true ∧ FiredThrough (s.fire t).1 ts s'

theorem firedThrough_drive (s : Simulation A C) :
    FiredThrough s (s.fires .drive) (s.act .drive) := by
  induction s using drive.induct with
  | case1 s hn =>
    rw [fires_drive_of_none hn, act, driven_of_none hn]
    rfl
  | case2 s t ht ih =>
    have hacc : (s.fire t).2 = true := fire_accepted.2 ht
    have hone : s.fires (.fire t) = [t] := by rw [fires, if_pos hacc]
    rw [fires_drive_of_some ht, hone, act, driven_of_some ht]
    exact ⟨hacc, ih⟩

/--
**A tick is accepted at most once, and never after it was superseded.**

The history may deliver ticks late, repeatedly and in any order. A refused tick changes nothing,
and nothing is read but by an accepted firing, a resumption or a step forward of a paused run,
which read one character at most; a drive is a sequence of accepted firings.
-/
theorem fired_at_most_once {h : History A C} {s : Simulation A C} (hr : Reachable h s) :
    h.fired.Nodup
      ∧ h.scheduled.Nodup
      ∧ (∀ t, s.pending = some t → t ∈ h.scheduled)
      ∧ (∀ t ∈ h.fired, t ∈ h.scheduled ∧ s.fire t = (s, false))
      ∧ (∀ (later earlier : History A C) (r : Simulation A C) (op : Operation A) (t : Tick),
        h = later ++ (r, op) :: earlier → r.Supersedes op → t ∈ earlier.scheduled →
          t ∉ later.fired ∧ s.fire t = (s, false))
      ∧ (∀ t, (s.fire t).2 = false → (s.fire t).1 = s)
      ∧ (∀ op, s.MayRead op → ReadsAtMostOne s (s.act op))
      ∧ (∀ op, op ≠ .drive → ¬ s.MayRead op →
        (s.act op).state.processed <+: s.state.processed)
      ∧ FiredThrough s (s.fires .drive) (s.act .drive) := by
  have hacc := accounted_reachable hr
  refine ⟨hacc.fired_nodup, hacc.scheduled_nodup, hacc.pending, ?_, ?_, ?_,
    fun op => readsAtMostOne_act, fun op => processed_act (traced_reachable hr),
    firedThrough_drive s⟩
  · intro t ht
    exact ⟨hacc.sub t ht, fire_of_ne (hacc.spent t ht)⟩
  · rintro later earlier r op t rfl hs ht
    -- spent by what superseded it, and spent it stays through all that came later
    have hspent := spent_of_supersedes (reachable_of_append hr) hs ht
    obtain ⟨hstill, hnot⟩ := spent_of_append hr hspent
    exact ⟨hnot, fire_of_ne hstill.2⟩
  · intro t hrej
    rw [fire_of_ne fun hp => by simp [fire_accepted.2 hp] at hrej]

/-- One tick comes twice, and the next one after a pause that superseded it. -/
theorem parity_ticks_spent :
    let e := perform [] (new parity {})
      [.setTestInput ['a', 'b'], .start, .fire ⟨2, 500⟩, .fire ⟨2, 500⟩]
    let p := perform ((e.2, .pause) :: e.1) (e.2.act .pause)
      [.fire ⟨3, 500⟩, .resume, .fire ⟨3, 500⟩, .fire ⟨2, 500⟩]
    p.1.scheduled = [⟨2, 500⟩, ⟨3, 500⟩, ⟨6, 500⟩] ∧ p.1.fired = [⟨2, 500⟩]
      ∧ p.1.scheduled.Nodup ∧ p.1.fired.Nodup
      ∧ p.2.fire ⟨2, 500⟩ = (p.2, false) ∧ p.2.fire ⟨3, 500⟩ = (p.2, false) := by
  intro e p
  have hr : Reachable p.1 p.2 :=
    reachable_perform (.act .pause (reachable_perform (.init parity {}) _)) _
  have hsch : p.1.scheduled = [⟨2, 500⟩, ⟨3, 500⟩, ⟨6, 500⟩] := by decide
  have hfired : p.1.fired = [⟨2, 500⟩] := by decide
  obtain ⟨hnodup, hnodup', _, hspent, hsup, _⟩ := fired_at_most_once hr
  have htwice : (⟨2, 500⟩ : Tick) ∈ p.1.fired := by decide
  have hearlier : (⟨3, 500⟩ : Tick) ∈ e.1.scheduled := by decide
  have hsplit : p.1 = p.1.take 4 ++ (e.2, .pause) :: e.1 := rfl
  exact ⟨hsch, hfired, hnodup', hnodup, (hspent _ htwice).2,
    (hsup _ _ _ _ _ hsplit trivial hearlier).2⟩

end AutomataLab.Simulation
