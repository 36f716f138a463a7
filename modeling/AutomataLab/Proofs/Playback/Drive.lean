import AutomataLab.Command.Execution
import AutomataLab.Proofs.Playback.Ticks
import AutomataLab.Proofs.Playback.Verdict

/-!
# Driving ends, and with the verdict

How far a drive gets is known before it begins: `consumed` counts the characters that the automaton
will read from where it is. A drive of a running simulation reads them one firing at a time and
finds the verdict with one firing more (`drives_of_running`), so the number of firings, the delays
waited and the steps observed all follow from that count. The verdict is that of the whole word, and
so what is printed at the end of a playback is what is printed when the word is evaluated at once.
-/

namespace AutomataLab

open Playback

namespace Acceptor

/-- How many characters are read from a configuration on before the word is used up or the automaton
stops. -/
def consumed {A C : Type} [Acceptor A C] (a : A) (c : C) : List Char → Nat
  | [] => 0
  | x :: rest =>
    match advance a c x with
    | .ok step => consumed a step.configuration rest + 1
    | .error _ => 0

end Acceptor

namespace Simulation

variable {A C : Type} [Acceptor A C]

/-- How many characters the run is yet to read, from where it is. -/
def ahead (s : Simulation A C) : Nat :=
  Acceptor.consumed s.automaton s.state.configuration s.state.remaining

/-! ## One firing -/

theorem ahead_of_reads {s : Simulation A C} {c : Char} {rest : List Char} {move : Advance C}
    (h : s.Reads c rest move) : s.ahead = (s.read c rest move).ahead + 1 := by
  rw [ahead, h.next, Acceptor.consumed, h.advance]
  rfl

theorem ahead_of_stuck {s : Simulation A C} (h : ∀ c rest move, ¬ s.Reads c rest move) :
    s.ahead = 0 := by
  cases hrem : s.state.remaining with
  | nil => rw [ahead, hrem, Acceptor.consumed]
  | cons c rest =>
    cases hadv : Acceptor.advance s.automaton s.state.configuration c with
    | ok move => exact absurd ⟨hrem, hadv⟩ (h c rest move)
    | error outcome => rw [ahead, hrem, Acceptor.consumed, hadv]

theorem foreseen_of_reads {s : Simulation A C} {c : Char} {rest : List Char} {move : Advance C}
    (h : s.Reads c rest move) : (s.read c rest move).foreseen = s.foreseen := by
  rw [foreseen, foreseen, h.next, Acceptor.evaluateFrom, h.advance]
  rfl

/-- A firing in the running phase reads and promises the next one, or finds the verdict. -/
theorem fire_of_running {s : Simulation A C} {t : Tick} (hrun : s.phase = .running)
    (ht : s.pending = some t) :
    (∃ c rest move, s.Reads c rest move
        ∧ (s.fire t).1 = (s.taken.read c rest move).schedule s.state.speed)
      ∨ ((∀ c rest move, ¬ s.Reads c rest move) ∧ (s.fire t).1 = s.taken.complete s.foreseen) := by
  obtain ⟨hr, hp, hc⟩ := phase_eq_running.1 hrun
  rw [fire_of_pending ht]
  rcases advanceOne_cases s.taken with ⟨hclosed, _⟩ | ⟨_, _, ⟨c, rest, move, h, heq⟩ | ⟨h, heq⟩⟩
  · rcases hclosed with h | h
    · exact absurd (hr.symm.trans h) (by simp)
    · exact absurd (hc.symm.trans h) (by simp)
  · have hphase : (s.taken.read c rest move).phase = .running := phase_eq_running.2 ⟨hr, hp, hc⟩
    refine Or.inl ⟨c, rest, move, ⟨h.next, h.advance⟩, ?_⟩
    simp only [step, heq, hphase, if_true]
    rfl
  · have hphase := phase_complete_ne_running s.taken s.taken.foreseen
    refine Or.inr ⟨fun c rest move hs => h c rest move ⟨hs.next, hs.advance⟩, ?_⟩
    simp only [step, heq, hphase, if_false]
    rfl

/-! ## A whole drive -/

/-- A drive from `s` that begins with a delay of `d` and reads `k` characters. -/
structure Drives (s : Simulation A C) (d k : Nat) : Prop where
  /-- The delay that is pending is waited first, and then one of the present speed for each
  character. -/
  waits : s.drive.map (·.1) = d :: List.replicate k s.state.speed
  /-- The steps go up one by one, and the verdict is found on the last of them. -/
  steps : s.drive.map (·.2.state.currentStep)
    = (List.range k).map (s.state.currentStep + 1 + ·) ++ [s.state.currentStep + k]
  /-- The run is complete in the end. -/
  phase : s.driven.phase = .complete
  /-- It has read what was ahead, and no more. -/
  currentStep : s.driven.state.currentStep = s.state.currentStep + k
  /-- The verdict is the one that was foreseen. -/
  report : s.driven.report = .shown s.foreseen s.runInput

theorem steps_cons (n k : Nat) :
    (n + 1) :: ((List.range k).map (n + 1 + 1 + ·) ++ [n + 1 + k])
      = (List.range (k + 1)).map (n + 1 + ·) ++ [n + (k + 1)] := by
  have hlast : n + 1 + k = n + (k + 1) := by omega
  have hrest : (List.range k).map (n + 1 + 1 + ·)
      = ((List.range k).map Nat.succ).map (n + 1 + ·) := by
    rw [List.map_map]
    exact List.map_congr_left fun i _ => by
      simp only [Function.comp_apply]
      omega
  rw [List.range_succ_eq_map, List.map_cons, hlast, hrest]
  rfl

/-- **A drive of a running simulation reads all that can be read, and then finds the verdict.** -/
theorem drives_of_running {s : Simulation A C} {t : Tick} (hrun : s.phase = .running)
    (ht : s.pending = some t) : Drives s t.delay s.ahead := by
  -- on the recursion of the drive: what is foreseen stays the same, and what is ahead is one less
  induction s using drive.induct generalizing t with
  | case1 s hn => exact absurd (hn.symm.trans ht) (by simp)
  | case2 s t' ht' ih =>
    obtain rfl := Option.some.inj (ht'.symm.trans ht)
    obtain ⟨hr, hp, hc⟩ := phase_eq_running.1 hrun
    rcases fire_of_running hrun ht with ⟨c, rest, move, hread, heq⟩ | ⟨hstuck, heq⟩
    · -- a character is read, and the rest of the drive is a drive from there
      have hrun' : (s.fire t').1.phase = .running := by
        rw [heq]
        exact phase_eq_running.2 ⟨hr, hp, hc⟩
      have hahead : s.ahead = (s.fire t').1.ahead + 1 := by
        rw [heq]
        exact ahead_of_reads hread
      have hforeseen : (s.fire t').1.foreseen = s.foreseen := by
        rw [heq]
        exact foreseen_of_reads hread
      have hstep : (s.fire t').1.state.currentStep = s.state.currentStep + 1 := by
        rw [heq]
        rfl
      have hframe := fire_frame s t'
      have h := ih hrun' (t := ⟨_, s.state.speed⟩) (by rw [heq]; rfl)
      exact
        { waits := by
            rw [drive_of_some ht, List.map_cons, h.waits, hframe.speed, hahead,
              List.replicate_succ]
          steps := by
            rw [drive_of_some ht, List.map_cons, h.steps, hstep, hahead, steps_cons]
          phase := by rw [driven_of_some ht, h.phase]
          currentStep := by
            rw [driven_of_some ht, h.currentStep, hstep, hahead]
            omega
          report := by rw [driven_of_some ht, h.report, hforeseen, hframe.runInput] }
    · -- the firing that finds the verdict is the last
      have hnone : (s.fire t').1.pending = none := by
        rw [heq]
        rfl
      exact
        { waits := by rw [drive_of_some ht, drive_of_none hnone, ahead_of_stuck hstuck]; rfl
          steps := by
            rw [drive_of_some ht, drive_of_none hnone, ahead_of_stuck hstuck, heq]
            rfl
          phase := by
            rw [driven_of_some ht, driven_of_none hnone, heq]
            exact phase_eq_complete.2 ⟨hr, rfl⟩
          currentStep := by
            rw [driven_of_some ht, driven_of_none hnone, ahead_of_stuck hstuck, heq]
            rfl
          report := by
            rw [driven_of_some ht, driven_of_none hnone, heq]
            rfl }

theorem length_fires_drive (s : Simulation A C) : (s.fires .drive).length = s.drive.length := by
  induction s using drive.induct with
  | case1 s hn =>
    rw [fires_drive_of_none hn, drive_of_none hn]
    rfl
  | case2 s t ht ih =>
    have hacc : (s.fire t).2 = true := fire_accepted.2 ht
    have hone : s.fires (.fire t) = [t] := by rw [fires, if_pos hacc]
    rw [fires_drive_of_some ht, hone, drive_of_some ht, List.length_append, ih]
    exact Nat.add_comm 1 _

end Simulation

/-! ## What is printed at the end -/

namespace Command

/-- Playing back over a word ends with the message on the outcome of the whole word. -/
theorem play_getLast? {A C : Type} [Acceptor A C] (encode : C → Json) (a : A) (timing : Timing)
    {word : List Char} (hw : word ≠ []) (json : Bool) :
    ∃ actions, play encode a timing word json = .ok actions
      ∧ actions.getLast?
        = some (.print ((Acceptor.evaluate a word).message (.ofList word) ++ "\n")) := by
  let s := ((Simulation.new a timing).setTestInput word).start
  have hbegan : (Simulation.new a timing).submitInput word = (s, true) := by
    rw [Simulation.submitInput, if_neg hw]
  have hrun : s.phase = .running := Simulation.phase_eq_running.2 ⟨rfl, rfl, rfl⟩
  have hreport : s.driven.report = .shown (Acceptor.evaluate a word) word :=
    (Simulation.drives_of_running hrun rfl).report
  have hplay : play encode a timing word json
      = .ok (s.drive.flatMap (fun e => .wait e.1 :: observed encode json e.2.state)
        ++ [.print (s.driven.report.message ++ "\n")]) := by
    simp only [play, hbegan, if_true]
  refine ⟨_, hplay, ?_⟩
  rw [List.getLast?_concat, hreport]
  rfl

/-- Playing back ends with what evaluating prints. -/
theorem simulate_getLast? {σ : Type} (w : World σ) {automaton input : String} (hinput : input ≠ "")
    {timingFile : Option String} {speed prepareDelay : Option Nat} (json : Bool) {timing : Timing}
    (htiming : w.loadTiming timingFile speed prepareDelay = .ok timing) {a : Automaton}
    (ha : w.loadAutomaton automaton = .ok a) :
    ∃ actions message,
      execute w (.simulate automaton input timingFile speed prepareDelay json) = .ok actions
        ∧ execute w (.run automaton input) = .ok [.print message]
        ∧ actions.getLast? = some (.print message) := by
  have hword : input.toList ≠ [] := by simpa using hinput
  have hrun : execute w (.run automaton input)
      = .ok [.print ((a.process input.toList).message input ++ "\n")] := by
    simp only [execute, ha]
    rfl
  -- the two kinds differ only in how a configuration is written down
  cases a with
  | dfa d =>
    obtain ⟨actions, hplay, hlast⟩ := play_getLast? Json.string d timing hword json
    refine ⟨actions, _, ?_, hrun, ?_⟩
    · simp only [execute, htiming, ha]
      exact hplay
    · rw [hlast, String.ofList_toList]
      rfl
  | nfa n =>
    obtain ⟨actions, hplay, hlast⟩ := play_getLast? StateSet.toJson n timing hword json
    refine ⟨actions, _, ?_, hrun, ?_⟩
    · simp only [execute, htiming, ha]
      exact hplay
    · rw [hlast, String.ofList_toList]
      rfl

end Command

namespace Simulation

/--
**A drive ends, and it ends with the verdict of the whole word.**

Without a pending tick it is over at once. In the running phase it fires once for each character
that is yet to be read and once more for the verdict; the waits and the steps observed are told by
that number. So whatever the automaton, the word and the timing, playing back prints in the end what
evaluating prints.
-/
theorem drive_computes_verdict :
    (∀ (A C : Type) [Acceptor A C] (h : History A C) (s : Simulation A C), Reachable h s →
      (s.pending = none → s.drive = [] ∧ s.driven = s)
        ∧ (s.phase = .running → ∃ t, s.pending = some t
          ∧ s.drive.map (·.1) = t.delay :: List.replicate s.ahead s.state.speed
          ∧ s.drive.map (·.2.state.currentStep)
            = (List.range s.ahead).map (s.state.currentStep + 1 + ·)
              ++ [s.state.currentStep + s.ahead]
          ∧ (s.fires .drive).length = s.ahead + 1
          ∧ FiredThrough s (s.fires .drive) s.driven
          ∧ s.driven.phase = .complete ∧ s.driven.pending = none
          ∧ s.driven.state.currentStep = s.state.currentStep + s.ahead
          ∧ s.driven.report = .shown (Acceptor.evaluate s.automaton h.word) h.word))
      ∧ ∀ (σ : Type) (w : Command.World σ) (automaton input : String) (timingFile : Option String)
          (speed prepareDelay : Option Nat) (json : Bool) (timing : Timing) (a : Automaton),
        input ≠ "" → w.loadTiming timingFile speed prepareDelay = .ok timing →
        w.loadAutomaton automaton = .ok a →
        ∃ actions message,
          Command.execute w (.simulate automaton input timingFile speed prepareDelay json)
              = .ok actions
            ∧ Command.execute w (.run automaton input) = .ok [.print message]
            ∧ actions.getLast? = some (.print message) := by
  refine ⟨fun A C _ h s hr => ⟨fun hn => ⟨drive_of_none hn, driven_of_none hn⟩, fun hrun => ?_⟩, ?_⟩
  · -- a reachable simulation that is running has a tick pending, and foresees the whole word
    obtain ⟨t, ht⟩ := (ticking_reachable hr).2 hrun
    have hd := drives_of_running hrun ht
    have hlength : s.drive.length = s.ahead + 1 := by
      simpa using congrArg List.length hd.waits
    refine ⟨t, ht, hd.waits, hd.steps, (length_fires_drive s).trans hlength,
      firedThrough_drive s, hd.phase, pending_driven s, hd.currentStep, ?_⟩
    have hforeseen := foreseen_eq_evaluate (traced_reachable hr) (phase_eq_running.1 hrun).1
    rw [hd.report, hforeseen, runInput_eq_word hr]
  · intro σ w automaton input timingFile speed prepareDelay json timing a hinput htiming ha
    exact Command.simulate_getLast? w hinput json htiming ha

/-- Every file describes `parity`. Entries that are left out lead to the first state. -/
def parityWorld : Command.World Unit where
  file? _ := some ("[\"dfa\",[\"even\",\"odd\"],[\"a\",\"b\"],\x7b\"even\":\x7b\"a\":\"odd\"\x7d," ++
    "\"odd\":\x7b\"b\":\"odd\"\x7d\x7d,\"even\",[\"even\"]]")
  choose _ h _ := (⟨0, h⟩, ())
  start := ()
  seeded _ := ()

theorem loadAutomaton_parityWorld : parityWorld.loadAutomaton "even.json" = .ok (.dfa parity) := by
  have h : (parityWorld.loadAutomaton "even.json").toOption = some (.dfa parity) := by
    decide +kernel
  cases ha : parityWorld.loadAutomaton "even.json" with
  | error e =>
    rw [ha] at h
    exact absurd h (by simp [Except.toOption])
  | ok a =>
    rw [ha] at h
    exact congrArg _ (Option.some.inj h)

/-- The drive begins in the middle of the run, after the speed was changed, and meets a character
that is not in the alphabet. -/
theorem parity_drive_computes_verdict :
    let ops : List (Operation DFA) :=
      [.submitInput ['a', 'b', 'c', 'a'], .fire ⟨2, 500⟩, .setSpeed 200]
    let p := perform [] (new parity {}) ops
    p.2.phase = .running ∧ p.2.drive.map (·.1) = [500, 200]
      ∧ p.2.drive.map (·.2.state.currentStep) = [2, 2]
      ∧ p.2.driven.report = .shown (.invalidSymbol 'c') ['a', 'b', 'c', 'a']
      ∧ ∃ actions message,
        Command.execute parityWorld (.simulate "even.json" "aab" none (some 200) none false)
            = .ok actions
          ∧ Command.execute parityWorld (.run "even.json" "aab") = .ok [.print message]
          ∧ actions.getLast? = some (.print message) := by
  intro ops p
  have hr : Reachable p.1 p.2 := reachable_perform (.init parity {}) ops
  have hrun : p.2.phase = .running := by decide
  have hpend : p.2.pending = some ⟨3, 500⟩ := by decide
  have hahead : p.2.ahead = 1 := by decide
  obtain ⟨t, ht, hwaits, hsteps, _, _, _, _, _, hreport⟩ :=
    (drive_computes_verdict.1 DFA String p.1 p.2 hr).2 hrun
  obtain rfl := Option.some.inj (ht.symm.trans hpend)
  rw [hahead] at hwaits hsteps
  have hprinted := drive_computes_verdict.2 Unit parityWorld "even.json" "aab" none (some 200) none
    false ⟨200, 500⟩ (.dfa parity) (by decide) rfl loadAutomaton_parityWorld
  exact ⟨hrun, hwaits, hsteps, hreport, hprinted⟩

end Simulation

end AutomataLab
