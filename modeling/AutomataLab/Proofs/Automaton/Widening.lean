import AutomataLab.Proofs.Automaton.Growth

/-!
# Additions never cost an accepted word

Some changes only add to an automaton: a state, a symbol, a transition, another accepting state, the
empty moves that were turned off (`Edit.Adds`). After any number of them it has all that it had
(`Widens`).

More moves are no disadvantage. Where the automaton goes on from a set of states, the one with more
moves goes on from every larger set, and to a larger one (`Widens.advance`); so it cannot stop where
the other does not, and step by step it is in all the states that the other is in (`Widens.trace`).
-/

namespace AutomataLab.NFA

/-! ## Changes that only add -/

/-- A change that takes nothing away from the automaton. -/
def Edit.Adds (n : NFA) : Edit → Prop
  | .addState _ | .addSymbol _ | .addTransition _ _ _ => True
  | .setUsesEpsilon on => on = true
  | .toggleAccepting q => q ∉ n.accepting
  | _ => False

/-- One such change was made. -/
def AddedTo (n m : NFA) : Prop := ∃ e : Edit, e.Adds n ∧ n.edit e = .ok m

/-- An automaton has all that another one has. -/
structure Widens (n m : NFA) : Prop where
  /-- Reading starts in the same state. -/
  initial : m.initial = n.initial
  /-- No symbol is lost. -/
  alphabet : ∀ c ∈ n.alphabet, c ∈ m.alphabet
  /-- States that accepted still do. -/
  accepting : ∀ q ∈ n.accepting, q ∈ m.accepting
  /-- What could be taken can be taken, on characters and on the empty move. -/
  targets : ∀ p x, ∀ q ∈ n.targets p x, q ∈ m.targets p x

section

variable {n m k : NFA} {s t : StateSet} {p q : String} {x : Symbol} {c : Char}

theorem Widens.refl (n : NFA) : n.Widens n :=
  ⟨rfl, fun _ h => h, fun _ h => h, fun _ _ _ h => h⟩

theorem Widens.trans (h : n.Widens m) (h' : m.Widens k) : n.Widens k where
  initial := h'.initial.trans h.initial
  alphabet := fun c hc => h'.alphabet c (h.alphabet c hc)
  accepting := fun q hq => h'.accepting q (h.accepting q hq)
  targets := fun p x q hq => h'.targets p x q (h.targets p x q hq)

theorem edit_widens {e : Edit} (ha : e.Adds n) (he : n.edit e = .ok m) : n.Widens m := by
  cases e with
  | addState q =>
    obtain ⟨g, hg, rfl⟩ := bind_pure_eq_ok_iff.1 he
    obtain ⟨-, rfl⟩ := Signature.addState_eq_ok_iff.1 hg
    exact ⟨rfl, fun _ h => h, fun _ h => h, fun _ _ _ h => h⟩
  | addSymbol c =>
    obtain ⟨g, hg, rfl⟩ := bind_pure_eq_ok_iff.1 he
    obtain ⟨-, rfl⟩ := Signature.addSymbol_eq_ok_iff.1 hg
    exact ⟨rfl, fun _ h => List.mem_append_left _ h, fun _ h => h, fun _ _ _ h => h⟩
  | toggleAccepting q =>
    obtain ⟨g, hg, rfl⟩ := bind_pure_eq_ok_iff.1 he
    obtain ⟨-, rfl⟩ := Signature.toggleAccepting_eq_ok_iff.1 hg
    refine ⟨rfl, fun _ h => h, fun r hr => ?_, fun _ _ _ h => h⟩
    -- the state was not accepting, so none is lost
    have hnew : q ∉ n.accepting := ha
    rw [if_neg hnew]
    exact SortedSet.mem_insert.2 (Or.inr hr)
  | addTransition a y b =>
    -- the entry grows by a target, and no other is touched
    have hlisted : ∀ p x, m.listed p x = Edit.retarget p x (n.listed p x) (.addTransition a y b) :=
      fun p x => listed_edit he
    obtain ⟨-, rfl⟩ := addTransition_eq_ok_iff.1 he
    refine ⟨rfl, fun _ h => h, fun _ h => h, fun p x q hq => ?_⟩
    obtain ⟨hen, hq⟩ := mem_targets.1 hq
    refine mem_targets.2 ⟨hen, ?_⟩
    rw [hlisted, Edit.retarget]
    split
    · exact SortedSet.mem_insert.2 (Or.inr hq)
    · exact hq
  | setUsesEpsilon on =>
    obtain rfl := Except.ok.inj he
    refine ⟨rfl, fun _ h => h, fun _ h => h, fun p x q hq => ?_⟩
    -- every symbol is enabled now
    have hon : on = true := ha
    refine mem_targets.2 ⟨?_, (mem_targets.1 hq).2⟩
    cases x with
    | epsilon => exact hon
    | char c => rfl
  | removeState q => exact ha.elim
  | removeSymbol c => exact ha.elim
  | setInitial q => exact ha.elim
  | removeTransition a y b => exact ha.elim

theorem widens_of_addedTo (h : Relation.ReflTransGen AddedTo n m) : n.Widens m := by
  induction h with
  | refl => exact .refl n
  | tail _ hstep ih =>
    obtain ⟨e, ha, he⟩ := hstep
    exact ih.trans (edit_widens ha he)

/-! ## More moves are no disadvantage -/

theorem Widens.closure (h : n.Widens m) (hs : ∀ p ∈ s, p ∈ t) (hq : q ∈ n.closure s) :
    q ∈ m.closure t :=
  closure_least (fun p hp => subset_closure (hs p hp))
    (fun _ hp _ hpr => mem_closure_of_emptyMove hp (h.targets _ _ _ hpr)) hq

theorem Widens.direct (h : n.Widens m) (hs : ∀ p ∈ s, p ∈ t) (hq : q ∈ n.direct s c) :
    q ∈ m.direct t c := by
  obtain ⟨p, hp, hpq⟩ := mem_direct.1 hq
  exact mem_direct.2 ⟨p, hs p hp, h.targets p (.char c) q hpq⟩

/-- **With more moves and from more states reading goes on as well, to more states.** -/
theorem Widens.advance (h : n.Widens m) (hs : ∀ p ∈ s, p ∈ t) {move : Advance StateSet}
    (hmove : Acceptor.advance n s c = .ok move) :
    ∃ move', Acceptor.advance m t c = .ok move'
      ∧ ∀ q ∈ move.configuration, q ∈ move'.configuration := by
  obtain ⟨hc, ⟨q, hq⟩, rfl⟩ := advance_eq_ok_iff.1 hmove
  -- what is reached is not nothing in the second automaton either, so it does not stop here
  have hsub : ∀ r ∈ n.closure (n.direct s c), r ∈ m.closure (m.direct t c) :=
    fun r hr => h.closure (fun _ hp => h.direct hs hp) hr
  exact ⟨_, advance_eq_ok_iff.2 ⟨h.alphabet c hc, ⟨q, hsub q hq⟩, rfl⟩, hsub⟩

/-- **After each character that the one automaton reads the other one is in all of its states.** -/
theorem Widens.trace (h : n.Widens m) {w : List Char} {i : Nat} {r : Playback.Step StateSet}
    (hr : Simulation.trace n w i = some r) :
    ∃ r', Simulation.trace m w i = some r'
      ∧ ∀ q ∈ r.configuration, q ∈ r'.configuration := by
  induction i generalizing r with
  | zero =>
    obtain rfl := Option.some.inj hr
    refine ⟨_, rfl, fun q hq => h.closure (fun p hp => ?_) hq⟩
    rw [h.initial]
    exact hp
  | succ i ih =>
    obtain ⟨r₀, c, move, hr₀, hc, hmove, rfl⟩ := Simulation.eq_of_trace_succ hr
    obtain ⟨r₀', hr₀', hsub⟩ := ih hr₀
    obtain ⟨move', hmove', hsub'⟩ := h.advance hsub hmove
    exact ⟨_, Simulation.trace_succ hr₀' hc hmove', hsub'⟩

theorem verdict_eq_accepted_iff :
    Acceptor.verdict n s = .accepted ↔ ∃ q ∈ s, q ∈ n.accepting := by
  rw [← Signature.areAccepting_iff_exists]
  simp [Acceptor.verdict]

/-- A word that is accepted is read to its end, and it ends in an accepting state. -/
theorem exists_trace_of_accepted {w : List Char} (hw : n.process w = .accepted) {i : Nat}
    (hi : i ≤ w.length) : ∃ r, Simulation.trace n w i = some r := by
  have heval : Acceptor.evaluate n w = .accepted := hw
  exact n.tellsStops.exists_trace (by rw [heval]; exact id) hi

theorem process_eq_accepted_iff_trace {w : List Char} : n.process w = .accepted
    ↔ ∃ r, Simulation.trace n w w.length = some r ∧ ∃ q ∈ r.configuration, q ∈ n.accepting := by
  -- after the last record nothing is left to be read, and the verdict is on its states
  have hend : ∀ r, Simulation.trace n w w.length = some r →
      (n.process w = .accepted ↔ ∃ q ∈ r.configuration, q ∈ n.accepting) := by
    intro r hr
    have heval : n.process w = Acceptor.evaluateFrom n r.configuration r.remaining :=
      Simulation.evaluate_eq_of_trace hr
    rw [(Simulation.trace_position hr).2, List.drop_length] at heval
    rw [heval]
    exact verdict_eq_accepted_iff
  constructor
  · intro hw
    obtain ⟨r, hr⟩ := exists_trace_of_accepted hw (Nat.le_refl _)
    exact ⟨r, hr, (hend r hr).1 hw⟩
  · rintro ⟨r, hr, haccepting⟩
    exact (hend r hr).2 haccepting

/-- **What is accepted stays accepted.** -/
theorem Widens.process_eq_accepted (h : n.Widens m) {w : List Char}
    (hw : n.process w = .accepted) : m.process w = .accepted := by
  obtain ⟨r, hr, q, hq, haccepting⟩ := process_eq_accepted_iff_trace.1 hw
  obtain ⟨r', hr', hsub⟩ := h.trace hr
  exact process_eq_accepted_iff_trace.2 ⟨r', hr', q, hsub q hq, h.accepting q haccepting⟩

end

/--
**Additions never cost an accepted word.**

To an automaton states, symbols and transitions are added, empty moves are turned on, and states
that were not accepting become so, in any order and number. A word that was accepted still is; and
after each of its characters, the automaton that has come of it is in all the states that the first
one is in after that character. The latter also holds of a word that is not accepted, as far as the
first automaton reads it.
-/
theorem additions_keep_accepted {n m : NFA} (h : Relation.ReflTransGen AddedTo n m)
    (w : List Char) :
    (n.process w = .accepted → m.process w = .accepted
        ∧ ∀ i ≤ w.length, ∃ r r', Simulation.trace n w i = some r
          ∧ Simulation.trace m w i = some r' ∧ ∀ q ∈ r.configuration, q ∈ r'.configuration)
      ∧ ∀ i r, Simulation.trace n w i = some r → ∃ r', Simulation.trace m w i = some r'
        ∧ ∀ q ∈ r.configuration, q ∈ r'.configuration := by
  have hwidens := widens_of_addedTo h
  refine ⟨fun hw => ⟨hwidens.process_eq_accepted hw, fun i hi => ?_⟩, fun i r => hwidens.trace⟩
  obtain ⟨r, hr⟩ := exists_trace_of_accepted hw hi
  obtain ⟨r', hr', hsub⟩ := hwidens.trace hr
  exact ⟨r, r', hr, hr', hsub⟩

/-- Reads any number of `a` in one state. The empty move to the other state is turned off. -/
def dormant : NFA where
  states := ["p", "q"]
  alphabet := ['a']
  initial := "p"
  accepting := .ofList ["p"]
  transitions := .ofList [("p", .ofList [(.epsilon, .ofList ["q"]), (.char 'a', .ofList ["p"])])]
  usesEpsilon := false

/-- The same with the empty move turned on, and with a further state, symbol and transition. -/
def awake : NFA where
  states := ["p", "q", "r"]
  alphabet := ['a', 'b']
  initial := "p"
  accepting := .ofList ["p", "q"]
  transitions := .ofList [("p", .ofList [(.epsilon, .ofList ["q"]), (.char 'a', .ofList ["p"])]),
    ("q", .ofList [(.char 'b', .ofList ["r"])])]
  usesEpsilon := true

theorem awake_of_dormant : Relation.ReflTransGen AddedTo dormant awake := by
  have hon : Relation.ReflTransGen AddedTo dormant (dormant.setUsesEpsilon true) :=
    .single ⟨.setUsesEpsilon true, rfl, rfl⟩
  have hstate := hon.tail ⟨.addState "r", trivial, rfl⟩
  have hsymbol := hstate.tail ⟨.addSymbol 'b', trivial, rfl⟩
  have hmove := hsymbol.tail ⟨.addTransition "q" (.char 'b') "r", trivial, rfl⟩
  have hnew : "q" ∉ dormant.accepting := by decide
  exact hmove.tail ⟨.toggleAccepting "q", hnew, rfl⟩

theorem dormant_additions_keep_accepted :
    Relation.ReflTransGen AddedTo dormant awake
      ∧ dormant.process ['a'] = .accepted ∧ awake.process ['a'] = .accepted
      ∧ ∃ r r', Simulation.trace dormant ['a'] 1 = some r ∧ Simulation.trace awake ['a'] 1 = some r'
        ∧ r.configuration = {"p"} ∧ r'.configuration = .ofList ["p", "q"]
        ∧ ∀ q ∈ r.configuration, q ∈ r'.configuration := by
  have haccepted : dormant.process ['a'] = .accepted := by decide +kernel
  obtain ⟨hkept, htrace⟩ := (additions_keep_accepted awake_of_dormant ['a']).1 haccepted
  obtain ⟨r, r', hr, hr', hsub⟩ := htrace 1 (by decide)
  have hone : (Simulation.trace dormant ['a'] 1).map (·.configuration) = some {"p"} := by
    decide +kernel
  have htwo : (Simulation.trace awake ['a'] 1).map (·.configuration)
      = some (.ofList ["p", "q"]) := by decide +kernel
  rw [hr] at hone
  rw [hr'] at htwo
  exact ⟨awake_of_dormant, haccepted, hkept, r, r', hr, hr', Option.some.inj hone,
    Option.some.inj htwo, hsub⟩

end AutomataLab.NFA
