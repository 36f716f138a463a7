import AutomataLab.Proofs.Coincidence
import AutomataLab.Proofs.Automaton.EditedMoves
import AutomataLab.Proofs.Automaton.Singletons

/-!
# Runs without a state

When a state is forgotten, a nondeterministic automaton keeps the paths that do not visit it and has
no others (`NFA.walk_removeState`). So the words that it accepts from then on are those of the paths
around the state.

A deterministic automaton has to go somewhere instead. It runs as one that is led to the first of
the other states whenever it would enter the one that is forgotten (`DFA.Detour`); the two coincide
as long as they are not in that state, and they never are.
-/

namespace AutomataLab

/-! ## Paths and the states that they visit -/

namespace NFA

/-- The steps of a path from a state: what each reads, if anything, and where it leads. -/
def Walk (n : NFA) : String → List (Option Char × String) → Prop
  | _, [] => True
  | p, (x, q) :: rest => q ∈ n.targets p (stepSymbol x) ∧ n.Walk q rest

/-- The word that a path spells. -/
def spelled (steps : List (Option Char × String)) : List Char := steps.filterMap Prod.fst

/-- The states that a path from a state visits, that state included. -/
def visited (p : String) (steps : List (Option Char × String)) : List String :=
  p :: steps.map Prod.snd

/-- The last state that a path from a state visits. -/
def walkEnd (p : String) (steps : List (Option Char × String)) : String :=
  (steps.map Prod.snd).getLastD p

section

variable {n n' : NFA} {p q s : String} {w : List Char}

theorem walkEnd_mem_visited {steps : List (Option Char × String)} :
    walkEnd p steps ∈ visited p steps :=
  List.getLastD_mem_cons

theorem walkEnd_cons {x : Option Char} {steps : List (Option Char × String)} :
    walkEnd p ((x, q) :: steps) = walkEnd q steps :=
  List.getLastD_cons

/-- The steps of a path, with the states left out, are a path of the theory. -/
theorem isPath_iff_walk {path : List (Option Char)} : n.graph.IsPath p q path
    ↔ ∃ steps, n.Walk p steps ∧ steps.map Prod.fst = path ∧ walkEnd p steps = q := by
  induction path generalizing p with
  | nil =>
    rw [εNFA.isPath_nil]
    simp [Walk, walkEnd]
  | cons x path ih =>
    constructor
    · intro h
      cases h with
      | cons t p q x path hstep hpath =>
        obtain ⟨steps, hwalk, rfl, hend⟩ := ih.1 hpath
        exact ⟨(x, t) :: steps, ⟨hstep, hwalk⟩, rfl, walkEnd_cons.trans hend⟩
    · rintro ⟨_ | ⟨⟨y, t⟩, steps⟩, hwalk, hpath, hend⟩
      · exact absurd hpath (by simp)
      · obtain ⟨rfl, rfl⟩ := List.cons.inj hpath
        exact .cons t p q _ _ hwalk.1 (ih.2 ⟨steps, hwalk.2, rfl, walkEnd_cons.symm.trans hend⟩)

theorem mem_reach_iff_walk : q ∈ n.reach w
    ↔ ∃ steps, n.Walk n.initial steps ∧ spelled steps = w ∧ walkEnd n.initial steps = q := by
  have hspelled : ∀ steps : List (Option Char × String),
      (steps.map Prod.fst).reduceOption = spelled steps := fun steps => List.filterMap_map
  constructor
  · rintro ⟨path, hword, hpath⟩
    obtain ⟨steps, hwalk, rfl, hend⟩ := isPath_iff_walk.1 hpath
    exact ⟨steps, hwalk, (hspelled steps).symm.trans hword, hend⟩
  · rintro ⟨steps, hwalk, hword, hend⟩
    exact ⟨_, (hspelled steps).trans hword, isPath_iff_walk.2 ⟨steps, hwalk, rfl, hend⟩⟩

/-- **The paths that are left when a state is forgotten are those that do not visit it.** -/
theorem walk_removeState (he : n.removeState s = .ok n') (hp : p ≠ s)
    {steps : List (Option Char × String)} :
    n'.Walk p steps ↔ n.Walk p steps ∧ s ∉ visited p steps := by
  induction steps generalizing p with
  | nil => simp [Walk, visited, Ne.symm hp]
  | cons step rest ih =>
    obtain ⟨x, q⟩ := step
    rw [Walk, Walk, targets_removeState he, if_neg hp, SortedSet.mem_erase]
    have hvisited : s ∉ visited p ((x, q) :: rest) ↔ s ∉ visited q rest := by
      simp [visited, Ne.symm hp]
    rw [hvisited]
    constructor
    · rintro ⟨⟨hq, hqs⟩, hrest⟩
      obtain ⟨hwalk, hnot⟩ := (ih hqs).1 hrest
      exact ⟨⟨hq, hwalk⟩, hnot⟩
    · -- a path around the state does not step into it, so no move of it is lost
      rintro ⟨⟨hq, hwalk⟩, hnot⟩
      have hqs : q ≠ s := fun h => hnot (h ▸ List.mem_cons_self)
      exact ⟨⟨hq, hqs⟩, (ih hqs).2 ⟨hwalk, hnot⟩⟩

/-- What is accepted without a state is what paths around it lead to accept. -/
theorem process_removeState (h : n.WellFormed) (he : n.removeState s = .ok n') :
    n'.process w = .accepted ↔ ∃ steps, n.Walk n'.initial steps ∧ spelled steps = w
      ∧ walkEnd n'.initial steps ∈ n.accepting ∧ s ∉ visited n'.initial steps := by
  have h' := edit_wellFormed (e := .removeState s) h he
  obtain ⟨g, hg, rfl⟩ := bind_pure_eq_ok_iff.1 he
  have hstart : g.initial ≠ s :=
    ne_of_mem_of_not_mem h'.initial (Signature.not_mem_removeState hg)
  have haccepting : ∀ q, q ≠ s → (q ∈ g.accepting ↔ q ∈ n.accepting) := by
    intro q hq
    have hsame := Signature.isAccepting_removeState hg hq
    simpa [Signature.isAccepting] using hsame
  rw [process_eq_accepted_iff h']
  simp only [mem_reach_iff_walk, walk_removeState he hstart]
  constructor
  · rintro ⟨q, ⟨steps, ⟨hwalk, hnot⟩, hword, rfl⟩, hq⟩
    have hend := ne_of_mem_of_not_mem walkEnd_mem_visited hnot
    exact ⟨steps, hwalk, hword, (haccepting _ hend).1 hq, hnot⟩
  · rintro ⟨steps, hwalk, hword, hq, hnot⟩
    have hend := ne_of_mem_of_not_mem walkEnd_mem_visited hnot
    exact ⟨_, ⟨steps, ⟨hwalk, hnot⟩, hword, rfl⟩, (haccepting _ hend).2 hq⟩

end

end NFA

/-! ## A state that is led around -/

namespace DFA

/-- A deterministic automaton that is led to the state `instead` whenever it would enter the state
`closed`. -/
structure Detour where
  /-- The automaton that makes the moves. -/
  automaton : DFA
  /-- The state that is never entered. -/
  closed : String
  /-- The state that is entered in its place. -/
  instead : String

/-- Where the automaton goes in place of a state. -/
def Detour.lead (t : Detour) (q : String) : String := if q = t.closed then t.instead else q

/-- A move of the automaton, led around. -/
def Detour.leadMove (t : Detour) (move : Advance String) : Advance String where
  configuration := t.lead move.configuration
  transitions := move.transitions.map fun e => { e with target := t.lead e.target }
  epsilonReached := move.epsilonReached

instance : Acceptor Detour String where
  initial t := t.lead (Acceptor.initial t.automaton)
  initialEpsilonReached t := Acceptor.initialEpsilonReached t.automaton
  advance t q c := (Acceptor.advance t.automaton q c).map t.leadMove
  verdict t q := Acceptor.verdict t.automaton q

theorem Detour.lead_ne {t : Detour} (h : t.instead ≠ t.closed) (q : String) :
    t.lead q ≠ t.closed := by
  unfold lead
  split
  · exact h
  · assumption

/-- **Without a state an automaton runs as if it were led around the state.** -/
theorem coincide_removeState {d d' : DFA} {s : String} (h : d.WellFormed)
    (he : d.removeState s = .ok d') :
    Acceptor.Coincide (⟨d, s, d'.defaultState⟩ : Detour) d' (· ≠ s) fun _ => True := by
  -- the table leads around the state what led into it
  have htarget : ∀ p c, p ≠ s → d'.target? p c
      = (d.target? p c).map (⟨d, s, d'.defaultState⟩ : Detour).lead := by
    intro p c hp
    rw [target?_removeState he, if_neg hp]
    rfl
  have h' := edit_wellFormed (e := .removeState s) h he
  obtain ⟨g, hg, rfl⟩ := bind_pure_eq_ok_iff.1 he
  have halphabet := Signature.alphabet_removeState hg
  have hinstead : g.defaultState ≠ s :=
    ne_of_mem_of_not_mem h'.defaultState_mem (Signature.not_mem_removeState hg)
  exact
    { initial := Signature.initial_removeState hg
      initialEpsilonReached := rfl
      start := Detour.lead_ne hinstead _
      advance := fun p c hp _ => by
        change _ = (Acceptor.advance d p c).map _
        -- where one automaton has no move or refuses the character, the other does too
        by_cases hc : c ∈ d.alphabet
        · have hc' : c ∈ g.alphabet := halphabet ▸ hc
          cases hq : d.target? p c with
          | none =>
            rw [advance_of_stuck hc hq, advance_of_stuck hc' (by rw [htarget p c hp, hq]; rfl)]
            rfl
          | some q =>
            rw [advance_of_target? hc hq,
              advance_of_target? hc' (by rw [htarget p c hp, hq, Option.map_some])]
            rfl
        · have hc' : c ∉ g.alphabet := halphabet ▸ hc
          rw [advance_of_notMem hc, advance_of_notMem hc']
          rfl
      stays := fun p c move _ _ hmove => by
        change (Acceptor.advance d p c).map _ = .ok move at hmove
        cases hadvance : Acceptor.advance d p c with
        | error outcome => exact absurd (hadvance ▸ hmove) (by simp [Except.map])
        | ok move₀ =>
          rw [hadvance] at hmove
          obtain rfl := Except.ok.inj hmove
          exact Detour.lead_ne hinstead _
      verdict := fun p hp => by
        change (if g.isAccepting p then Outcome.accepted else .endedInRejectingState p)
          = if d.isAccepting p then Outcome.accepted else .endedInRejectingState p
        rw [Signature.isAccepting_removeState hg hp] }

end DFA

/--
**Forgetting a state takes away the runs through it, and nothing else.**

One of several declared states can be forgotten. A nondeterministic automaton then accepts a word
exactly if before it could be read along a path that does not visit the state, from the initial
state, or from the first of the other states if the forgotten one was initial. A deterministic
automaton reads every word, record by record, as it would have done before if it had been led to the
first of the other states wherever it would have entered the one that is forgotten.
-/
theorem removeState_exact :
    (∀ (n : NFA) (s : String), n.Built → 2 ≤ n.states.length → s ∈ n.states →
        ∃ n' start, n.removeState s = .ok n'
          ∧ (n.initial ≠ s → start = n.initial)
          ∧ (n.initial = s → (n.states.filter (· ≠ s)).head? = some start)
          ∧ ∀ w, n'.process w = .accepted
            ↔ ∃ steps, n.Walk start steps ∧ NFA.spelled steps = w
              ∧ NFA.walkEnd start steps ∈ n.accepting ∧ s ∉ NFA.visited start steps)
      ∧ ∀ (d : DFA) (s : String), d.Built → 2 ≤ d.states.length → s ∈ d.states →
        ∃ d' first, d.removeState s = .ok d' ∧ (d.states.filter (· ≠ s)).head? = some first
          ∧ ∀ w, d'.process w = Acceptor.evaluate (⟨d, s, first⟩ : DFA.Detour) w
            ∧ ∀ i, Simulation.trace d' w i = Simulation.trace (⟨d, s, first⟩ : DFA.Detour) w i := by
  constructor
  · intro n s hn hlength hs
    have h := NFA.built_wellFormed hn
    obtain ⟨n', he⟩ : ∃ n', n.removeState s = .ok n' :=
      exists_bind_pure_eq_ok_iff.2 (Signature.exists_removeState hs (by omega))
    have hwords := fun w => NFA.process_removeState (w := w) h he
    obtain ⟨g, hg, rfl⟩ := bind_pure_eq_ok_iff.1 he
    have hinitial := Signature.initial_removeState hg
    refine ⟨_, g.initial, he, fun hkept => ?_, fun hlost => ?_, hwords⟩
    · rw [hinitial, if_neg hkept]
    · rw [hinitial, if_pos hlost, Signature.head?_removeState h.toWellFormed hg]
  · intro d s hd hlength hs
    have h := DFA.built_wellFormed hd
    obtain ⟨d', he⟩ : ∃ d', d.removeState s = .ok d' :=
      exists_bind_pure_eq_ok_iff.2 (Signature.exists_removeState hs (by omega))
    -- the detour starts outside the state and never enters it
    have hcoincide := DFA.coincide_removeState h he
    obtain ⟨g, hg, rfl⟩ := bind_pure_eq_ok_iff.1 he
    exact ⟨_, g.defaultState, he, Signature.head?_removeState h.toWellFormed hg, fun w =>
      ⟨hcoincide.evaluate_eq fun _ _ => trivial, hcoincide.trace_eq fun _ _ => trivial⟩⟩

/-- Three states in a circle, with the second of them to start in. -/
def circling : DFA where
  states := ["0", "1", "2"]
  alphabet := ['a']
  initial := "1"
  accepting := .ofList ["1", "2"]
  transitions := .ofList [("0", .ofList [('a', "1")]), ("1", .ofList [('a', "2")]),
    ("2", .ofList [('a', "0")])]

theorem circling_built : circling.Built := by
  have h : DFA.ofDescription
      { states := ["0", "1", "2"], alphabet := ['a'], transitions := circling.transitions
        initial := some "1", accepting := ["1", "2"] } = .ok circling := rfl
  exact .described h

theorem circling_removeState_exact :
    (NFA.looping.Built ∧ ∃ n', NFA.looping.removeState "0" = .ok n' ∧ n'.process ['b'] = .accepted)
      ∧ circling.Built ∧ ∃ d', circling.removeState "1" = .ok d'
        ∧ d'.process ['a', 'a'] = .endedInRejectingState "0"
        ∧ (Simulation.trace d' ['a', 'a'] 1).map (·.configuration) = some "0" := by
  obtain ⟨hnfa, hdfa⟩ := removeState_exact
  refine ⟨⟨NFA.looping_built, ?_⟩, circling_built, ?_⟩
  · obtain ⟨n', start, he, -, hstart, haccepted⟩ :=
      hnfa NFA.looping "0" NFA.looping_built (by decide) (by decide)
    obtain rfl : "1" = start := Option.some.inj (hstart rfl)
    -- an empty move comes first on the path that is left
    refine ⟨n', he, (haccepted ['b']).2 ⟨[(none, "2"), (some 'b', "2")], ?_, rfl, ?_, ?_⟩⟩
    · exact ⟨by decide, by decide, trivial⟩
    · decide
    · decide
  · obtain ⟨d', first, he, hfirst, hruns⟩ :=
      hdfa circling "1" circling_built (by decide) (by decide)
    obtain rfl : "0" = first := Option.some.inj hfirst
    obtain ⟨hprocess, htrace⟩ := hruns ['a', 'a']
    refine ⟨d', he, hprocess.trans ?_, ?_⟩
    · decide
    · rw [htrace]
      decide

end AutomataLab
