import AutomataLab.Proofs.Automaton.EditedMoves
import AutomataLab.Proofs.Automaton.Closure
import AutomataLab.Proofs.Playback.Trace

/-!
# What is reported of a move

A move of a nondeterministic automaton tells three things: the transitions that were taken, the
states that the automaton is in now, and which of them are there by empty moves alone. The three
belong together (`Reports`): the transitions are those on the character from the states before, each
listed once and in order, they lead to some of the states, and empty moves lead from these to the
others. There is only one move of which all this holds (`Reports.unique`), so it can stand for how
moves are made (`next_eq_ok_iff`).

A playback keeps the report of each move that it makes. A record of its path is thus the report of
a move from the record before (`exists_move_of_path`).
-/

namespace AutomataLab

/-! ## The order of transitions -/

/-- By source, and by target where the sources are the same. -/
def Transition.Precedes {σ : Type} (e f : Transition σ) : Prop :=
  compare e.source f.source = .lt ∨ e.source = f.source ∧ compare e.target f.target = .lt

namespace Transition

variable {σ : Type} {e f : Transition σ}

theorem Precedes.ne (h : e.Precedes f) : e ≠ f := by
  rintro rfl
  simp [Precedes, Std.ReflOrd.compare_self] at h

theorem Precedes.asymm (h : e.Precedes f) : ¬f.Precedes e := by
  rintro (hsource | ⟨hsource, htarget⟩)
  · rcases h with h | ⟨h, -⟩
    · exact absurd (h.symm.trans (Std.OrientedCmp.gt_of_lt hsource)) (by simp)
    · rw [h, Std.ReflOrd.compare_self] at hsource
      exact absurd hsource (by simp)
  · rcases h with h | ⟨-, h⟩
    · rw [hsource, Std.ReflOrd.compare_self] at h
      exact absurd h (by simp)
    · exact absurd (h.symm.trans (Std.OrientedCmp.gt_of_lt htarget)) (by simp)

theorem nodup_of_pairwise {l : List (Transition σ)} (h : l.Pairwise Precedes) : l.Nodup :=
  h.imp Precedes.ne

/-- Transitions can be listed in order in one way only. -/
theorem eq_of_pairwise {l m : List (Transition σ)} (hl : l.Pairwise Precedes)
    (hm : m.Pairwise Precedes) (h : ∀ e, e ∈ l ↔ e ∈ m) : l = m := by
  have hperm : l.Perm m :=
    (List.perm_ext_iff_of_nodup (nodup_of_pairwise hl) (nodup_of_pairwise hm)).2 h
  exact hperm.eq_of_pairwise (fun _ _ _ _ hef hfe => absurd hfe hef.asymm) hl hm

end Transition

/-- The states that the transitions of a move lead to. -/
def Advance.entered {C : Type} (move : Advance C) : StateSet :=
  .ofList (move.transitions.map (·.target))

/-- The move that led to a record. -/
def Playback.Step.move {C : Type} (r : Playback.Step C) : Advance C :=
  ⟨r.configuration, r.transitions, r.epsilonReached⟩

/-! ## Records of a path -/

namespace Simulation

open Playback

variable {A C : Type} [Acceptor A C] {s : Simulation A C}

/-- The records of a path are those of the trace, at the same places. -/
theorem trace_of_path (ht : Traced s) {i : Nat} {r : Step C} (hr : s.state.path[i]? = some r) :
    s.state.isRunning = true ∧ i ≤ s.state.currentStep
      ∧ trace s.automaton s.runInput i = some r := by
  cases hrun : s.state.isRunning with
  | true =>
    have hat : (s.state.path.map some)[i]? = some (some r) := by rw [List.getElem?_map, hr]; rfl
    rw [(ht.running hrun).path, List.getElem?_map] at hat
    obtain ⟨j, hj, hrecord⟩ := Option.map_eq_some_iff.1 hat
    obtain ⟨hi, rfl⟩ := List.getElem?_eq_some_iff.1 hj
    rw [List.getElem_range] at hrecord
    rw [List.length_range] at hi
    exact ⟨rfl, by omega, hrecord⟩
  | false =>
    rw [ht.idle hrun] at hr
    exact absurd hr (by simp [State.idle])

theorem path_of_trace (ht : Traced s) (hrun : s.state.isRunning = true) {i : Nat} {r : Step C}
    (hi : i ≤ s.state.currentStep) (hr : trace s.automaton s.runInput i = some r) :
    s.state.path[i]? = some r := by
  have hat : (s.state.path.map some)[i]? = some (some r) := by
    rw [(ht.running hrun).path, List.getElem?_map, List.getElem?_range (by omega)]
    exact congrArg some hr
  rw [List.getElem?_map] at hat
  obtain ⟨r', hr', heq⟩ := Option.map_eq_some_iff.1 hat
  rw [hr', Option.some.inj heq]

/-- **A record after the first one is the report of a move from the record before it.** -/
theorem exists_move_of_path (ht : Traced s) {i : Nat} {r' : Step C}
    (hr' : s.state.path[i + 1]? = some r') :
    ∃ r c, s.state.path[i]? = some r ∧ s.runInput[i]? = some c ∧ r'.symbol = some c
      ∧ r'.source = some r.configuration
      ∧ Acceptor.advance s.automaton r.configuration c = .ok r'.move := by
  obtain ⟨hrun, hi, htrace⟩ := trace_of_path ht hr'
  obtain ⟨r, c, move, hr, hc, hmove, rfl⟩ := eq_of_trace_succ htrace
  exact ⟨r, c, path_of_trace ht hrun (by omega) hr, hc, rfl, rfl, hmove⟩

/-- The first record of a path is the initial one. -/
theorem eq_firstStep_of_path (ht : Traced s) {r : Step C} (hr : s.state.path[0]? = some r) :
    r = State.firstStep s.automaton s.runInput :=
  (Option.some.inj (trace_of_path ht hr).2.2).symm

end Simulation

namespace NFA

/-! ## The report of a move -/

/-- What is reported of reading `c` in the states of a set. -/
structure Reports (n : NFA) (s : StateSet) (c : Char) (move : Advance StateSet) : Prop where
  /-- The transitions are those on `c` from the states of the set. -/
  fired : ∀ e, e ∈ move.transitions
    ↔ e.source ∈ s ∧ e.symbol = c ∧ e.target ∈ n.targets e.source (.char c)
  /-- They are told in the order of their sources, and of their targets where the source is one. -/
  ordered : move.transitions.Pairwise Transition.Precedes
  /-- The states that they lead to, and those that empty moves lead to from there. -/
  closed : move.configuration = n.closure move.entered
  /-- Those of the states that no transition led to. -/
  rest : move.epsilonReached = move.configuration \ move.entered

section

variable {n : NFA} {s t : StateSet} {c : Char} {q : String} {move move' : Advance StateSet}

theorem firing_pairwise : (n.firing s c).Pairwise Transition.Precedes := by
  rw [firing, List.pairwise_flatMap]
  constructor
  · intro p _
    -- one source: its targets are sorted
    rw [List.pairwise_map]
    exact (n.listed p (.char c)).sorted.imp fun hlt => Or.inr ⟨rfl, hlt⟩
  · -- two sources: they are taken in their order
    refine s.sorted.imp fun hlt e he f hf => ?_
    obtain ⟨_, _, rfl⟩ := List.mem_map.1 he
    obtain ⟨_, _, rfl⟩ := List.mem_map.1 hf
    exact Or.inl hlt

/-- There is only one report of a move. -/
theorem Reports.unique (h : n.Reports s c move) (h' : n.Reports s c move') : move = move' := by
  -- everything else is told by the transitions, and those by membership and order
  have htransitions : move.transitions = move'.transitions :=
    Transition.eq_of_pairwise h.ordered h'.ordered fun e => (h.fired e).trans (h'.fired e).symm
  have hentered : move.entered = move'.entered := by rw [Advance.entered, htransitions]; rfl
  have hconfiguration : move.configuration = move'.configuration := by
    rw [h.closed, h'.closed, hentered]
  have hrest : move.epsilonReached = move'.epsilonReached := by
    rw [h.rest, h'.rest, hentered, hconfiguration]
  cases move
  cases move'
  exact Advance.mk.injEq .. ▸ ⟨hconfiguration, htransitions, hrest⟩

/-- The move that is made. -/
theorem reports_firing (n : NFA) (s : StateSet) (c : Char) :
    n.Reports s c
      ⟨n.closure (n.direct s c), n.firing s c, n.closure (n.direct s c) \ n.direct s c⟩ where
  fired := fun _ => mem_firing
  ordered := firing_pairwise
  closed := rfl
  rest := rfl

/-- **The report tells which move is made on a character of the alphabet.** -/
theorem next_eq_ok_iff : n.next s c = .ok move ↔ c ∈ n.alphabet ∧ n.Reports s c move := by
  constructor
  · intro h
    have hc : c ∈ n.alphabet :=
      Signature.checkSymbol_eq_ok_iff.1 (check_bind_eq_ok_iff.1 h).1
    obtain rfl := Except.ok.inj ((next_of_mem hc).symm.trans h)
    exact ⟨hc, reports_firing n s c⟩
  · rintro ⟨hc, h⟩
    rw [h.unique (reports_firing n s c)]
    exact next_of_mem hc

theorem Reports.mem_entered (h : n.Reports s c move) :
    q ∈ move.entered ↔ ∃ p ∈ s, q ∈ n.targets p (.char c) := by
  rw [Advance.entered, SortedSet.mem_ofList, List.mem_map]
  constructor
  · rintro ⟨e, he, rfl⟩
    obtain ⟨hsource, -, htarget⟩ := (h.fired e).1 he
    exact ⟨e.source, hsource, htarget⟩
  · rintro ⟨p, hp, hq⟩
    exact ⟨⟨p, c, q⟩, (h.fired _).2 ⟨hp, rfl, hq⟩, rfl⟩

/-- Each state is there by a transition or by empty moves alone. -/
theorem Reports.mem_configuration (h : n.Reports s c move) :
    q ∈ move.configuration ↔ q ∈ move.entered ∨ q ∈ move.epsilonReached := by
  rw [h.rest, SortedSet.mem_sdiff]
  by_cases hq : q ∈ move.entered
  · have hclosed : q ∈ move.configuration := h.closed ▸ subset_closure hq
    simp [hq, hclosed]
  · simp [hq]

/-- What no transition leads to is reached from what transitions lead to, by some empty move. -/
theorem Reports.exists_emptyMoves (h : n.Reports s c move) (hq : q ∈ move.epsilonReached) :
    q ∉ move.entered ∧ ∃ p ∈ move.entered, Relation.TransGen n.EmptyMove p q := by
  rw [h.rest, SortedSet.mem_sdiff, h.closed, mem_closure_iff] at hq
  obtain ⟨⟨p, hp, hpq⟩, hnot⟩ := hq
  refine ⟨hnot, p, hp, ?_⟩
  rcases Relation.reflTransGen_iff_eq_or_transGen.1 hpq with rfl | hmoves
  · -- no move at all would make it one of those that transitions lead to
    exact absurd hp hnot
  · exact hmoves

/-- What is reached from either of two sets. -/
theorem next_union (hc : c ∈ n.alphabet) : ∃ a b u, n.next s c = .ok a ∧ n.next t c = .ok b
    ∧ n.next (s ∪ t) c = .ok u ∧ u.configuration = a.configuration ∪ b.configuration := by
  have hdirect : n.direct (s ∪ t) c = n.direct s c ∪ n.direct t c := by
    ext q
    simp only [SortedSet.mem_union, mem_direct, or_and_right, exists_or]
  refine ⟨_, _, _, next_of_mem hc, next_of_mem hc, next_of_mem hc, ?_⟩
  change n.closure (n.direct (s ∪ t) c) = _
  rw [hdirect, closure_union]
  rfl

theorem next_of_advance (h : Acceptor.advance n s c = .ok move) : n.next s c = .ok move := by
  obtain ⟨hc, -, rfl⟩ := advance_eq_ok_iff.1 h
  exact next_of_mem hc

end

/--
**A move is reported exactly, and playbacks keep the reports.**

From any set of states, whether declared or not, there is a move on each character of the alphabet,
and it is told by its report. The transitions listed are all those on the character from the states
of the set, each once, by source and then by target; the states after the move are those that the
transitions lead to and those that are there by empty moves alone, and no state is both. Two sets
reach together what each of them reaches.

A playback, whatever was done to it, records the initial states first, with those that are there by
empty moves; and each further record is the report of the move on its character from the states of
the record before.
-/
theorem reports_exact (n : NFA) :
    (∀ s, ∀ c ∈ n.alphabet, ∃ move, n.next s c = .ok move ∧ n.Reports s c move)
      ∧ (∀ s c move, n.Reports s c move → move.transitions.Nodup
        ∧ (∀ q, q ∈ move.entered ↔ ∃ p ∈ s, q ∈ n.targets p (.char c))
        ∧ (∀ q, q ∈ move.configuration ↔ q ∈ move.entered ∨ q ∈ move.epsilonReached)
        ∧ ∀ q ∈ move.epsilonReached, q ∉ move.entered
          ∧ ∃ p ∈ move.entered, Relation.TransGen n.EmptyMove p q)
      ∧ (∀ s t, ∀ c ∈ n.alphabet, ∃ a b u, n.next s c = .ok a ∧ n.next t c = .ok b
        ∧ n.next (s ∪ t) c = .ok u ∧ u.configuration = a.configuration ∪ b.configuration)
      ∧ ∀ hist (s : Simulation NFA StateSet), Simulation.Reachable hist s → s.automaton = n →
        (∀ r, s.state.path[0]? = some r → r.configuration = n.closure {n.initial}
          ∧ ∀ q, q ∈ r.epsilonReached ↔ q ∈ n.closure {n.initial} ∧ q ≠ n.initial)
        ∧ ∀ i r', s.state.path[i + 1]? = some r' →
          ∃ r, s.state.path[i]? = some r ∧ r'.source = some r.configuration
            ∧ ∃ c ∈ n.alphabet, r'.symbol = some c ∧ n.next r.configuration c = .ok r'.move
              ∧ n.Reports r.configuration c r'.move := by
  refine ⟨fun s c hc => ⟨_, next_of_mem hc, reports_firing n s c⟩, fun s c move h => ?_,
    fun s t c => next_union, ?_⟩
  · exact ⟨Transition.nodup_of_pairwise h.ordered, fun q => h.mem_entered,
      fun q => h.mem_configuration, fun q => h.exists_emptyMoves⟩
  · rintro hist s hs rfl
    have ht := Simulation.traced_reachable hs
    constructor
    · intro r hr
      rw [Simulation.eq_firstStep_of_path ht hr]
      exact ⟨rfl, fun q => SortedSet.mem_erase⟩
    · intro i r' hr'
      obtain ⟨r, c, hr, -, hsymbol, hsource, hadvance⟩ := Simulation.exists_move_of_path ht hr'
      have hnext := next_of_advance hadvance
      obtain ⟨hc, hreports⟩ := next_eq_ok_iff.1 hnext
      exact ⟨r, hr, hsource, c, hc, hsymbol, hnext, hreports⟩

/-- A run is watched to its end. Its last move is made from two states, one of which has a
transition on the character. -/
theorem looping_reports_exact :
    let p := Simulation.perform [] (Simulation.new looping {}) [.submitInput ['a', 'b'], .drive]
    (∃ r r' : Playback.Step StateSet,
        p.2.state.path[1]? = some r ∧ p.2.state.path[2]? = some r'
        ∧ r.configuration = .ofList ["1", "2"] ∧ r'.source = some r.configuration
        ∧ looping.Reports r.configuration 'b' r'.move
        ∧ r'.transitions = [⟨"2", 'b', "2"⟩] ∧ r'.epsilonReached = {"1"}
        ∧ ∃ q ∈ r'.move.entered, Relation.TransGen looping.EmptyMove q "1")
      ∧ ∃ a b u, looping.next {"0"} 'a' = .ok a ∧ looping.next {"2"} 'a' = .ok b
        ∧ looping.next ({"0"} ∪ {"2"}) 'a' = .ok u
        ∧ u.configuration = a.configuration ∪ b.configuration := by
  intro p
  have hs : Simulation.Reachable p.1 p.2 := Simulation.reachable_perform (.init looping {}) _
  obtain ⟨-, hparts, hunion, hplayed⟩ := reports_exact looping
  have hautomaton : p.2.automaton = looping := by decide +kernel
  have hbefore : p.2.state.path[1]?.map (·.configuration) = some (.ofList ["1", "2"]) := by
    decide +kernel
  have hlast : p.2.state.path[2]?.map (fun r => (r.symbol, r.transitions, r.epsilonReached))
      = some (some 'b', [⟨"2", 'b', "2"⟩], {"1"}) := by decide +kernel
  obtain ⟨r', hr', htold⟩ := Option.map_eq_some_iff.1 hlast
  simp only [Prod.mk.injEq] at htold
  obtain ⟨hsymbol', htransitions, hepsilon⟩ := htold
  obtain ⟨r, hr, hsource, c, -, hsymbol, -, hreports⟩ :=
    (hplayed p.1 p.2 hs hautomaton).2 1 r' hr'
  obtain rfl := Option.some.inj (hsymbol'.symm.trans hsymbol)
  rw [hr] at hbefore
  have hone : "1" ∈ r'.move.epsilonReached := by
    change "1" ∈ r'.epsilonReached
    rw [hepsilon]
    exact SortedSet.mem_singleton.2 rfl
  exact ⟨⟨r, r', hr, hr', Option.some.inj hbefore, hsource, hreports, htransitions, hepsilon,
    ((hparts _ _ _ hreports).2.2.2 "1" hone).2⟩, hunion _ _ 'a' (by simp [looping])⟩

end NFA

end AutomataLab
