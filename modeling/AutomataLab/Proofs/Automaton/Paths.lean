import Mathlib.Computability.EpsilonNFA
import AutomataLab.Proofs.Saturation
import AutomataLab.Proofs.Automaton.NFA

/-!
# Reading a word follows its paths

An automaton is read as one with empty moves in the sense of the theory of automata (`graph`), and
`reach n u` is the set of states at the end of the paths from the initial state that spell `u`.
Reading keeps the set of states at hand equal to it, one character after the other: the closure adds
what empty moves reach (`members_closure`), and a move goes from the states of a word to those of
the word with one more character (`advance_of_mem`). So a word is read as far as paths go (`Live`),
and how reading ends is told by what stops it there (`process_exact`).
-/

namespace AutomataLab

/-- The members of a sorted set, as a set. -/
def SortedSet.members {α : Type} [Ord α] (s : SortedSet α) : Set α := {a | a ∈ s}

theorem SortedSet.members_eq_empty_iff {α : Type} [Ord α] {s : SortedSet α} :
    s.members = ∅ ↔ s.isEmpty = true := by
  rw [isEmpty, List.isEmpty_iff, List.eq_nil_iff_forall_not_mem, Set.eq_empty_iff_forall_notMem]
  rfl

namespace NFA

/-! ## The automaton of the theory -/

/-- What a step of a path reads. -/
def stepSymbol : Option Char → Symbol
  | none => .epsilon
  | some c => .char c

/-- The automaton as one of the theory. -/
def graph (n : NFA) : εNFA Char String where
  step p x := {q | q ∈ n.targets p (stepSymbol x)}
  start := {n.initial}
  accept := {q | q ∈ n.accepting}

/-- The states at the end of the paths from the initial state that spell a word. -/
def reach (n : NFA) (u : List Char) : Set String :=
  {q | ∃ path, path.reduceOption = u ∧ n.graph.IsPath n.initial q path}

theorem reach_eq_eval (n : NFA) (u : List Char) : n.reach u = n.graph.eval u := by
  ext q
  exact (n.graph.mem_evalFrom_iff_exists_path).symm

theorem reach_snoc (n : NFA) (u : List Char) (c : Char) :
    n.reach (u ++ [c]) = n.graph.stepSet (n.reach u) c := by
  rw [reach_eq_eval, reach_eq_eval, εNFA.eval_append_singleton]

/-! ## The closure -/

section

variable {n : NFA} {s t : StateSet} {p q : String}

theorem mem_foldl_union {l : List String} {f : String → StateSet} :
    q ∈ l.foldl (fun t p => t ∪ f p) s ↔ q ∈ s ∨ ∃ p ∈ l, q ∈ f p := by
  induction l generalizing s with
  | nil => simp
  | cons p rest ih => simp [ih, or_assoc]

theorem mem_epsilonPass : q ∈ n.epsilonPass s ↔ q ∈ s ∨ ∃ p ∈ s, q ∈ n.listed p .epsilon :=
  mem_foldl_union

theorem mem_epsilonTargets (h : q ∈ n.listed p .epsilon) : q ∈ n.epsilonTargets := by
  unfold listed at h
  cases hrow : n.transitions.get? p with
  | none => simp [hrow] at h
  | some row =>
    -- only rows of the table are listed in, so the target is counted
    have hmem := SortedMap.get?_eq_some_iff.1 hrow
    rw [hrow] at h
    exact List.mem_flatMap.2 ⟨row, List.mem_map.2 ⟨(p, row), hmem, rfl⟩, h⟩

/-- A pass that misses as much as before has added nothing. -/
theorem epsilonPass_eq_self
    (h : n.epsilonTargets.countP (· ∉ t) ≤ n.epsilonTargets.countP (· ∉ n.epsilonPass t)) :
    n.epsilonPass t = t := by
  ext q
  refine ⟨fun hq => ?_, fun hq => mem_epsilonPass.2 (Or.inl hq)⟩
  rcases mem_epsilonPass.1 hq with hq' | ⟨p, -, hpq⟩
  · exact hq'
  · by_contra hnot
    -- else the pass has found `q`, and it misses one less
    have hle : ∀ a ∈ n.epsilonTargets, decide (a ∉ n.epsilonPass t) → decide (a ∉ t) := by
      intro a _ ha
      simp only [decide_eq_true_eq] at ha ⊢
      exact fun hat => ha (mem_epsilonPass.2 (Or.inl hat))
    have hlt := countP_lt_of_mem hle (mem_epsilonTargets hpq) (by simpa using hnot)
      (by simpa using hq)
    omega

theorem mem_step_none :
    q ∈ n.graph.step p none ↔ n.usesEpsilon = true ∧ q ∈ n.listed p .epsilon := by
  by_cases hon : n.usesEpsilon <;> simp [graph, stepSymbol, targets, enables, hon]

/-- What passes over `s` keep: nothing is lost, and only what empty moves reach is added. -/
def Approaches (n : NFA) (s t : StateSet) : Prop :=
  (∀ q ∈ s, q ∈ t) ∧ ∀ q ∈ t, q ∈ n.graph.εClosure s.members

theorem epsilonPass_approaches (hon : n.usesEpsilon = true) (h : n.Approaches s t) :
    n.Approaches s (n.epsilonPass t) := by
  refine ⟨fun q hq => mem_epsilonPass.2 (Or.inl (h.1 q hq)), fun q hq => ?_⟩
  rcases mem_epsilonPass.1 hq with hq | ⟨p, hp, hpq⟩
  · exact h.2 q hq
  · -- what a pass adds is one empty move away
    exact εNFA.εClosure.step p q (mem_step_none.2 ⟨hon, hpq⟩) (h.2 p hp)

/-- **The closure is what empty moves reach.** -/
theorem members_closure (n : NFA) (s : StateSet) :
    (n.closure s).members = n.graph.εClosure s.members := by
  unfold closure
  split
  · next hon =>
    obtain ⟨t, ⟨hbase, hreached⟩, heq, hle⟩ :=
      saturate_spec n.epsilonPass (fun t => n.epsilonTargets.countP (· ∉ t))
        (fun t ht => epsilonPass_approaches hon ht)
        ⟨fun q hq => hq, n.graph.subset_εClosure s.members⟩
    -- the last pass added nothing, so what was reached is closed under empty moves
    have hfixed := epsilonPass_eq_self hle
    rw [heq, hfixed]
    ext q
    refine ⟨hreached q, fun hq => ?_⟩
    induction hq with
    | base q hq => exact hbase q hq
    | step p q hpq _ ih =>
      have hmem : q ∈ n.epsilonPass t := mem_epsilonPass.2 (Or.inr ⟨p, ih, (mem_step_none.1 hpq).2⟩)
      rwa [hfixed] at hmem
  · -- with empty moves turned off the graph has none either
    next hoff =>
    ext q
    refine ⟨fun hq => n.graph.subset_εClosure _ hq, fun hq => ?_⟩
    induction hq with
    | base q hq => exact hq
    | step p q hpq _ ih => exact absurd (mem_step_none.1 hpq).1 hoff

/-! ## Moves -/

theorem mem_firing {c : Char} {e : Transition Char} : e ∈ n.firing s c
    ↔ e.source ∈ s ∧ e.symbol = c ∧ e.target ∈ n.listed e.source (.char c) := by
  obtain ⟨p, x, q⟩ := e
  simp only [firing, List.mem_flatMap, List.mem_map, Transition.mk.injEq]
  constructor
  · rintro ⟨p', hp, q', hq, rfl, rfl, rfl⟩
    exact ⟨hp, rfl, hq⟩
  · rintro ⟨hp, rfl, hq⟩
    exact ⟨p, hp, q, hq, rfl, rfl, rfl⟩

theorem members_closure_firing (n : NFA) (s : StateSet) (c : Char) :
    (n.closure (.ofList ((n.firing s c).map (·.target)))).members
      = n.graph.stepSet s.members c := by
  ext q
  rw [members_closure, εNFA.mem_stepSet_iff, εNFA.mem_εClosure_iff_exists]
  constructor
  · rintro ⟨t, ht, hq⟩
    obtain ⟨e, he, rfl⟩ := List.mem_map.1 (SortedSet.mem_ofList.1 ht)
    obtain ⟨hp, -, htarget⟩ := mem_firing.1 he
    exact ⟨e.source, hp, (n.graph.mem_εClosure_iff_exists).2 ⟨e.target, htarget, hq⟩⟩
  · rintro ⟨p, hp, hq⟩
    obtain ⟨t, ht, hq⟩ := (n.graph.mem_εClosure_iff_exists).1 hq
    have hfired : ⟨p, c, t⟩ ∈ n.firing s c := mem_firing.2 ⟨hp, rfl, ht⟩
    exact ⟨t, SortedSet.mem_ofList.2 (List.mem_map.2 ⟨_, hfired, rfl⟩), hq⟩

theorem advance_of_notMem {c : Char} (hc : c ∉ n.alphabet) :
    Acceptor.advance n s c = .error (.invalidSymbol c) := by
  simp [Acceptor.advance, next, Signature.checkSymbol, hc, bind, Except.bind]

theorem next_of_mem {c : Char} (hc : c ∈ n.alphabet) :
    n.next s c = .ok ⟨n.closure (.ofList ((n.firing s c).map (·.target))), n.firing s c,
      n.closure (.ofList ((n.firing s c).map (·.target))) \
        .ofList ((n.firing s c).map (·.target))⟩ :=
  check_bind_eq_ok_iff.2 ⟨Signature.checkSymbol_eq_ok_iff.2 hc, rfl⟩

/-- A character of the alphabet leads to what the paths reach with it, unless that is nothing. -/
theorem advance_of_mem {c : Char} (hc : c ∈ n.alphabet) :
    (n.graph.stepSet s.members c = ∅ ∧ Acceptor.advance n s c = .error (.noValidTransition s c))
      ∨ ∃ step, Acceptor.advance n s c = .ok step
        ∧ step.configuration.members = n.graph.stepSet s.members c
        ∧ step.configuration.members.Nonempty := by
  have hmembers := members_closure_firing n s c
  simp only [Acceptor.advance, next_of_mem hc]
  split
  · next hempty => exact Or.inl ⟨hmembers ▸ SortedSet.members_eq_empty_iff.2 hempty, rfl⟩
  · next hne =>
    exact Or.inr ⟨_, rfl, hmembers, Set.nonempty_iff_ne_empty.2 fun hempty =>
      hne (SortedSet.members_eq_empty_iff.1 hempty)⟩

end

/-! ## How far paths go -/

/-- The characters are known and some path spells them. -/
def Live (n : NFA) (u : List Char) : Prop := (∀ c ∈ u, c ∈ n.alphabet) ∧ (n.reach u).Nonempty

/-- The longest part of a word, from its beginning, along which paths go. -/
structure LongestLive (n : NFA) (w p : List Char) : Prop where
  /-- It begins the word. -/
  isPrefix : p <+: w
  /-- Some path spells it. -/
  live : n.Live p
  /-- No path goes further along the word. -/
  longest : ∀ u, u <+: w → n.Live u → u <+: p

section

variable {n : NFA} {s : StateSet} {u : List Char}

theorem reach_append_eq_empty (h : n.reach u = ∅) (x : List Char) : n.reach (u ++ x) = ∅ := by
  induction x generalizing u with
  | nil => rwa [List.append_nil]
  | cons c x ih =>
    have hstep : n.reach (u ++ [c]) = ∅ := by rw [reach_snoc, h, εNFA.stepSet_empty]
    rw [List.append_cons]
    exact ih hstep

/-- Where a word goes, its beginnings go. -/
theorem Live.of_prefix {x : List Char} (h : n.Live x) (hux : u <+: x) : n.Live u := by
  obtain ⟨v, rfl⟩ := hux
  refine ⟨fun c hc => h.1 c (List.mem_append_left v hc), ?_⟩
  by_contra hnot
  -- no path goes on from where none arrives
  have hempty := reach_append_eq_empty (Set.not_nonempty_iff_eq_empty.1 hnot) v
  exact Set.not_nonempty_empty (hempty ▸ h.2)

theorem longestLive_self (h : n.Live u) : n.LongestLive u u :=
  ⟨List.prefix_rfl, h, fun _ hx _ => hx⟩

theorem longestLive_of_stuck {c : Char} (h : n.Live u) (hstuck : ¬n.Live (u ++ [c]))
    (rest : List Char) : n.LongestLive (u ++ c :: rest) u := by
  refine ⟨List.prefix_append u _, h, fun x hx hlive => ?_⟩
  rcases List.prefix_or_prefix_of_prefix hx (List.prefix_append u (c :: rest)) with hxu | ⟨v, rfl⟩
  · exact hxu
  · -- a longer one would go on with `c`
    cases v with
    | nil => rw [List.append_nil]
    | cons d v =>
      obtain ⟨rfl, -⟩ := List.cons_prefix_cons.1 ((List.prefix_append_right_inj u).1 hx)
      refine absurd (hlive.of_prefix ?_) hstuck
      exact (List.prefix_append_right_inj u).2 ⟨v, rfl⟩

/-! ## Reading a word -/

/-- How reading ends in the states of `s` with `rest` left. -/
def ending (n : NFA) (s : StateSet) : List Char → Outcome
  | [] => Acceptor.verdict n s
  | c :: _ => if c ∈ n.alphabet then .noValidTransition s c else .invalidSymbol c

theorem ending_eq_accepted_iff {left : List Char} :
    n.ending s left = .accepted ↔ left = [] ∧ n.areAccepting s = true := by
  cases left with
  | nil => simp [ending, Acceptor.verdict]
  | cons c rest => by_cases hc : c ∈ n.alphabet <;> simp [ending, hc]

/-- **Reading goes on as far as paths do.** -/
theorem evaluateFrom_spec (hlive : n.Live u) (hs : s.members = n.reach u) (rest : List Char) :
    ∃ p left t, u ++ rest = p ++ left ∧ n.LongestLive (u ++ rest) p ∧ t.members = n.reach p
      ∧ Acceptor.evaluateFrom n s rest = n.ending t left := by
  -- `u` has been read already, and grows as `rest` gets shorter
  induction rest generalizing u s with
  | nil => exact ⟨u, [], s, rfl, by rw [List.append_nil]; exact longestLive_self hlive, hs, rfl⟩
  | cons c rest ih =>
    by_cases hc : c ∈ n.alphabet
    · rcases advance_of_mem (s := s) hc with ⟨hempty, hadvance⟩ | ⟨step, hadvance, hmembers, hne⟩
      · -- a known character, and nothing is reached with it
        have hstuck : ¬n.Live (u ++ [c]) := by
          intro h
          rw [hs, ← reach_snoc] at hempty
          exact Set.not_nonempty_empty (hempty ▸ h.2)
        refine ⟨u, c :: rest, s, rfl, longestLive_of_stuck hlive hstuck rest, hs, ?_⟩
        simp only [Acceptor.evaluateFrom, hadvance, ending, if_pos hc]
      · -- a move: the states at hand are those that `u` and the character reach
        rw [hs, ← reach_snoc] at hmembers
        have hlive' : n.Live (u ++ [c]) := by
          refine ⟨fun d hd => ?_, hmembers ▸ hne⟩
          rcases List.mem_append.1 hd with hd | hd
          · exact hlive.1 d hd
          · exact List.mem_singleton.1 hd ▸ hc
        obtain ⟨p, left, t, heq, hlongest, ht, heval⟩ := ih hlive' hmembers
        rw [← List.append_cons] at heq hlongest
        refine ⟨p, left, t, heq, hlongest, ht, ?_⟩
        simp only [Acceptor.evaluateFrom, hadvance, heval]
    · -- an unknown character, which no path spells
      have hstuck : ¬n.Live (u ++ [c]) := fun h => hc (h.1 c (by simp))
      refine ⟨u, c :: rest, s, rfl, longestLive_of_stuck hlive hstuck rest, hs, ?_⟩
      simp only [Acceptor.evaluateFrom, advance_of_notMem hc, ending, if_neg hc]

theorem live_nil (n : NFA) : n.Live [] :=
  ⟨fun _ hc => absurd hc List.not_mem_nil, n.initial, [], rfl, .nil n.initial⟩

theorem members_initial (n : NFA) : (n.closure {n.initial}).members = n.reach [] := by
  rw [members_closure, reach_eq_eval, εNFA.eval_nil]
  congr 1
  ext q
  exact SortedSet.mem_singleton

theorem areAccepting_iff (hs : s.members = n.reach u) :
    n.areAccepting s = true ↔ ∃ q ∈ n.reach u, q ∈ n.accepting := by
  rw [← hs]
  exact Signature.areAccepting_iff_exists

/-- Paths read characters of the alphabet only. -/
theorem mem_alphabet_of_isPath (h : n.WellFormed) {p q : String} {path : List (Option Char)}
    (hpath : n.graph.IsPath p q path) : ∀ c ∈ path.reduceOption, c ∈ n.alphabet := by
  induction hpath with
  | nil => simp
  | cons t p q x path hstep _ ih =>
    cases x with
    | none => rwa [List.reduceOption_cons_of_none]
    -- the table of a well-formed automaton lists nothing on an unknown character
    | some c =>
      rw [List.reduceOption_cons_of_some]
      exact List.forall_mem_cons.2 ⟨(h.of_listed hstep).2.1, ih⟩

/-- A word is accepted if it leads to an accepting state. -/
theorem process_eq_accepted_iff (h : n.WellFormed) {w : List Char} :
    n.process w = .accepted ↔ ∃ q ∈ n.reach w, q ∈ n.accepting := by
  obtain ⟨p, left, t, hw, hlongest, ht, heval⟩ :=
    evaluateFrom_spec (live_nil n) (members_initial n) w
  have hprocess : n.process w = n.ending t left := heval
  rw [List.nil_append] at hw hlongest
  rw [hprocess, ending_eq_accepted_iff]
  constructor
  · rintro ⟨rfl, haccepting⟩
    -- a word that is accepted has nothing left to be read
    obtain rfl : w = p := by simpa using hw
    exact (areAccepting_iff ht).1 haccepting
  · rintro ⟨q, ⟨path, rfl, hpath⟩, hq⟩
    -- a word that leads somewhere is read to its end
    have hlive : n.Live path.reduceOption := ⟨mem_alphabet_of_isPath h hpath, q, path, rfl, hpath⟩
    have hle := (hlongest.longest _ List.prefix_rfl hlive).length_le
    obtain rfl := hlongest.isPrefix.eq_of_length_le hle
    exact ⟨List.self_eq_append_right.1 hw, (areAccepting_iff ht).2 ⟨q, ⟨path, rfl, hpath⟩, hq⟩⟩

/--
**Evaluation follows the paths of the automaton.**

The longest part of the word along which paths go decides. If it is the whole word, the word is
accepted if one of the states that its paths reach is accepting, and else they are reported. If a
character follows it, that character is reported, with the states reached before it if it is in the
alphabet. So a word is accepted exactly if it labels a path to an accepting state.
-/
theorem process_exact (hn : n.Built) (w : List Char) :
    (∃ p left, ∃ s : StateSet, w = p ++ left ∧ n.LongestLive w p ∧ s.members = n.reach p
      ∧ (left = [] →
        ((∃ q ∈ n.reach w, q ∈ n.accepting) → n.process w = .accepted)
          ∧ ((¬∃ q ∈ n.reach w, q ∈ n.accepting) → n.process w = .endedInRejectingStates s))
      ∧ ∀ c rest, left = c :: rest →
        (c ∉ n.alphabet → n.process w = .invalidSymbol c)
          ∧ (c ∈ n.alphabet → n.process w = .noValidTransition s c))
      ∧ (n.process w = .accepted
        ↔ ∃ path q, path.reduceOption = w ∧ n.graph.IsPath n.initial q path ∧ q ∈ n.accepting) := by
  obtain ⟨p, left, s, hw, hlongest, hs, heval⟩ :=
    evaluateFrom_spec (live_nil n) (members_initial n) w
  have hprocess : n.process w = n.ending s left := heval
  rw [List.nil_append] at hw hlongest
  constructor
  · refine ⟨p, left, s, hw, hlongest, hs, ?_, ?_⟩
    · rintro rfl
      rw [List.append_nil] at hw
      subst hw
      rw [hprocess, ← areAccepting_iff hs]
      exact ⟨fun h => if_pos h, fun h => if_neg h⟩
    · rintro c rest rfl
      rw [hprocess]
      exact ⟨fun hc => if_neg hc, fun hc => if_pos hc⟩
  · rw [process_eq_accepted_iff (built_wellFormed hn)]
    constructor
    · rintro ⟨q, ⟨path, hword, hpath⟩, hq⟩
      exact ⟨path, q, hword, hpath, hq⟩
    · rintro ⟨path, q, hword, hpath, hq⟩
      exact ⟨q, ⟨path, hword, hpath⟩, hq⟩

end

/-- Reads `a`, then any number of `b`; empty moves lead back and forth between the two states that
this ends in. -/
def looping : NFA where
  states := ["0", "1", "2"]
  alphabet := ['a', 'b']
  initial := "0"
  accepting := .ofList ["2"]
  transitions := .ofList [("0", .ofList [(.char 'a', .ofList ["1"])]),
    ("1", .ofList [(.epsilon, .ofList ["2"])]),
    ("2", .ofList [(.epsilon, .ofList ["1"]), (.char 'b', .ofList ["2"])])]
  usesEpsilon := true

theorem looping_built : looping.Built := by
  have h : ofDescription
      { states := ["0", "1", "2"], alphabet := ['a', 'b'], initial := none, accepting := []
        transitions := .ofList [("0", .ofList [(.char 'a', ["1"])]),
          ("1", .ofList [(.epsilon, ["2"])]),
          ("2", .ofList [(.epsilon, ["1"]), (.char 'b', ["2", "2"])])]
        epsilonSign := none, usesEpsilon := true }
      = .ok { looping with accepting := ∅ } := rfl
  have hedit : edit { looping with accepting := ∅ } (.toggleAccepting "2") = .ok looping := rfl
  exact .edited (.described h) hedit

theorem looping_process_exact :
    looping.Built ∧ looping.process ['a', 'b', 'b'] = .accepted
      ∧ (∃ path q, path.reduceOption = ['a', 'b', 'b'] ∧ looping.graph.IsPath "0" q path
        ∧ q ∈ looping.accepting)
      ∧ looping.process ['a', 'b', 'a'] = .noValidTransition (.ofList ["1", "2"]) 'a'
      ∧ ¬∃ path q, path.reduceOption = ['a', 'b', 'a'] ∧ looping.graph.IsPath "0" q path
        ∧ q ∈ looping.accepting := by
  have haccepted : looping.process ['a', 'b', 'b'] = .accepted := by decide +kernel
  have hstuck : looping.process ['a', 'b', 'a'] = .noValidTransition (.ofList ["1", "2"]) 'a' := by
    decide +kernel
  refine ⟨looping_built, haccepted, (process_exact looping_built _).2.1 haccepted, hstuck, ?_⟩
  intro hpath
  have h := (process_exact looping_built ['a', 'b', 'a']).2.2 hpath
  exact absurd (hstuck.symm.trans h) (by simp)

end NFA

end AutomataLab
