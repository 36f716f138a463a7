import Mathlib.Data.List.Nodup
import Mathlib.Data.List.ProdSigma
import Mathlib.Data.Set.List
import AutomataLab.Proofs.Automaton.Entering
import AutomataLab.Proofs.Automaton.HiddenMoves
import AutomataLab.Proofs.Automaton.Singletons

/-!
# The list of transitions

The transitions of an automaton are listed state by state, and what is listed is the whole
automaton but for its declarations. A deterministic automaton has one entry for each state and
symbol, since its table is full. A nondeterministic one has an entry for each target that a state
has on a symbol, and the list is in order, so there is no entry twice.

The entries can be put one at a time into the automaton that is declared anew. Which moves it has
in the end depends only on which entries there are. So a deterministic automaton comes back as it
was (`DFA.setAll_of_perm_transitionList`). A nondeterministic one comes back with the same moves,
but without what the list does not show: rows without targets
(`NFA.addAll_of_perm_transitionList`).
-/

namespace AutomataLab

/-- A move on a character, as it is listed. -/
def Transition.onChar (e : Transition Char) : Transition Symbol :=
  ⟨e.source, .char e.symbol, e.target⟩

namespace Transition

variable {moves : List (Transition Char)} {l : List (Transition Symbol)} {p q : String} {c : Char}

theorem onChar_injective : Function.Injective onChar := by
  rintro ⟨p, c, q⟩ ⟨p', c', q'⟩ heq
  simpa [onChar] using heq

theorem mem_map_onChar : ⟨p, .char c, q⟩ ∈ moves.map onChar ↔ ⟨p, c, q⟩ ∈ moves := by
  have hmem : onChar ⟨p, c, q⟩ ∈ moves.map onChar ↔ ⟨p, c, q⟩ ∈ moves :=
    List.mem_map_of_injective onChar_injective
  exact hmem

theorem exists_map_onChar (h : ∀ e ∈ l, ∃ c, e.symbol = .char c) :
    ∃ moves : List (Transition Char), moves.map onChar = l := by
  -- each entry has a preimage, so the list has one
  have hrange : l ∈ Set.range (List.map onChar) := by
    rw [Set.range_list_map]
    rintro ⟨p, x, q⟩ he
    obtain ⟨c, rfl⟩ := h _ he
    exact ⟨⟨p, c, q⟩, rfl⟩
  exact hrange

end Transition

/-! ## Deterministic automata -/

namespace DFA

section

variable {d : DFA} (h : d.WellFormed) {l : List (Transition Symbol)}

include h

/-- **There is one entry for each state and symbol, in the order of declaration.** -/
theorem sources_transitionList : d.transitionList.map (fun e => (e.source, e.symbol))
    = d.states ×ˢ d.alphabet.map Symbol.char := by
  rw [transitionList, List.map_flatMap]
  refine List.flatMap_congr fun q hq => ?_
  rw [List.map_map, List.map_filterMap, ← List.filterMap_eq_map]
  refine List.filterMap_congr fun c hc => ?_
  -- the table is full, so no symbol is skipped
  obtain ⟨r, hr⟩ := h.exists_target? hq hc
  rw [hr]
  rfl

theorem nodup_sources_transitionList :
    (d.transitionList.map fun e => (e.source, e.symbol)).Nodup := by
  rw [sources_transitionList h]
  exact h.states.product (h.alphabet.map fun c c' hc => Symbol.char.inj hc)

/-- **The automaton comes from setting what is listed, in any order.** -/
theorem setAll_of_perm_transitionList (hl : l.Perm d.transitionList) :
    ∃ moves : List (Transition Char), moves.map Transition.onChar = l
      ∧ (declare d.states d.alphabet d.initial d.accepting.toList >>= (·.setAll moves))
        = .ok d := by
  obtain ⟨moves, rfl⟩ := Transition.exists_map_onChar (l := l) fun e he => by
    obtain ⟨c, hc, -⟩ := h.mem_transitionList.1 (hl.mem_iff.1 he)
    exact ⟨c, hc⟩
  have hmem : ∀ p c q, ⟨p, c, q⟩ ∈ moves ↔ entryAt d.transitions p c = some q := by
    intro p c q
    rw [← Transition.mem_map_onChar, hl.mem_iff, h.mem_transitionList]
    simp [target?, entryAt]
  have hdeclare : declare d.states d.alphabet d.initial d.accepting.toList
      = .ok ⟨d.toSignature, fill d.toSignature ∅⟩ := bind_pure_eq_ok_iff.2 ⟨_, h.declare_self, rfl⟩
  exact ⟨moves, rfl, bind_eq_ok_iff.2 ⟨_, hdeclare,
    setAll_eq_self h (fun p c q => (hmem p c q).1) fun p c q hq => Or.inl ((hmem p c q).2 hq)⟩⟩

end

end DFA

/-! ## Nondeterministic automata -/

/-- The order of symbols: the empty move comes first, then the characters by code point. -/
def Symbol.Before : Symbol → Symbol → Prop
  | .epsilon, .char _ => True
  | .char c, .char d => c < d
  | _, .epsilon => False

theorem Symbol.before_iff {x y : Symbol} : x.Before y ↔ compare x y = .lt := by
  cases x <;> cases y
  · exact iff_of_false id (by decide)
  · exact iff_of_true trivial rfl
  · exact iff_of_false id (by simp [compare, char?])
  · exact compareOfLessAndEq_eq_lt.symm

theorem pairwise_idxOf {α : Type} [DecidableEq α] {l : List α} (h : l.Nodup) :
    l.Pairwise fun a b => l.idxOf a < l.idxOf b := by
  rw [List.pairwise_iff_getElem]
  intro i j hi hj hij
  rwa [h.idxOf_getElem, h.idxOf_getElem]

namespace NFA

/-- One entry stands before another: its state is declared earlier, or it is the same and the symbol
comes earlier, or that is the same as well and the name of the target comes earlier. -/
def ListedBefore (n : NFA) (e f : Transition Symbol) : Prop :=
  n.states.idxOf e.source < n.states.idxOf f.source
    ∨ e.source = f.source ∧ (e.symbol.Before f.symbol ∨ e.symbol = f.symbol ∧ e.target < f.target)

theorem ListedBefore.ne {n : NFA} {e f : Transition Symbol} (h : n.ListedBefore e f) : e ≠ f := by
  rintro rfl
  rcases h with h | ⟨-, h | ⟨-, h⟩⟩
  · exact absurd h (Nat.lt_irrefl _)
  · rw [Symbol.before_iff, Std.ReflOrd.compare_self] at h
    exact absurd h (by simp)
  · exact absurd h (String.lt_irrefl _)

theorem mem_targetsIn {row : Row} {x : Symbol} {q : String} :
    q ∈ targetsIn row x ↔ ∃ s, (x, s) ∈ row.entries ∧ q ∈ s := by
  simp only [← SortedMap.get?_eq_some_iff]
  unfold targetsIn
  cases row.get? x <;> simp

section

variable {n : NFA} {l : List (Transition Symbol)} {p q : String} {x : Symbol}

theorem mem_transitionList :
    ⟨p, x, q⟩ ∈ n.transitionList ↔ p ∈ n.states ∧ q ∈ n.targets p x := by
  rw [transitionList_eq, ← targetsIn_visibleRow, mem_targetsIn]
  simp only [List.mem_flatMap, List.mem_map, Transition.mk.injEq, Prod.exists]
  constructor
  · rintro ⟨p', hp, x', s, hs, q', hq, rfl, rfl, rfl⟩
    exact ⟨hp, s, hs, hq⟩
  · rintro ⟨hp, s, hs, hq⟩
    exact ⟨p, hp, x, s, hs, q, hq, rfl, rfl, rfl⟩

/-- **The list is in order.** -/
theorem transitionList_pairwise (hstates : n.states.Nodup) :
    n.transitionList.Pairwise n.ListedBefore := by
  rw [transitionList_eq, List.pairwise_flatMap]
  constructor
  · intro p _
    rw [List.pairwise_flatMap]
    constructor
    · intro e _
      -- one state and symbol: the targets are sorted by name
      rw [List.pairwise_map]
      exact e.2.sorted.imp fun hlt =>
        Or.inr ⟨rfl, Or.inr ⟨rfl, compareOfLessAndEq_eq_lt.1 hlt⟩⟩
    · -- one state: its row is sorted by symbol
      refine (n.visibleRow p).sorted.imp fun hlt e he f hf => ?_
      obtain ⟨_, _, rfl⟩ := List.mem_map.1 he
      obtain ⟨_, _, rfl⟩ := List.mem_map.1 hf
      exact Or.inr ⟨rfl, Or.inl (Symbol.before_iff.2 hlt)⟩
  · -- different states: their rows come in the order of declaration
    refine (pairwise_idxOf hstates).imp fun hlt e he f hf => Or.inl ?_
    obtain ⟨_, _, he⟩ := List.mem_flatMap.1 he
    obtain ⟨_, _, hf⟩ := List.mem_flatMap.1 hf
    obtain ⟨_, _, rfl⟩ := List.mem_map.1 he
    obtain ⟨_, _, rfl⟩ := List.mem_map.1 hf
    exact hlt

theorem addEntries_tidy {table : Table} (h : TableTidy table) : TableTidy (addEntries table l) :=
  List.foldlRecOn _ _ h fun _ ht _ _ => addEntry_tidy ht

variable (h : n.WellFormed)

include h

/-- A state that is not declared has no targets. -/
theorem WellFormed.mem_transitionList : ⟨p, x, q⟩ ∈ n.transitionList ↔ q ∈ n.targets p x :=
  NFA.mem_transitionList.trans
    (and_iff_right_of_imp fun hq => (h.of_listed (mem_targets.1 hq).2).1)

/-- **The automaton comes with the same moves from adding what is listed, in any order.** -/
theorem addAll_of_perm_transitionList (hl : l.Perm n.transitionList) :
    ∃ m, (declare n.states n.alphabet n.initial n.accepting.toList >>= (·.addAll l)) = .ok m
      ∧ n.SameMoves m ∧ (n.usesEpsilon = true → m = n.tidy) := by
  have hlisted : ∀ p x q, ⟨p, x, q⟩ ∈ l ↔ q ∈ n.targets p x :=
    fun p x q => hl.mem_iff.trans h.mem_transitionList
  -- a new automaton has empty moves turned on, so only the names could be refused
  have hadd : NFA.addAll ⟨n.toSignature, ∅, true⟩ l
      = .ok ⟨n.toSignature, addEntries ∅ l, true⟩ := by
    refine addAll_eq_ok_iff.2 ⟨?_, rfl⟩
    rintro ⟨p, x, q⟩ he
    obtain ⟨hp, hx, hq⟩ := h.of_listed (mem_targets.1 ((hlisted p x q).1 he)).2
    exact checkEdge_eq_ok_iff.2 ⟨⟨hx, enables_of_usesEpsilon rfl⟩, hp, hq⟩
  have hentries : ∀ p x q, q ∈ targetsIn (rowOf (addEntries ∅ l) p) x ↔ q ∈ n.targets p x :=
    fun p x q => mem_addEntries_empty.trans (hlisted p x q)
  refine ⟨_, bind_eq_ok_iff.2 ⟨_, declare_self h.toWellFormed, hadd⟩, ⟨rfl, fun p x => ?_⟩,
    fun hon => ?_⟩
  · ext q
    rw [mem_targets, listed_eq, hentries]
    exact and_iff_right (enables_of_usesEpsilon rfl)
  · -- both tables are tidy and have the same transitions, as none of them is turned off
    have htable : addEntries ∅ l = tidyTable n.transitions := by
      refine (addEntries_tidy tableTidy_empty).ext tidyTable_tidy fun p x q => ?_
      rw [hentries, rowOf_tidyTable, targetsIn_tidyRow, ← listed_eq, mem_targets]
      exact and_iff_right (enables_of_usesEpsilon hon)
    rw [htable, tidy, ← hon]

end

/-- Declared in an order of its own, with an empty move left over from a state that is gone. -/
def pruned : NFA where
  states := ["2", "0"]
  alphabet := ['b', 'a']
  initial := "2"
  accepting := .ofList ["0"]
  transitions := .ofList [("2", .ofList [(.epsilon, .ofList ["0"]), (.char 'a', .ofList ["0", "2"]),
      (.char 'b', .ofList ["0"])]),
    ("0", .ofList [(.epsilon, ∅), (.char 'a', .ofList ["2"])])]
  usesEpsilon := true

theorem pruned_built : pruned.Built := by
  have h : declare ["2", "1", "0"] ['b', 'a'] "2" ["0", "1"]
      = .ok
        { states := ["2", "1", "0"], alphabet := ['b', 'a'], initial := "2"
          accepting := .ofList ["0", "1"], transitions := ∅, usesEpsilon := true } := rfl
  have hback := Built.edited (e := .addTransition "0" (.char 'a') "2") (.declared h) rfl
  have hgone := Built.edited (e := .addTransition "0" .epsilon "1") hback rfl
  have hb := Built.edited (e := .addTransition "2" (.char 'b') "0") hgone rfl
  have hself := Built.edited (e := .addTransition "2" (.char 'a') "2") hb rfl
  have ha := Built.edited (e := .addTransition "2" (.char 'a') "0") hself rfl
  have hempty := Built.edited (e := .addTransition "2" .epsilon "0") ha rfl
  exact .edited (e := .removeState "1") hempty rfl

end NFA

/--
**The list of transitions determines the automaton.**

Whatever the history of a deterministic automaton, there is one entry for each state and symbol, in
the order in which these were declared. Setting what is listed in an automaton that is declared with
the same parts gives the automaton itself, in whatever order it is done.

For a nondeterministic automaton there is one entry for each target of a state on a symbol. The
entries come in the order of the states, then with the empty move before the characters, then by the
name of the target. Adding what is listed is never refused, and gives an automaton with the same
moves, so that every word ends in the same way, in whatever order it is done. While empty moves are
turned on this is the automaton itself, but for rows without targets.
-/
theorem listing_determines :
    (∀ d : DFA, d.Built →
      d.transitionList.map (fun e => (e.source, e.symbol)) = d.states ×ˢ d.alphabet.map Symbol.char
        ∧ (d.transitionList.map fun e => (e.source, e.symbol)).Nodup
        ∧ ∀ l : List (Transition Symbol), l.Perm d.transitionList →
          ∃ moves : List (Transition Char), moves.map Transition.onChar = l
            ∧ (DFA.declare d.states d.alphabet d.initial d.accepting.toList >>= (·.setAll moves))
              = .ok d)
      ∧ ∀ n : NFA, n.Built →
        (∀ p x q, ⟨p, x, q⟩ ∈ n.transitionList ↔ q ∈ n.targets p x)
          ∧ n.transitionList.Nodup
          ∧ n.transitionList.Pairwise n.ListedBefore
          ∧ ∀ l : List (Transition Symbol), l.Perm n.transitionList →
            ∃ m, (NFA.declare n.states n.alphabet n.initial n.accepting.toList >>= (·.addAll l))
                = .ok m
              ∧ (∀ p x, m.targets p x = n.targets p x)
              ∧ (∀ word, m.process word = n.process word)
              ∧ (n.usesEpsilon = true → m = n.tidy) := by
  constructor
  · intro d hd
    have h := DFA.built_wellFormed hd
    exact ⟨DFA.sources_transitionList h, DFA.nodup_sources_transitionList h,
      fun l hl => DFA.setAll_of_perm_transitionList h hl⟩
  · intro n hn
    have h := NFA.built_wellFormed hn
    have hordered := NFA.transitionList_pairwise h.states
    refine ⟨fun p x q => h.mem_transitionList, hordered.imp NFA.ListedBefore.ne, hordered,
      fun l hl => ?_⟩
    obtain ⟨m, hadd, hsame, htidy⟩ := NFA.addAll_of_perm_transitionList h hl
    exact ⟨m, hadd, hsame.targets, hsame.process, htidy⟩

theorem listing_determines_regrown_pruned :
    DFA.regrown.Built
      ∧ (DFA.declare ["1", "2"] ['a', 'b'] "1" ["2"] >>= (·.setAll
          [⟨"2", 'b', "1"⟩, ⟨"1", 'b', "1"⟩, ⟨"2", 'a', "1"⟩, ⟨"1", 'a', "2"⟩])) = .ok DFA.regrown
      ∧ NFA.pruned.Built
      ∧ NFA.pruned.transitionList = [⟨"2", .epsilon, "0"⟩, ⟨"2", .char 'a', "0"⟩,
          ⟨"2", .char 'a', "2"⟩, ⟨"2", .char 'b', "0"⟩, ⟨"0", .char 'a', "2"⟩]
      ∧ ∃ m, (NFA.declare ["2", "0"] ['b', 'a'] "2" ["0"] >>=
            (·.addAll NFA.pruned.transitionList.reverse)) = .ok m
          ∧ m ≠ NFA.pruned ∧ m = NFA.pruned.tidy ∧ m.process ['a', 'a'] = .accepted := by
  obtain ⟨hdfa, hnfa⟩ := listing_determines
  obtain ⟨-, -, hset⟩ := hdfa DFA.regrown DFA.regrown_built
  obtain ⟨-, -, -, hadd⟩ := hnfa NFA.pruned NFA.pruned_built
  obtain ⟨m, hm, -, hprocess, htidy⟩ := hadd _ (List.reverse_perm _)
  have hperm : List.Perm [⟨"2", .char 'b', "1"⟩, ⟨"1", .char 'b', "1"⟩, ⟨"2", .char 'a', "1"⟩,
      ⟨"1", .char 'a', "2"⟩] DFA.regrown.transitionList := by decide +kernel
  obtain ⟨moves, hmoves, hregrown⟩ := hset _ hperm
  obtain rfl : moves = [⟨"2", 'b', "1"⟩, ⟨"1", 'b', "1"⟩, ⟨"2", 'a', "1"⟩, ⟨"1", 'a', "2"⟩] :=
    List.map_injective_iff.2 Transition.onChar_injective hmoves
  refine ⟨DFA.regrown_built, hregrown, NFA.pruned_built, by decide +kernel, m, hm, ?_, htidy rfl,
    ?_⟩
  · rw [htidy rfl]
    decide +kernel
  · exact (hprocess _).trans (by decide +kernel)

end AutomataLab
