import Mathlib.Data.List.Nodup
import AutomataLab.Automaton.Signature
import AutomataLab.Proofs.Checks

/-!
# Well-formed signatures

The checks of a declaration pass exactly for the signatures that are well formed
(`check_eq_ok_iff`). Each edit is described by when it succeeds and what it then gives; from that it
follows that it gives a well-formed signature again.
-/

namespace AutomataLab.Signature

/-- There is a state, names are given once, and what is referred to is declared. -/
structure WellFormed (g : Signature) : Prop where
  /-- There is a first state, which missing moves can lead to. -/
  nonempty : g.states ≠ []
  /-- No state has the empty name. -/
  named : "" ∉ g.states
  /-- States are told apart by their names. -/
  states : g.states.Nodup
  /-- The sign of the empty move cannot be a symbol. -/
  unreserved : epsilonSign ∉ g.alphabet
  /-- A symbol is given once. -/
  alphabet : g.alphabet.Nodup
  /-- Words are read from a declared state on. -/
  initial : g.initial ∈ g.states
  /-- Only declared states accept. -/
  accepting : ∀ q ∈ g.accepting, q ∈ g.states

/-- The default state is the first of the states, of which there is one. -/
theorem WellFormed.head?_states {g : Signature} (h : g.WellFormed) :
    g.states.head? = some g.defaultState := by
  obtain ⟨p, rest, heq⟩ := List.exists_cons_of_ne_nil h.nonempty
  simp [defaultState, heq]

theorem WellFormed.defaultState_mem {g : Signature} (h : g.WellFormed) :
    g.defaultState ∈ g.states :=
  List.mem_of_mem_head? h.head?_states

theorem areAccepting_iff_exists {g : Signature} {s : StateSet} :
    g.areAccepting s = true ↔ ∃ q ∈ s, q ∈ g.accepting := by
  simp only [areAccepting, isAccepting, List.any_eq_true, decide_eq_true_eq]
  rfl

/-! ## When a check passes -/

theorem checkState_eq_ok_iff {g : Signature} {q : String} :
    g.checkState q = .ok () ↔ q ∈ g.states := by
  simp [checkState]

theorem checkSymbol_eq_ok_iff {g : Signature} {c : Char} :
    g.checkSymbol c = .ok () ↔ c ∈ g.alphabet := by
  simp [checkSymbol]

theorem checkNewState_eq_ok_iff {states : List String} {q : String} :
    checkNewState states q = .ok () ↔ q ≠ "" ∧ q ∉ states := by
  by_cases h : q = "" <;> simp [checkNewState, h]

theorem checkNewSymbol_eq_ok_iff {alphabet : List Char} {c : Char} :
    checkNewSymbol alphabet c = .ok () ↔ c ≠ epsilonSign ∧ c ∉ alphabet := by
  by_cases h : c = epsilonSign <;> simp [checkNewSymbol, h]

theorem checkStates_eq_ok_iff {earlier states : List String} :
    checkStates earlier states = .ok ()
      ↔ "" ∉ states ∧ states.Nodup ∧ ∀ q ∈ states, q ∉ earlier := by
  induction states generalizing earlier with
  | nil => simp [checkStates]
  | cons q rest ih =>
    -- the checked name counts as an earlier one for the rest
    rw [checkStates, check_bind_eq_ok_iff, checkNewState_eq_ok_iff, ih]
    grind

theorem checkAlphabet_eq_ok_iff {earlier alphabet : List Char} :
    checkAlphabet earlier alphabet = .ok ()
      ↔ epsilonSign ∉ alphabet ∧ alphabet.Nodup ∧ ∀ c ∈ alphabet, c ∉ earlier := by
  induction alphabet generalizing earlier with
  | nil => simp [checkAlphabet]
  | cons c rest ih =>
    rw [checkAlphabet, check_bind_eq_ok_iff, checkNewSymbol_eq_ok_iff, ih]
    grind

/-- **A declaration passes its checks exactly if it is well formed.** -/
theorem check_eq_ok_iff {g : Signature} : g.check = .ok () ↔ g.WellFormed := by
  rw [check, guard_eq_ok_iff]
  simp only [check_bind_eq_ok_iff, checkStates_eq_ok_iff, checkAlphabet_eq_ok_iff,
    checkState_eq_ok_iff, forM_eq_ok_iff]
  constructor
  · rintro ⟨hnonempty, ⟨hnamed, hstates, -⟩, ⟨hunreserved, halphabet, -⟩, hinitial, haccepting⟩
    exact ⟨hnonempty, hnamed, hstates, hunreserved, halphabet, hinitial, haccepting⟩
  · intro h
    exact ⟨h.nonempty, ⟨h.named, h.states, by simp⟩, ⟨h.unreserved, h.alphabet, by simp⟩,
      h.initial, h.accepting⟩

theorem declare_eq_ok_iff {states : List String} {alphabet : List Char} {initial : String}
    {accepting : List String} {g : Signature} :
    declare states alphabet initial accepting = .ok g
      ↔ g = ⟨states, alphabet, initial, .ofList accepting⟩ ∧ g.WellFormed := by
  rw [declare, check_bind_eq_ok_iff, check_eq_ok_iff, pure_eq_ok_iff, and_comm]
  exact and_congr_right fun h => by rw [h]

/-- What is well formed can be declared again. -/
theorem WellFormed.declare_self {g : Signature} (h : g.WellFormed) :
    declare g.states g.alphabet g.initial g.accepting.toList = .ok g := by
  refine declare_eq_ok_iff.2 ⟨?_, h⟩
  rw [SortedSet.ofList_toList]

/-! ## What an edit gives -/

section

variable {g g' : Signature} {q : String} {c : Char}

theorem addState_eq_ok_iff : g.addState q = .ok g'
    ↔ (q ≠ "" ∧ q ∉ g.states) ∧ g' = { g with states := g.states ++ [q] } := by
  rw [addState, check_bind_eq_ok_iff, checkNewState_eq_ok_iff, pure_eq_ok_iff]

theorem removeState_eq_ok_iff : g.removeState q = .ok g'
    ↔ q ∈ g.states ∧ g.states.length ≠ 1 ∧ g' = { g with
      states := g.states.filter (· ≠ q)
      accepting := g.accepting.erase q
      initial := if g.initial = q then (g.states.filter (· ≠ q)).headD "" else g.initial } := by
  rw [removeState, check_bind_eq_ok_iff, checkState_eq_ok_iff, guard_eq_ok_iff, pure_eq_ok_iff]

theorem addSymbol_eq_ok_iff : g.addSymbol c = .ok g'
    ↔ (c ≠ epsilonSign ∧ c ∉ g.alphabet) ∧ g' = { g with alphabet := g.alphabet ++ [c] } := by
  rw [addSymbol, check_bind_eq_ok_iff, checkNewSymbol_eq_ok_iff, pure_eq_ok_iff]

theorem removeSymbol_eq_ok_iff : g.removeSymbol c = .ok g'
    ↔ c ∈ g.alphabet ∧ g' = { g with alphabet := g.alphabet.filter (· ≠ c) } := by
  rw [removeSymbol, check_bind_eq_ok_iff, checkSymbol_eq_ok_iff, pure_eq_ok_iff]

theorem setInitial_eq_ok_iff : g.setInitial q = .ok g'
    ↔ q ∈ g.states ∧ g' = { g with initial := q } := by
  rw [setInitial, check_bind_eq_ok_iff, checkState_eq_ok_iff, pure_eq_ok_iff]

theorem toggleAccepting_eq_ok_iff : g.toggleAccepting q = .ok g'
    ↔ q ∈ g.states ∧ g' = { g with
      accepting := if q ∈ g.accepting then g.accepting.erase q else g.accepting.insert q } := by
  rw [toggleAccepting, check_bind_eq_ok_iff, checkState_eq_ok_iff, pure_eq_ok_iff]

/-! ## Edits keep signatures well formed -/

/-- A state is left when one of several is forgotten. -/
theorem filter_ne_nil (hstates : g.states.Nodup) (hq : q ∈ g.states)
    (hlength : g.states.length ≠ 1) : g.states.filter (· ≠ q) ≠ [] := by
  intro hnil
  have hall : ∀ p ∈ g.states, p = q := by simpa [List.filter_eq_nil_iff] using hnil
  -- then all states have one name, and there is only one of them
  have hreplicate := List.eq_replicate_of_mem hall
  have hle : g.states.length ≤ 1 := by
    rw [hreplicate, List.nodup_replicate] at hstates
    exact hstates
  have hpos := List.length_pos_of_mem hq
  omega

variable (h : g.WellFormed)

include h

theorem addState_wellFormed (he : g.addState q = .ok g') : g'.WellFormed := by
  obtain ⟨⟨hname, hnew⟩, rfl⟩ := addState_eq_ok_iff.1 he
  exact
    { h with
      nonempty := by simp
      named := by simpa [h.named] using hname.symm
      states := List.nodup_append_comm.1 (List.nodup_cons.2 ⟨hnew, h.states⟩)
      initial := List.mem_append_left _ h.initial
      accepting := fun p hp => List.mem_append_left _ (h.accepting p hp) }

theorem removeState_wellFormed (he : g.removeState q = .ok g') : g'.WellFormed := by
  obtain ⟨hq, hlength, rfl⟩ := removeState_eq_ok_iff.1 he
  have hne := filter_ne_nil h.states hq hlength
  exact
    { h with
      nonempty := hne
      named := fun hmem => h.named (List.mem_of_mem_filter hmem)
      states := h.states.filter _
      initial := by
        -- the first of the states that are left takes the place of a removed initial state
        split
        · obtain ⟨p, rest, heq⟩ := List.exists_cons_of_ne_nil hne
          simp only [heq, List.headD_cons]
          exact List.mem_cons_self
        · next hinitial => exact List.mem_filter.2 ⟨h.initial, by simpa using hinitial⟩
      -- the state is forgotten as an accepting one as well
      accepting := fun p hp => by
        obtain ⟨hp, hpq⟩ := SortedSet.mem_erase.1 hp
        exact List.mem_filter.2 ⟨h.accepting p hp, by simpa using hpq⟩ }

theorem addSymbol_wellFormed (he : g.addSymbol c = .ok g') : g'.WellFormed := by
  obtain ⟨⟨hsign, hnew⟩, rfl⟩ := addSymbol_eq_ok_iff.1 he
  exact
    { h with
      unreserved := by simpa [h.unreserved] using hsign.symm
      alphabet := List.nodup_append_comm.1 (List.nodup_cons.2 ⟨hnew, h.alphabet⟩) }

theorem removeSymbol_wellFormed (he : g.removeSymbol c = .ok g') : g'.WellFormed := by
  obtain ⟨-, rfl⟩ := removeSymbol_eq_ok_iff.1 he
  exact
    { h with
      unreserved := fun hmem => h.unreserved (List.mem_of_mem_filter hmem)
      alphabet := h.alphabet.filter _ }

theorem setInitial_wellFormed (he : g.setInitial q = .ok g') : g'.WellFormed := by
  obtain ⟨hq, rfl⟩ := setInitial_eq_ok_iff.1 he
  exact { h with initial := hq }

theorem toggleAccepting_wellFormed (he : g.toggleAccepting q = .ok g') : g'.WellFormed := by
  obtain ⟨hq, rfl⟩ := toggleAccepting_eq_ok_iff.1 he
  refine { h with accepting := fun p hp => ?_ }
  simp only at hp
  split at hp
  · exact h.accepting p (SortedSet.mem_erase.1 hp).1
  · rcases SortedSet.mem_insert.1 hp with rfl | hp
    · exact hq
    · exact h.accepting p hp

end

end AutomataLab.Signature
