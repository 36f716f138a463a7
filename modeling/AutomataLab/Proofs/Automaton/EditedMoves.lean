import AutomataLab.Proofs.Automaton.Closure
import AutomataLab.Proofs.Automaton.Edits

/-!
# Moves after a change

What a change of the declarations does to the moves of an automaton, state by state and symbol by
symbol. Of a nondeterministic automaton this is what it does to the listed targets
(`NFA.listed_edit`). Of a deterministic one it also matters that filling gives a move where there was
none, and that no other move is touched by it (`DFA.entryAt_fill`).

Reading asks for nothing else. So where the moves are the same, what an automaton does with a
character is the same (`DFA.advance_congr`, `NFA.advance_congr`).
-/

namespace AutomataLab

/-! ## What is declared -/

namespace Signature

variable {g g' : Signature} {q : String} {c : Char}

theorem exists_removeState (hq : q ∈ g.states) (hlength : g.states.length ≠ 1) :
    ∃ g', g.removeState q = .ok g' :=
  ⟨_, removeState_eq_ok_iff.2 ⟨hq, hlength, rfl⟩⟩

/-- A state that is not the initial one is not the only one. -/
theorem exists_removeState_of_ne (hinitial : g.initial ∈ g.states) (hq : q ∈ g.states)
    (hne : g.initial ≠ q) : ∃ g', g.removeState q = .ok g' := by
  refine exists_removeState hq fun hlength => ?_
  -- the only state would be the initial one and `q` at once
  obtain ⟨p, hp⟩ := List.length_eq_one_iff.1 hlength
  rw [hp, List.mem_singleton] at hinitial hq
  exact hne (hinitial.trans hq.symm)

/-- The first of the other states takes the place of a removed one. -/
theorem head?_removeState (h : g.WellFormed) (he : g.removeState q = .ok g') :
    (g.states.filter (· ≠ q)).head? = some g'.defaultState := by
  have hfirst := (removeState_wellFormed h he).head?_states
  obtain ⟨-, -, rfl⟩ := removeState_eq_ok_iff.1 he
  exact hfirst

theorem initial_removeState (he : g.removeState q = .ok g') :
    g'.initial = if g.initial = q then g'.defaultState else g.initial := by
  obtain ⟨-, -, rfl⟩ := removeState_eq_ok_iff.1 he
  rfl

theorem alphabet_removeState (he : g.removeState q = .ok g') : g'.alphabet = g.alphabet := by
  obtain ⟨-, -, rfl⟩ := removeState_eq_ok_iff.1 he
  rfl

theorem not_mem_removeState (he : g.removeState q = .ok g') : q ∉ g'.states := by
  obtain ⟨-, -, rfl⟩ := removeState_eq_ok_iff.1 he
  simp

theorem isAccepting_removeState (he : g.removeState q = .ok g') {p : String} (hp : p ≠ q) :
    g'.isAccepting p = g.isAccepting p := by
  obtain ⟨-, -, rfl⟩ := removeState_eq_ok_iff.1 he
  simp [isAccepting, hp]

theorem areAccepting_congr {s : StateSet} (h : ∀ p ∈ s, g'.isAccepting p = g.isAccepting p) :
    g'.areAccepting s = g.areAccepting s := by
  rw [Bool.eq_iff_iff, areAccepting, areAccepting, List.any_eq_true, List.any_eq_true]
  exact exists_congr fun p => and_congr_right fun hp => by rw [h p hp]

theorem filter_concat_self {α : Type} [DecidableEq α] {l : List α} {a : α} (h : a ∉ l) :
    (l ++ [a]).filter (· ≠ a) = l := by
  have hself : l.filter (· ≠ a) = l :=
    List.filter_eq_self.2 fun b hb => by simpa using ne_of_mem_of_not_mem hb h
  rw [List.filter_append, hself]
  simp

/-- **A state that has just been declared can be forgotten without a trace.** -/
theorem removeState_addState (h : g.WellFormed) (he : g.addState q = .ok g') :
    g'.removeState q = .ok g := by
  obtain ⟨⟨-, hnew⟩, rfl⟩ := addState_eq_ok_iff.1 he
  refine removeState_eq_ok_iff.2 ⟨by simp, by simpa using h.nonempty, ?_⟩
  -- what has just been declared is neither accepting nor the initial state
  have haccepting : g.accepting.erase q = g.accepting :=
    SortedSet.erase_eq_self fun hq => hnew (h.accepting q hq)
  have hinitial : g.initial ≠ q := ne_of_mem_of_not_mem h.initial hnew
  simp only [filter_concat_self hnew, haccepting, if_neg hinitial]

/-- A symbol that has just been declared can be forgotten without a trace. -/
theorem removeSymbol_addSymbol (he : g.addSymbol c = .ok g') : g'.removeSymbol c = .ok g := by
  obtain ⟨⟨-, hnew⟩, rfl⟩ := addSymbol_eq_ok_iff.1 he
  refine removeSymbol_eq_ok_iff.2 ⟨by simp, ?_⟩
  simp only [filter_concat_self hnew]

end Signature

/-! ## Deterministic automata -/

namespace DFA

section

variable {g : Signature} {table : Table} {p : String} {c : Char}

theorem entryAt_eq : entryAt table p c = ((table.get? p).getD ∅).get? c := by
  rw [entryAt]
  cases table.get? p <;> rfl

/-- **Filling gives a move where there is none, and leaves the others as they are.** -/
theorem entryAt_fill : entryAt (fill g table) p c
    = if p ∈ g.states ∧ c ∈ g.alphabet then some ((entryAt table p c).getD g.defaultState)
      else entryAt table p c := by
  rw [entryAt, get?_fill]
  by_cases hp : p ∈ g.states
  · -- a declared state has a row afterwards, which is its former one filled up
    rw [if_pos hp, Option.bind_some, get?_fillRow, ← entryAt_eq]
    simp only [hp, true_and]
  · rw [if_neg hp, if_neg fun h => hp h.1, entryAt]

end

section

variable {d d' : DFA} {p q : String} {c a : Char}

/-- Well-formed automata with the same declarations and the same moves are equal. -/
theorem WellFormed.ext (h : d.WellFormed) (h' : d'.WellFormed)
    (hsignature : d'.toSignature = d.toSignature)
    (htarget : ∀ p c q, d.target? p c = some q → d'.target? p c = some q) : d' = d := by
  obtain ⟨g, table⟩ := d
  obtain ⟨g', table'⟩ := d'
  obtain rfl : g' = g := hsignature
  exact congrArg _ (h.transitions.ext h'.transitions htarget).symm

/-- Declaring a state changes no move of the other states. -/
theorem target?_addState (h : d.WellFormed) (he : d.addState q = .ok d') (hp : p ∈ d.states) :
    d'.target? p c = d.target? p c := by
  obtain ⟨g, hg, rfl⟩ := bind_pure_eq_ok_iff.1 he
  obtain ⟨-, rfl⟩ := Signature.addState_eq_ok_iff.1 hg
  refine entryAt_fill.trans ?_
  split
  · next hdeclared =>
    -- the table was full, so filling finds a move here already
    obtain ⟨r, hr⟩ := h.exists_target? hp hdeclared.2
    have hentry : entryAt d.transitions p c = some r := hr
    rw [hentry, hr]
    rfl
  · rfl

/-- Declaring a symbol changes no move on the other symbols. -/
theorem target?_addSymbol (h : d.WellFormed) (he : d.addSymbol a = .ok d') (hc : c ≠ a) :
    d'.target? p c = d.target? p c := by
  obtain ⟨g, hg, rfl⟩ := bind_pure_eq_ok_iff.1 he
  obtain ⟨-, rfl⟩ := Signature.addSymbol_eq_ok_iff.1 hg
  refine entryAt_fill.trans ?_
  split
  · next hdeclared =>
    -- the symbol was declared before, and the table was full
    have hmem : c ∈ d.alphabet := by simpa [hc] using hdeclared.2
    obtain ⟨r, hr⟩ := h.exists_target? hdeclared.1 hmem
    have hentry : entryAt d.transitions p c = some r := hr
    rw [hentry, hr]
    rfl
  · rfl

theorem target?_removeSymbol (he : d.removeSymbol a = .ok d') :
    d'.target? p c = if c = a then none else d.target? p c := by
  obtain ⟨g, -, rfl⟩ := bind_pure_eq_ok_iff.1 he
  rw [target?, SortedMap.get?_map, target?]
  cases d.transitions.get? p with
  | none => simp
  | some row => simp

/-- Forgetting a state leads the moves into it to the first of the others. -/
theorem target?_removeState (he : d.removeState q = .ok d') : d'.target? p c
    = if p = q then none
      else (d.target? p c).map fun r => if r = q then d'.defaultState else r := by
  obtain ⟨g, -, rfl⟩ := bind_pure_eq_ok_iff.1 he
  rw [target?, SortedMap.get?_map, SortedMap.get?_erase, target?]
  by_cases hp : p = q
  · simp [hp]
  · rw [if_neg hp, if_neg hp]
    cases d.transitions.get? p with
    | none => rfl
    | some row => simp

/-- **A move on a character is told by the target that the table has.** -/
theorem advance_congr (halphabet : c ∈ d'.alphabet ↔ c ∈ d.alphabet)
    (htarget : c ∈ d.alphabet → d'.target? p c = d.target? p c) :
    Acceptor.advance d' p c = Acceptor.advance d p c := by
  have hnext : d'.next p c = d.next p c := by
    rw [next, next, Signature.checkSymbol, Signature.checkSymbol]
    by_cases hc : c ∈ d.alphabet
    · rw [htarget hc, if_pos hc, if_pos (halphabet.2 hc)]
    · -- neither automaton looks at its table for an unknown character
      rw [if_neg hc, if_neg (mt halphabet.1 hc)]
      rfl
  simp only [Acceptor.advance, hnext]

end

end DFA

/-! ## Nondeterministic automata -/

namespace NFA

section

variable {n n' m : NFA} {e : Edit} {s : StateSet} {p q : String} {x : Symbol} {c : Char}

theorem listed_edit (he : n.edit e = .ok n') : n'.listed p x = e.retarget p x (n.listed p x) := by
  rw [edit_eq] at he
  cases hg : e.redeclare n.toSignature n.usesEpsilon with
  | error cause => exact absurd (hg ▸ he) (by simp [Except.map])
  | ok g =>
    rw [hg] at he
    obtain rfl := Except.ok.inj he
    rw [listed_eq, listed_eq, targetsIn_retable]

theorem usesEpsilon_edit (he : n.edit e = .ok n') : n'.usesEpsilon = e.switched n.usesEpsilon := by
  rw [edit_eq] at he
  cases hg : e.redeclare n.toSignature n.usesEpsilon with
  | error cause => exact absurd (hg ▸ he) (by simp [Except.map])
  | ok g =>
    rw [hg] at he
    obtain rfl := Except.ok.inj he
    rfl

/-- A change that neither turns the switch nor adds a transition does to the targets that can be
taken what it does to those that are listed. -/
theorem targets_edit (he : n.edit e = .ok n') (hswitched : e.switched n.usesEpsilon = n.usesEpsilon)
    (hempty : e.retarget p x ∅ = ∅) : n'.targets p x = e.retarget p x (n.targets p x) := by
  have henables : n'.enables x = n.enables x := by
    cases x with
    | epsilon => exact (usesEpsilon_edit he).trans hswitched
    | char c => rfl
  rw [targets, targets, henables, listed_edit he]
  cases n.enables x with
  | true => rfl
  -- an empty move that is turned off leads nowhere before and after
  | false => exact hempty.symm

/-- The targets that are left when a state is forgotten. -/
theorem targets_removeState (he : n.removeState q = .ok n') :
    n'.targets p x = if p = q then ∅ else (n.targets p x).erase q :=
  targets_edit (e := .removeState q) he rfl (by rw [Edit.retarget]; split <;> rfl)

/-- The states that the transitions on a character lead to, before empty moves are followed. -/
def direct (n : NFA) (s : StateSet) (c : Char) : StateSet :=
  .ofList ((n.firing s c).map (·.target))

theorem mem_direct : q ∈ n.direct s c ↔ ∃ p ∈ s, q ∈ n.listed p (.char c) := by
  rw [direct, SortedSet.mem_ofList, List.mem_map]
  constructor
  · rintro ⟨t, ht, rfl⟩
    obtain ⟨hp, -, hq⟩ := mem_firing.1 ht
    exact ⟨t.source, hp, hq⟩
  · rintro ⟨p, hp, hq⟩
    exact ⟨⟨p, c, q⟩, mem_firing.2 ⟨hp, rfl, hq⟩, rfl⟩

/-- A character is read if it is known and leads somewhere. -/
theorem advance_eq_ok_iff {move : Advance StateSet} : Acceptor.advance n s c = .ok move
    ↔ c ∈ n.alphabet ∧ (∃ q, q ∈ n.closure (n.direct s c))
      ∧ move = ⟨n.closure (n.direct s c), n.firing s c,
        n.closure (n.direct s c) \ n.direct s c⟩ := by
  by_cases hc : c ∈ n.alphabet
  · -- reading stops for want of a move if nothing is left after the closure
    have hsome : (∃ q, q ∈ n.closure (n.direct s c))
        ↔ ¬(n.closure (n.direct s c)).isEmpty = true := by
      rw [← SortedSet.members_eq_empty_iff]
      exact Set.nonempty_iff_ne_empty
    simp only [Acceptor.advance, next_of_mem hc]
    rw [hsome, ← direct]
    split
    · next hempty => simp [hempty]
    · next hne => simp [hne, hc, eq_comm]
  · rw [advance_of_notMem hc]
    simp [hc]

/-- **A move on a character is told by the transitions taken and the closure after them.** -/
theorem advance_congr (halphabet : c ∈ m.alphabet ↔ c ∈ n.alphabet)
    (hmoves : c ∈ n.alphabet → m.firing s c = n.firing s c
      ∧ m.closure (n.direct s c) = n.closure (n.direct s c)) :
    Acceptor.advance m s c = Acceptor.advance n s c := by
  by_cases hc : c ∈ n.alphabet
  · obtain ⟨hfiring, hclosure⟩ := hmoves hc
    have hnext : m.next s c = n.next s c := by
      rw [direct] at hclosure
      rw [next_of_mem hc, next_of_mem (halphabet.2 hc), hfiring, hclosure]
    simp only [Acceptor.advance, hnext]
  · rw [advance_of_notMem hc, advance_of_notMem (mt halphabet.1 hc)]

theorem firing_congr (h : ∀ p ∈ s, m.listed p (.char c) = n.listed p (.char c)) :
    m.firing s c = n.firing s c :=
  List.flatMap_congr fun p hp => by rw [h p hp]

end

end NFA

end AutomataLab
