import AutomataLab.Proofs.Automaton.Closure
import AutomataLab.Proofs.Translation

/-!
# Automata with the same moves

A table may keep the same transitions in more than one way, and empty moves may be kept that are
turned off. Reading a word sees neither: it asks for nothing but the targets of a state on a symbol,
as far as they can be taken. So of two automata with the same targets each can stand in for the
other (`SameMoves.translates`).
-/

namespace AutomataLab.NFA

/-- The same names are declared, and each state has the same targets. -/
structure SameMoves (n m : NFA) : Prop where
  /-- What is declared is the same. -/
  signature : m.toSignature = n.toSignature
  /-- So is what can be taken, on characters and on the empty move. -/
  targets : ∀ p x, m.targets p x = n.targets p x

section

variable {n m : NFA} (h : n.SameMoves m)

include h

theorem SameMoves.closure (s : StateSet) : m.closure s = n.closure s :=
  closure_congr (fun p => h.targets p .epsilon) s

theorem SameMoves.firing (s : StateSet) (c : Char) : m.firing s c = n.firing s c :=
  List.flatMap_congr fun p _ =>
    congrArg (fun t : StateSet => t.toList.map fun q => Transition.mk p c q) (h.targets p (.char c))

theorem SameMoves.next (s : StateSet) (c : Char) : m.next s c = n.next s c := by
  rw [NFA.next, NFA.next, h.signature, h.firing]
  simp only [h.closure]

/-- **Of automata with the same moves each stands in for the other.** -/
theorem SameMoves.translates : Acceptor.Translates n m id id where
  initial := by
    change m.closure {m.initial} = n.closure {n.initial}
    rw [h.closure, h.signature]
  initialEpsilonReached := by
    change (m.closure {m.initial}).erase m.initial = (n.closure {n.initial}).erase n.initial
    rw [h.closure, h.signature]
  advance := fun s c => by
    have hadvance : Acceptor.advance m s c = Acceptor.advance n s c := by
      simp only [Acceptor.advance, h.next]
    rw [id, hadvance]
    cases Acceptor.advance n s c <;> rfl
  verdict := fun s => by
    change (if m.areAccepting s then Outcome.accepted else .endedInRejectingStates s)
      = if n.areAccepting s then .accepted else .endedInRejectingStates s
    rw [h.signature]

theorem SameMoves.process (w : List Char) : m.process w = n.process w :=
  h.translates.evaluate_eq w

end

/-- Without empty moves a closure adds nothing. -/
theorem closure_eq_self {n : NFA} (h : ∀ p, n.targets p .epsilon = ∅) (s : StateSet) :
    n.closure s = s := by
  have hnone : ∀ p q, ¬n.EmptyMove p q := fun p q hpq =>
    SortedSet.not_mem_empty q (h p ▸ hpq)
  ext q
  exact ⟨closure_least (fun _ hp => hp) fun p _ q hpq => absurd hpq (hnone p q), subset_closure⟩

end AutomataLab.NFA
