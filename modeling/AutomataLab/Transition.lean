import AutomataLab.Sorted.Set
import AutomataLab.Symbol

/-!
# Transitions

A transition leads from a state to a state on a symbol. The symbol is a `Symbol` where an
automaton is described and a character where one of its moves is reported.
-/

namespace AutomataLab

/-- A set of states, by name. -/
abbrev StateSet := SortedSet String

/-- A move from one state to another. -/
structure Transition (σ : Type) where
  source : String
  symbol : σ
  target : String
  deriving DecidableEq

end AutomataLab
