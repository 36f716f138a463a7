import AutomataLab.Automaton.DFA
import AutomataLab.Automaton.NFA

/-!
# Automata of either kind
-/

namespace AutomataLab

/-- A finite automaton. -/
inductive Automaton where
  | dfa (d : DFA)
  | nfa (n : NFA)
  deriving DecidableEq

namespace Automaton

/-- The declared part. -/
def signature : Automaton → Signature
  | dfa d => d.toSignature
  | nfa n => n.toSignature

/-- The transitions that can be taken, in their listed order. -/
def transitionList : Automaton → List (Transition Symbol)
  | dfa d => d.transitionList
  | nfa n => n.transitionList

/-- How reading a word ends. -/
def process : Automaton → List Char → Outcome
  | dfa d => d.process
  | nfa n => n.process

end Automaton

end AutomataLab
