import AutomataLab.Transition

/-!
# Reading a word

Whatever reads a word one character at a time is an `Acceptor`: it is in a configuration, moves
to the next one or stops with an outcome, and gives a verdict when the word is used up.
`evaluate` reads a whole word at once.
-/

namespace AutomataLab

/-- How reading a word ends. -/
inductive Outcome where
  | accepted
  | endedInRejectingState (state : String)
  | endedInRejectingStates (states : StateSet)
  | invalidSymbol (symbol : Char)
  | noValidTransition (source : StateSet) (symbol : Char)
  deriving DecidableEq

namespace Outcome

/-- Whether the word was accepted. -/
def isAccepted (o : Outcome) : Bool := o = accepted

/-- State names as they are listed in a message. -/
def listing (s : StateSet) : String := ", ".intercalate s.toList

/-- The sentence that reports the outcome of reading `input`. -/
def message (input : String) : Outcome → String
  | accepted => s!"Success! Input \"{input}\" is accepted."
  | endedInRejectingState q =>
    s!"Rejected! Input \"{input}\" ends in state {q}, which is not an accepting state."
  | endedInRejectingStates s =>
    s!"Rejected! Input \"{input}\" ends in states [{listing s}], " ++
      "none of which are accepting states."
  | invalidSymbol c => s!"Error: Character '{c}' is not in the alphabet."
  | noValidTransition s c =>
    s!"Rejected! No valid transitions from states [{listing s}] on input '{c}'."

end Outcome

/-- A move: the configuration it leads to, the transitions that were taken, and the states that
were reached by empty moves alone after them. -/
structure Advance (C : Type) where
  configuration : C
  transitions : List (Transition Char)
  epsilonReached : StateSet
  deriving DecidableEq

/-- A machine of type `A` that reads words, with configurations of type `C`. -/
class Acceptor (A : Type) (C : outParam Type) where
  /-- The configuration before anything is read. -/
  initial : A → C
  /-- The states of the initial configuration that are there by empty moves alone. -/
  initialEpsilonReached : A → StateSet
  /-- Read one character, or stop. -/
  advance : A → C → Char → Except Outcome (Advance C)
  /-- What it means that the word ends here. -/
  verdict : A → C → Outcome

namespace Acceptor

variable {A C : Type} [Acceptor A C]

/-- Read a word from a configuration on. -/
def evaluateFrom (a : A) (c : C) : List Char → Outcome
  | [] => verdict a c
  | x :: rest =>
    match advance a c x with
    | .ok step => evaluateFrom a step.configuration rest
    | .error outcome => outcome

/-- Read a word from the start. -/
def evaluate (a : A) (word : List Char) : Outcome := evaluateFrom a (initial a) word

end Acceptor

end AutomataLab
