import AutomataLab.Transition
import AutomataLab.Automaton.Error

/-!
# The declared part of an automaton

States, alphabet, initial state and accepting states are the same for every kind of automaton,
and so are the rules on declaring and editing them. States and symbols keep the order in which
they were declared; the first state is the default wherever a state is needed and none is given.
-/

namespace AutomataLab

/-- States, alphabet, initial state and accepting states. -/
structure Signature where
  states : List String
  alphabet : List Char
  initial : String
  accepting : StateSet
  deriving DecidableEq

namespace Signature

/-! ## A declaration is checked one name at a time -/

/-- A new state has a name that is not empty and not taken. -/
def checkNewState (states : List String) (q : String) : Except AutomatonError Unit :=
  if q = "" then .error (.malformed .emptyStateName)
  else if q ∈ states then .error (.duplicateState q)
  else .ok ()

/-- A new symbol is neither the sign of the empty move nor taken. -/
def checkNewSymbol (alphabet : List Char) (c : Char) : Except AutomatonError Unit :=
  if c = epsilonSign then .error .reservedSymbol
  else if c ∈ alphabet then .error (.duplicateSymbol c)
  else .ok ()

/-- Every state of a list is new after those before it. -/
def checkStates (earlier : List String) : List String → Except AutomatonError Unit
  | [] => .ok ()
  | q :: rest => do
    checkNewState earlier q
    checkStates (q :: earlier) rest

/-- Every symbol of a list is new after those before it. -/
def checkAlphabet (earlier : List Char) : List Char → Except AutomatonError Unit
  | [] => .ok ()
  | c :: rest => do
    checkNewSymbol earlier c
    checkAlphabet (c :: earlier) rest

/-- A state that is referred to has been declared. -/
def checkState (g : Signature) (q : String) : Except AutomatonError Unit :=
  if q ∈ g.states then .ok () else .error (.unknownState q)

/-- A symbol that is referred to is in the alphabet. -/
def checkSymbol (g : Signature) (c : Char) : Except AutomatonError Unit :=
  if c ∈ g.alphabet then .ok () else .error (.invalidSymbol c)

/-- There is a state, names are distinct, and initial and accepting states are declared. -/
def check (g : Signature) : Except AutomatonError Unit := do
  if g.states = [] then .error (.malformed .noState)
  checkStates [] g.states
  checkAlphabet [] g.alphabet
  g.checkState g.initial
  g.accepting.toList.forM g.checkState

/-- The signature with the given parts, if it passes the checks. -/
def declare (states : List String) (alphabet : List Char) (initial : String)
    (accepting : List String) : Except AutomatonError Signature := do
  let g : Signature := ⟨states, alphabet, initial, .ofList accepting⟩
  g.check
  return g

/-! ## Questions -/

/-- The first declared state. -/
def defaultState (g : Signature) : String := g.states.headD ""

/-- Whether a state is declared. -/
def hasState (g : Signature) (q : String) : Bool := q ∈ g.states

/-- Whether a symbol is declared. -/
def hasSymbol (g : Signature) (c : Char) : Bool := c ∈ g.alphabet

/-- Whether a state is accepting. -/
def isAccepting (g : Signature) (q : String) : Bool := q ∈ g.accepting

/-- Whether some state of the set is accepting. -/
def areAccepting (g : Signature) (s : StateSet) : Bool := s.toList.any g.isAccepting

/-! ## Edits -/

/-- Declare one more state, after the others. -/
def addState (g : Signature) (q : String) : Except AutomatonError Signature := do
  checkNewState g.states q
  return { g with states := g.states ++ [q] }

/-- Forget a state. The first of the others becomes initial if this one was. -/
def removeState (g : Signature) (q : String) : Except AutomatonError Signature := do
  g.checkState q
  if g.states.length = 1 then .error (.malformed .onlyState)
  let states := g.states.filter (· ≠ q)
  return { g with
    states := states
    accepting := g.accepting.erase q
    initial := if g.initial = q then states.headD "" else g.initial }

/-- Declare one more symbol, after the others. -/
def addSymbol (g : Signature) (c : Char) : Except AutomatonError Signature := do
  checkNewSymbol g.alphabet c
  return { g with alphabet := g.alphabet ++ [c] }

/-- Forget a symbol. -/
def removeSymbol (g : Signature) (c : Char) : Except AutomatonError Signature := do
  g.checkSymbol c
  return { g with alphabet := g.alphabet.filter (· ≠ c) }

/-- Start from another state. -/
def setInitial (g : Signature) (q : String) : Except AutomatonError Signature := do
  g.checkState q
  return { g with initial := q }

/-- Accept in a state that was rejecting, and the other way round. -/
def toggleAccepting (g : Signature) (q : String) : Except AutomatonError Signature := do
  g.checkState q
  return { g with
    accepting := if q ∈ g.accepting then g.accepting.erase q else g.accepting.insert q }

end Signature

end AutomataLab
