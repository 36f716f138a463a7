import AutomataLab.Acceptor
import AutomataLab.Saturation
import AutomataLab.Sorted.Map
import AutomataLab.Automaton.Signature

/-!
# Nondeterministic automata

A state has any number of targets on a symbol, and may have targets on the empty move. A switch
turns all empty moves off; they stay listed while it is off and are back when it is on again.
-/

namespace AutomataLab

/-- The moves from one state: the targets of each symbol. -/
abbrev NFA.Row := SortedMap Symbol StateSet

/-- The moves from every state. -/
abbrev NFA.Table := SortedMap String NFA.Row

/-- A nondeterministic finite automaton with empty moves. -/
structure NFA extends Signature where
  transitions : NFA.Table
  usesEpsilon : Bool
  deriving DecidableEq

namespace NFA

/-- The automaton without transitions. -/
def declare (states : List String) (alphabet : List Char) (initial : String)
    (accepting : List String) : Except AutomatonError NFA := do
  let g ← Signature.declare states alphabet initial accepting
  return ⟨g, ∅, true⟩

/-! ## Moves -/

/-- Whether transitions on a symbol can be taken at all. -/
def enables (n : NFA) : Symbol → Bool
  | .epsilon => n.usesEpsilon
  | .char _ => true

/-- The targets listed for a state and a symbol, whether enabled or not. -/
def listed (n : NFA) (q : String) (x : Symbol) : StateSet :=
  ((n.transitions.get? q).bind (·.get? x)).getD ∅

/-- The targets that can be reached from a state on a symbol. -/
def targets (n : NFA) (q : String) (x : Symbol) : StateSet :=
  if n.enables x then n.listed q x else ∅

/-- All transitions that can be taken: by state in the order of declaration, then by symbol with
the empty move first, then by target. -/
def transitionList (n : NFA) : List (Transition Symbol) :=
  n.states.flatMap fun p =>
    ((n.transitions.get? p).getD ∅).entries.flatMap fun e =>
      if n.enables e.1 then e.2.toList.map fun q => ⟨p, e.1, q⟩ else []

/-! ## The empty-move closure -/

/-- Add the targets of one empty move from each member. -/
def epsilonPass (n : NFA) (s : StateSet) : StateSet :=
  s.toList.foldl (fun t q => t ∪ n.listed q .epsilon) s

/-- Every state that some empty move leads to. -/
def epsilonTargets (n : NFA) : List String :=
  n.transitions.values.flatMap fun row => ((row.get? .epsilon).getD ∅).toList

/-- The states that can be reached from the set by empty moves. -/
def closure (n : NFA) (s : StateSet) : StateSet :=
  if n.usesEpsilon then
    saturate n.epsilonPass (fun t => n.epsilonTargets.countP (· ∉ t)) s
  else s

/-- The transitions on `c` from the members of a set, by source and then target. -/
def firing (n : NFA) (s : StateSet) (c : Char) : List (Transition Char) :=
  s.toList.flatMap fun p => (n.listed p (.char c)).toList.map fun q => ⟨p, c, q⟩

/-- Read `c` in every state of a set, then follow empty moves. -/
def next (n : NFA) (s : StateSet) (c : Char) : Except AutomatonError (Advance StateSet) := do
  n.checkSymbol c
  let fired := n.firing s c
  let direct := SortedSet.ofList (fired.map (·.target))
  let reached := n.closure direct
  return ⟨reached, fired, reached \ direct⟩

/-! ## Edits -/

/-- Declare one more state, without transitions. -/
def addState (n : NFA) (q : String) : Except AutomatonError NFA := do
  return { n with toSignature := ← n.toSignature.addState q }

/-- Forget a state and all transitions from it and into it. -/
def removeState (n : NFA) (q : String) : Except AutomatonError NFA := do
  let g ← n.toSignature.removeState q
  return { n with
    toSignature := g
    transitions := (n.transitions.erase q).map fun _ row => row.map fun _ s => s.erase q }

/-- Declare one more symbol, without transitions. -/
def addSymbol (n : NFA) (c : Char) : Except AutomatonError NFA := do
  return { n with toSignature := ← n.toSignature.addSymbol c }

/-- Forget a symbol and all transitions on it. -/
def removeSymbol (n : NFA) (c : Char) : Except AutomatonError NFA := do
  let g ← n.toSignature.removeSymbol c
  return { n with
    toSignature := g
    transitions := n.transitions.map fun _ row => row.erase (.char c) }

/-- Start from another state. -/
def setInitial (n : NFA) (q : String) : Except AutomatonError NFA := do
  return { n with toSignature := ← n.toSignature.setInitial q }

/-- Accept in a state that was rejecting, and the other way round. -/
def toggleAccepting (n : NFA) (q : String) : Except AutomatonError NFA := do
  return { n with toSignature := ← n.toSignature.toggleAccepting q }

/-- A transition can be edited if its symbol is enabled and its parts are declared. -/
def checkEdge (n : NFA) (p : String) (x : Symbol) (q : String) : Except AutomatonError Unit := do
  match x with
  | .epsilon => if !n.usesEpsilon then .error .epsilonDisabled
  | .char c => n.checkSymbol c
  n.checkState p
  n.checkState q

/-- The table with one more transition. -/
def addEntry (table : Table) (p : String) (x : Symbol) (q : String) : Table :=
  table.update p fun row => (row.getD ∅).update x fun s => (s.getD ∅).insert q

/-- Lead from `p` to `q` on `x`, besides wherever else `x` leads. -/
def addTransition (n : NFA) (p : String) (x : Symbol) (q : String) : Except AutomatonError NFA := do
  n.checkEdge p x q
  return { n with transitions := addEntry n.transitions p x q }

/-- A row without one target. A symbol whose last target goes leaves the row; one that is not in
the row changes nothing. -/
def removeTarget (row : Row) (x : Symbol) (q : String) : Row :=
  match row.get? x with
  | none => row
  | some s => if (s.erase q).isEmpty then row.erase x else row.insert x (s.erase q)

/-- Lead from `p` to `q` on `x` no more, if it did. -/
def removeTransition (n : NFA) (p : String) (x : Symbol) (q : String) :
    Except AutomatonError NFA := do
  n.checkEdge p x q
  return { n with
    transitions := n.transitions.map fun a row => if a = p then removeTarget row x q else row }

/-- Turn all empty moves on or off. -/
def setUsesEpsilon (n : NFA) (on : Bool) : NFA := { n with usesEpsilon := on }

/-! ## Reading words -/

/-- A configuration is the set of states that the automaton may be in. -/
instance : Acceptor NFA StateSet where
  initial n := n.closure {n.initial}
  initialEpsilonReached n := (n.closure {n.initial}).erase n.initial
  advance n s c :=
    match n.next s c with
    | .error _ => .error (.invalidSymbol c)
    -- a move that leads nowhere is no move
    | .ok step => if step.configuration.isEmpty then .error (.noValidTransition s c) else .ok step
  verdict n s := if n.areAccepting s then .accepted else .endedInRejectingStates s

/-- How reading a word ends. -/
def process (n : NFA) (word : List Char) : Outcome := Acceptor.evaluate n word

end NFA

end AutomataLab
