import AutomataLab.Acceptor
import AutomataLab.Sorted.Map
import AutomataLab.Automaton.Signature

/-!
# Deterministic automata

The transition table is total: it sends every declared state and every symbol of the alphabet to
one state. Entries that nobody gave lead to the first declared state, and so do entries whose
target is removed.
-/

namespace AutomataLab

/-- The moves from one state: a target for each symbol. -/
abbrev DFA.Row := SortedMap Char String

/-- The moves from every state. -/
abbrev DFA.Table := SortedMap String DFA.Row

/-- A deterministic finite automaton. -/
structure DFA extends Signature where
  transitions : DFA.Table
  deriving DecidableEq

namespace DFA

/-! ## Missing entries lead to the default state -/

/-- Give each symbol without a target the target `q`. -/
def fillRow (alphabet : List Char) (q : String) (row : Row) : Row :=
  alphabet.foldl (fun row c => row.update c (·.getD q)) row

/-- Give each declared state a full row. -/
def fill (g : Signature) (table : Table) : Table :=
  g.states.foldl
    (fun table q => table.update q fun row => fillRow g.alphabet g.defaultState (row.getD ∅)) table

/-- The automaton in which every move leads to the first state. -/
def declare (states : List String) (alphabet : List Char) (initial : String)
    (accepting : List String) : Except AutomatonError DFA := do
  let g ← Signature.declare states alphabet initial accepting
  return ⟨g, fill g ∅⟩

/-! ## Moves -/

/-- The target of a state and a symbol, where the table has one. -/
def target? (d : DFA) (q : String) (c : Char) : Option String :=
  (d.transitions.get? q).bind (·.get? c)

/-- The state after `q` on `c`. -/
def next (d : DFA) (q : String) (c : Char) : Except AutomatonError String := do
  d.checkSymbol c
  match d.target? q c with
  | some r => .ok r
  | none => .error (.unknownState q)

/-- All transitions, by state and then symbol, both in the order of declaration. -/
def transitionList (d : DFA) : List (Transition Symbol) :=
  d.states.flatMap fun q =>
    d.alphabet.filterMap fun c => (d.target? q c).map fun r => ⟨q, .char c, r⟩

/-! ## Edits -/

/-- Declare one more state; all moves from it lead to the first state. -/
def addState (d : DFA) (q : String) : Except AutomatonError DFA := do
  let g ← d.toSignature.addState q
  return ⟨g, fill g d.transitions⟩

/-- Forget a state. Transitions into it lead to the first of the others from now on. -/
def removeState (d : DFA) (q : String) : Except AutomatonError DFA := do
  let g ← d.toSignature.removeState q
  let redirect (r : String) : String := if r = q then g.defaultState else r
  return ⟨g, (d.transitions.erase q).map fun _ row => row.map fun _ r => redirect r⟩

/-- Declare one more symbol; all moves on it lead to the first state. -/
def addSymbol (d : DFA) (c : Char) : Except AutomatonError DFA := do
  let g ← d.toSignature.addSymbol c
  return ⟨g, fill g d.transitions⟩

/-- Forget a symbol and all transitions on it. -/
def removeSymbol (d : DFA) (c : Char) : Except AutomatonError DFA := do
  let g ← d.toSignature.removeSymbol c
  return ⟨g, d.transitions.map fun _ row => row.erase c⟩

/-- Start from another state. -/
def setInitial (d : DFA) (q : String) : Except AutomatonError DFA := do
  return { d with toSignature := ← d.toSignature.setInitial q }

/-- Accept in a state that was rejecting, and the other way round. -/
def toggleAccepting (d : DFA) (q : String) : Except AutomatonError DFA := do
  return { d with toSignature := ← d.toSignature.toggleAccepting q }

/-- The table with one entry replaced. -/
def setEntry (table : Table) (p : String) (c : Char) (q : String) : Table :=
  table.update p fun row => (row.getD ∅).insert c q

/-- Lead from `p` to `q` on `c`. -/
def setTransition (d : DFA) (p : String) (c : Char) (q : String) : Except AutomatonError DFA := do
  d.checkSymbol c
  d.checkState p
  d.checkState q
  return { d with transitions := setEntry d.transitions p c q }

/-! ## Reading words -/

/-- A configuration is the current state. -/
instance : Acceptor DFA String where
  initial d := d.initial
  initialEpsilonReached _ := ∅
  advance d q c :=
    match d.next q c with
    | .ok r => .ok ⟨r, [⟨q, c, r⟩], ∅⟩
    | .error (.invalidSymbol c) => .error (.invalidSymbol c)
    -- a state that is not declared has no moves
    | .error _ => .error (.noValidTransition {q} c)
  verdict d q := if d.isAccepting q then .accepted else .endedInRejectingState q

/-- How reading a word ends. -/
def process (d : DFA) (word : List Char) : Outcome := Acceptor.evaluate d word

end DFA

end AutomataLab
