import AutomataLab.Automaton.DFA
import AutomataLab.Automaton.NFA

/-!
# Descriptions of automata

What a file tells about an automaton, before any of it is checked: the declared names, the given
transitions, and an initial state that may be left open. A description is turned into an
automaton if every name in it is declared.
-/

namespace AutomataLab

/-- Declared names and given transitions, the latter of type `τ`. -/
structure Description (τ : Type) where
  states : List String
  alphabet : List Char
  transitions : τ
  initial : Option String
  accepting : List String

/-- The initial state that is meant: the first one declared if none is given by name. -/
def Description.initialState {τ : Type} (e : Description τ) : String :=
  match e.initial with
  | some q => if q = "" then e.states.headD "" else q
  | none => e.states.headD ""

namespace DFA

/-- Describes a deterministic automaton; entries may be missing. -/
abbrev Description := AutomataLab.Description Table

/-- Enter one given transition, whose symbol and target have to be declared. -/
def enter (g : Signature) (p : String) (table : Table) (e : Char × String) :
    Except AutomatonError Table := do
  g.checkSymbol e.1
  g.checkState e.2
  return setEntry table p e.1 e.2

/-- Enter a given row, whose state has to be declared even if the row is empty. -/
def enterRow (g : Signature) (table : Table) (e : String × Row) : Except AutomatonError Table := do
  g.checkState e.1
  e.2.entries.foldlM (enter g e.1) table

/-- The automaton that is described. Entries that are not given lead to the first state. -/
def ofDescription (e : Description) : Except AutomatonError DFA := do
  let d ← declare e.states e.alphabet e.initialState e.accepting
  let table ← e.transitions.entries.foldlM (enterRow d.toSignature) d.transitions
  return { d with transitions := table }

end DFA

namespace NFA

/-- The given targets of each state and symbol, possibly with repetitions. -/
abbrev Listing := SortedMap String (SortedMap Symbol (List String))

/-- Describes a nondeterministic automaton. -/
structure Description extends AutomataLab.Description Listing where
  epsilonSign : Option Char
  usesEpsilon : Bool

/-- The sign of the empty move can be given but not chosen. -/
def checkEpsilonSign : Option Char → Except AutomatonError Unit
  | none => .ok ()
  | some c => if c = epsilonSign then .ok () else .error (.malformed (.foreignEpsilon c))

/-- Enter given targets of one state and symbol. -/
def enterTargets (p : String) (n : NFA) (e : Symbol × List String) : Except AutomatonError NFA :=
  e.2.foldlM (fun n q => n.addTransition p e.1 q) n

/-- Enter the given targets of one state. -/
def enterRow (n : NFA) (e : String × SortedMap Symbol (List String)) : Except AutomatonError NFA :=
  e.2.entries.foldlM (enterTargets e.1) n

/-- The automaton that is described. Empty moves are entered even if they are turned off. -/
def ofDescription (e : Description) : Except AutomatonError NFA := do
  checkEpsilonSign e.epsilonSign
  let n ← declare e.states e.alphabet e.initialState e.accepting
  let n ← e.transitions.entries.foldlM enterRow n
  return n.setUsesEpsilon e.usesEpsilon

end NFA

end AutomataLab
