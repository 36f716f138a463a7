import AutomataLab.Automaton.Basic
import AutomataLab.Text.Escape

/-!
# Diagrams

The diagram of an automaton has a node for each state and one edge for each pair of states that
transitions lead between, labelled with the symbols of all of them. It is drawn by Graphviz, in
whose language `Diagram.dot` writes it.
-/

namespace AutomataLab

namespace Diagram

/-- A state as it is drawn. -/
structure Node where
  name : String
  initial : Bool
  accepting : Bool
  active : Bool
  deriving DecidableEq

/-- All transitions from one node to another, the nodes being told by their position. -/
structure Edge where
  source : Nat
  target : Nat
  symbols : List Symbol
  deriving DecidableEq

/-- Add a transition to the edge between its nodes, or a new edge at the end. -/
def addTransition (source target : Nat) (x : Symbol) : List Edge → List Edge
  | [] => [⟨source, target, [x]⟩]
  | e :: rest =>
    if e.source = source ∧ e.target = target then { e with symbols := e.symbols ++ [x] } :: rest
    else e :: addTransition source target x rest

/-- The edges for a list of transitions between named states, in the order of the first
transition of each. -/
def mergeTransitions (states : List String) (transitions : List (Transition Symbol)) : List Edge :=
  transitions.foldl
    (fun es t =>
      match states.idxOf? t.source, states.idxOf? t.target with
      | some source, some target => addTransition source target t.symbol es
      | _, _ => es)
    []

end Diagram

/-- Nodes in the order in which the states are declared, and edges between them. -/
structure Diagram where
  nodes : List Diagram.Node
  edges : List Diagram.Edge
  deriving DecidableEq

namespace Diagram

/-- The diagram of an automaton, some of its states being marked as active. -/
def ofAutomaton (a : Automaton) (active : StateSet) : Diagram where
  nodes := a.signature.states.map fun q =>
    { name := q
      initial := q = a.signature.initial
      accepting := a.signature.isAccepting q
      active := q ∈ active }
  edges := mergeTransitions a.signature.states a.transitionList

/-! ## The text for Graphviz -/

/-- The label of a node; the initial state is told by a line above its name. -/
def Node.label (n : Node) : String := if n.initial then "Start\n" ++ n.name else n.name

/-- How a node is drawn. -/
def Node.attributes (n : Node) : List String :=
  ["label = \"" ++ Text.label n.label ++ "\"",
    if n.accepting then "shape = doublecircle" else "shape = circle"] ++
  if n.active then ["style = filled", "fillcolor = \"#1482a5\""] else []

/-- One character of an edge's label. -/
def escapeEdge (c : Char) : String :=
  match c with
  | '"' => "\\\""
  | '\\' => "\\\\"
  | '\n' => "\\l"
  | c => c.toString

/-- The label of an edge: its symbols in a row. -/
def Edge.label (e : Edge) : String := ", ".intercalate (e.symbols.map Symbol.text)

/-- The line of a node at a position. -/
def Node.line (i : Nat) (n : Node) : String :=
  s!"    {i} [ " ++ ", ".intercalate n.attributes ++ "]\n"

/-- The line of an edge. -/
def Edge.line (e : Edge) : String :=
  s!"    {e.source} -> {e.target} [ label = \"" ++
    String.join (e.label.toList.map escapeEdge) ++ "\" ]\n"

/-- The diagram in the language of Graphviz. -/
def dot (d : Diagram) : String :=
  "digraph \x7b\n" ++ String.join (d.nodes.mapIdx Node.line) ++
    String.join (d.edges.map Edge.line) ++ "\x7d\n"

end Diagram

end AutomataLab
