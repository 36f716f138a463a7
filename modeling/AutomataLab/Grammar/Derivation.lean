import AutomataLab.Grammar.Basic

/-!
# Derivation trees

A tree is grown from a symbol by choosing a production wherever there is a choice, down to a
given depth. Where the choices come from is left open: a chooser answers with one of `n`
possibilities and goes over to its next state. Scripted choosers make every tree reachable.
-/

namespace AutomataLab

/-- A symbol and the trees below it. -/
inductive DerivationTree where
  | node (symbol : String) (children : List DerivationTree)

namespace DerivationTree

/-- A symbol with nothing below it. -/
def leaf (symbol : String) : DerivationTree := node symbol []

/-- The symbol at the root. -/
def symbol : DerivationTree → String
  | node s _ => s

/-- The trees below the root. -/
def children : DerivationTree → List DerivationTree
  | node _ ts => ts

/-- Whether there is nothing below the root. -/
def isLeaf (t : DerivationTree) : Bool := t.children.isEmpty

mutual

/-- The number of steps from the root to the deepest leaf. -/
def depth : DerivationTree → Nat
  | node _ ts => depthBelow ts

/-- The depth of a node with the given trees below it. -/
def depthBelow : List DerivationTree → Nat
  | [] => 0
  | t :: rest => max (depth t + 1) (depthBelow rest)

end

mutual

/-- The symbols of the leaves in a row, without those of the empty word. -/
def frontier : DerivationTree → String
  | node s [] => if s = epsilonName then "" else s
  | node _ (t :: rest) => frontier t ++ frontiers rest

/-- The symbols of the leaves of several trees in a row. -/
def frontiers : List DerivationTree → String
  | [] => ""
  | t :: rest => frontier t ++ frontiers rest

end

mutual

/-- One line for each node, two blanks deeper than the one above it. -/
def linesAt (level : Nat) : DerivationTree → List String
  | node s ts => (String.ofList (List.replicate (2 * level) ' ') ++ s) :: linesBelow (level + 1) ts

/-- The lines of the trees below a node. -/
def linesBelow (level : Nat) : List DerivationTree → List String
  | [] => []
  | t :: rest => linesAt level t ++ linesBelow level rest

end

/-- The tree as it is shown to the user. -/
def text (t : DerivationTree) : String := String.join ((t.linesAt 0).map (· ++ "\n"))

end DerivationTree

/-! ## Growing a tree -/

/-- Chooses one of `n` possibilities and goes over to the next state. -/
abbrev Chooser (σ : Type) := (n : Nat) → 0 < n → σ → Fin n × σ

namespace Grammar

/-- The depth to which trees are grown if nothing else is said. -/
def defaultDepth : Nat := 4

/-- The productions that replace a symbol. -/
def candidates (g : Grammar) (s : String) : List Production :=
  g.productions.filter (·.head = s)

/-- Grow one tree after the other, left to right. -/
def growRow {σ : Type} (grow : String → σ → DerivationTree × σ) :
    List String → σ → List DerivationTree × σ
  | [], st => ([], st)
  | s :: rest, st =>
    let r := grow s st
    let r' := growRow grow rest r.2
    (r.1 :: r'.1, r'.2)

/-- Grow a tree of a depth at most `d` from a symbol. Terminals, symbols without productions and
symbols at the greatest depth stay leaves. -/
def grow {σ : Type} (g : Grammar) (choose : Chooser σ) : Nat → String → σ → DerivationTree × σ
  | 0, s, st => (.leaf s, st)
  | d + 1, s, st =>
    if g.isTerminal s then (.leaf s, st)
    else if h : 0 < (g.candidates s).length then
      let r := choose (g.candidates s).length h st
      let p := (g.candidates s)[r.1]
      if p.isEpsilon then (.node s [.leaf epsilonName], r.2)
      else
        let below := growRow (g.grow choose d) p.body r.2
        (.node s below.1, below.2)
    else (.leaf s, st)

end Grammar

end AutomataLab
