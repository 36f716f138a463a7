/-!
# Context-free grammars

Terminals, non-terminals and the start symbol are names, and a production replaces a name by a
row of names. Nothing is checked here: a grammar may use names that it does not declare.
-/

namespace AutomataLab

/-- The name of the empty word. -/
def epsilonName : String := "ε"

/-- Replaces `head` by the symbols of `body`; an empty body stands for the empty word. -/
structure Production where
  head : String
  body : List String
  deriving DecidableEq

namespace Production

/-- The symbols of a body that is written as one text: its characters, or none for `ε`. -/
def splitBody (text : String) : List String :=
  if text = epsilonName then [] else text.toList.map Char.toString

/-- The production with a body that is written as one text. -/
def ofText (head body : String) : Production := ⟨head, splitBody body⟩

/-- Whether the production stands for the empty word. -/
def isEpsilon (p : Production) : Bool := p.body.isEmpty

/-- A production as it is shown to the user. -/
def text (p : Production) : String :=
  p.head ++ " → " ++ if p.isEpsilon then epsilonName else " ".intercalate p.body

end Production

/-- A context-free grammar. -/
structure Grammar where
  nonterminals : List String
  terminals : List String
  productions : List Production
  start : String
  deriving DecidableEq

namespace Grammar

/-- Whether a symbol is declared as a non-terminal. -/
def isNonterminal (g : Grammar) (s : String) : Bool := s ∈ g.nonterminals

/-- Whether a symbol is declared as a terminal. -/
def isTerminal (g : Grammar) (s : String) : Bool := s ∈ g.terminals

end Grammar

end AutomataLab
