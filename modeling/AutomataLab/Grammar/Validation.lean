import AutomataLab.Grammar.Basic

/-!
# Validation

A grammar is valid if its start symbol is a non-terminal, no symbol is both a terminal and a
non-terminal, and every production replaces a non-terminal by declared symbols. Validation
reports the first thing that is wrong, in this order.
-/

namespace AutomataLab

/-- Why a grammar is not valid. -/
inductive GrammarError where
  | missingStartSymbol
  | startNotNonterminal (symbol : String)
  | ambiguousSymbol (symbol : String)
  | incompleteProduction
  | headNotNonterminal (symbol : String)
  | unknownSymbol (symbol : String)
  deriving DecidableEq

/-- The wording of a cause. -/
def GrammarError.message : GrammarError → String
  | missingStartSymbol => "Start symbol is required"
  | startNotNonterminal _ => "Start symbol must be a non-terminal"
  | ambiguousSymbol s => s!"Symbol {s} is declared both as a terminal and as a non-terminal"
  | incompleteProduction => "Each production must have \"from\" and \"to\" properties"
  | headNotNonterminal s => s!"Production \"from\" must be a non-terminal: {s}"
  | unknownSymbol s => s!"Unknown symbol in production: {s}"

namespace Grammar

/-- The start symbol is given and is a non-terminal. -/
def checkStart (g : Grammar) : Except GrammarError Unit :=
  if g.start = "" then .error .missingStartSymbol
  else if g.isNonterminal g.start then .ok ()
  else .error (.startNotNonterminal g.start)

/-- No terminal is a non-terminal. -/
def checkTerminals (g : Grammar) : Except GrammarError Unit :=
  match g.terminals.find? g.isNonterminal with
  | some s => .error (.ambiguousSymbol s)
  | none => .ok ()

/-- The head of a production is a non-terminal and its body has only declared symbols. -/
def checkProduction (g : Grammar) (p : Production) : Except GrammarError Unit :=
  if p.head = "" then .error .incompleteProduction
  else if !g.isNonterminal p.head then .error (.headNotNonterminal p.head)
  else
    match p.body.find? fun s => !g.isNonterminal s && !g.isTerminal s with
    | some s => .error (.unknownSymbol s)
    | none => .ok ()

/-- Whether the grammar is valid, and if not, why. -/
def validate (g : Grammar) : Except GrammarError Unit := do
  g.checkStart
  g.checkTerminals
  g.productions.forM g.checkProduction

end Grammar

end AutomataLab
