import AutomataLab.Symbol

/-!
# What can be wrong with an automaton

Every refused declaration, edit or move names its cause. The wording of each cause is in
`AutomatonError.message`.
-/

namespace AutomataLab

/-- Defects of a description that no single state or symbol is to blame for. -/
inductive Malformation where
  | noState
  | emptyStateName
  | onlyState
  | foreignEpsilon (sign : Char)
  deriving DecidableEq

/-- The wording of a defect. -/
def Malformation.message : Malformation → String
  | noState => "an automaton needs at least one state"
  | emptyStateName => "state names cannot be empty"
  | onlyState => "cannot remove the only state of an automaton"
  | foreignEpsilon sign => s!"epsilon symbol must be '{epsilonSign}', found '{sign}'"

/-- Why an automaton refuses a declaration, an edit or a move. -/
inductive AutomatonError where
  | invalidSymbol (symbol : Char)
  | unknownState (state : String)
  | duplicateState (state : String)
  | duplicateSymbol (symbol : Char)
  | reservedSymbol
  | epsilonDisabled
  | malformed (defect : Malformation)
  deriving DecidableEq

/-- The wording of a cause. -/
def AutomatonError.message : AutomatonError → String
  | invalidSymbol c => s!"Error: Character '{c}' is not in the alphabet."
  | unknownState q => s!"Error: State {q} does not exist!"
  | duplicateState q => s!"Error: State {q} already exists!"
  | duplicateSymbol c => s!"Error: Symbol '{c}' is already part of the alphabet!"
  | reservedSymbol =>
    s!"Error: '{epsilonSign}' is reserved for epsilon transitions and cannot be an alphabet symbol!"
  | epsilonDisabled => "Error: Epsilon transitions are disabled for this automaton!"
  | malformed defect => s!"Error: Malformed automaton: {defect.message}"

end AutomataLab
