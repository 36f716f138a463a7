import AutomataLab.Automaton.Error
import AutomataLab.Text.Escape

/-!
# What can be wrong with a file

Reading an automaton, a grammar or settings from JSON fails at the first thing that is wrong, in
the order of the text.
-/

namespace AutomataLab

/-- Why a JSON text or value cannot be loaded. -/
inductive LoadError where
  | notJson
  | invalidType
  | invalidValue
  | invalidLength
  | missingField (name : String)
  | duplicateField (name : String)
  | unknownVariant (name : String)
  | noVariant
  | badSymbol (text : String)
  | automaton (cause : AutomatonError)
  deriving DecidableEq

/-- The wording of a cause. -/
def LoadError.message : LoadError → String
  | notJson => "not a JSON text"
  | invalidType => "invalid type"
  | invalidValue => "invalid value"
  | invalidLength => "invalid length"
  | missingField name => s!"missing field `{name}`"
  | duplicateField name => s!"duplicate field `{name}`"
  | unknownVariant name => s!"unknown variant `{name}`, expected `dfa` or `nfa`"
  | noVariant => "data did not match any variant of untagged enum RawBody"
  | badSymbol text => s!"symbol {Text.quoted text} must be exactly one character"
  | automaton cause => cause.message

end AutomataLab
