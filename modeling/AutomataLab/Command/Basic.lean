import AutomataLab.Command.Arguments
import AutomataLab.Grammar.Derivation

/-!
# Commands

What can be asked for on the command line, and how it is read from the arguments. Arguments that
ask for nothing sensible are refused as a whole.
-/

namespace AutomataLab

/-- Something to do. Files are told by name. -/
inductive Command where
  /-- Print name and version. -/
  | version
  /-- Play an automaton back over a word. -/
  | simulate (automaton input : String) (timing : Option String) (speed prepareDelay : Option Nat)
      (json : Bool)
  /-- Tell at once whether an automaton accepts a word. -/
  | run (automaton input : String)
  /-- Test whether a grammar derives a word. -/
  | cyk (grammar input : String) (strict convert : Bool)
  /-- Validate a grammar and print its FIRST sets. -/
  | checkGrammar (grammar : String)
  /-- Print a random derivation tree. -/
  | derive (grammar : String) (symbol : Option String) (depth : Nat) (seed : Option Nat)
  /-- Draw the diagram of an automaton. -/
  | dot (automaton : String) (output : Option String)
  deriving DecidableEq

namespace Command

/-- The arguments of `simulate`. -/
def parseSimulate? (args : List String) : Option Command := do
  let a ← Arguments.collect?
    [⟨"config", some 'c', true⟩, ⟨"speed", some 's', true⟩, ⟨"prepare-delay", some 'p', true⟩,
      ⟨"json", none, false⟩] {} args
  let timing ← a.value? "config" fileName?
  let speed ← a.value? "speed" natural?
  let prepareDelay ← a.value? "prepare-delay" natural?
  match a.positional with
  | [automaton, input] =>
    return simulate (← fileName? automaton) input timing speed prepareDelay (a.hasSwitch "json")
  | _ => none

/-- The arguments of `run`. -/
def parseRun? (args : List String) : Option Command := do
  let a ← Arguments.collect? [] {} args
  match a.positional with
  | [automaton, input] => return run (← fileName? automaton) input
  | _ => none

/-- The arguments of `cyk`. -/
def parseCyk? (args : List String) : Option Command := do
  let a ← Arguments.collect? [⟨"strict", none, false⟩, ⟨"convert", none, false⟩] {} args
  match a.positional with
  | [grammar, input] =>
    return cyk (← fileName? grammar) input (a.hasSwitch "strict") (a.hasSwitch "convert")
  | _ => none

/-- The arguments of `check-grammar`. -/
def parseCheckGrammar? (args : List String) : Option Command := do
  let a ← Arguments.collect? [] {} args
  match a.positional with
  | [grammar] => return checkGrammar (← fileName? grammar)
  | _ => none

/-- The arguments of `derive`. -/
def parseDerive? (args : List String) : Option Command := do
  let a ← Arguments.collect?
    [⟨"symbol", none, true⟩, ⟨"depth", some 'd', true⟩, ⟨"seed", none, true⟩] {} args
  let symbol ← a.value? "symbol" some
  let depth ← a.value? "depth" natural?
  let seed ← a.value? "seed" natural?
  match a.positional with
  | [grammar] =>
    return derive (← fileName? grammar) symbol (depth.getD Grammar.defaultDepth) seed
  | _ => none

/-- The arguments of `dot`. -/
def parseDot? (args : List String) : Option Command := do
  let a ← Arguments.collect? [⟨"output", some 'o', true⟩] {} args
  let output ← a.value? "output" some
  match a.positional with
  | [automaton] => return dot (← fileName? automaton) output
  | _ => none

/-- Whether an argument asks for the version. As a letter the question is settled at once, and what
is attached to it is not looked at. -/
def asksForVersion (argument : String) : Bool :=
  argument = "--version" ||
    match argument.toList with
    | '-' :: 'V' :: _ => true
    | _ => false

/-- The command that the arguments ask for. -/
def parse? : List String → Option Command
  | "simulate" :: args => parseSimulate? args
  | "run" :: args => parseRun? args
  | "cyk" :: args => parseCyk? args
  | "check-grammar" :: args => parseCheckGrammar? args
  | "derive" :: args => parseDerive? args
  | "dot" :: args => parseDot? args
  | other :: _ => if asksForVersion other then some version else none
  | [] => none

end Command

end AutomataLab
