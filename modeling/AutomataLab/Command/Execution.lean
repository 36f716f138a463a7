import AutomataLab.Automaton.Json
import AutomataLab.Command.Basic
import AutomataLab.Diagram
import AutomataLab.Grammar.Json
import AutomataLab.Grammar.NormalForm
import AutomataLab.Grammar.Validation
import AutomataLab.Playback.Json

/-!
# What a command does

A command reads files, prints, waits, and writes at most one file. What it is to print and write
is worked out here, from the files as they are; waiting, printing and writing are left to the
caller.
-/

namespace AutomataLab.Command

/-- Why a command could not be carried out. -/
inductive Failure where
  | noSuchFile
  | load (cause : LoadError)
  | grammar (cause : GrammarError)
  | notNormalForm (p : Production)
  | emptyInput
  deriving DecidableEq

/-- The wording of a failure. -/
def Failure.message : Failure → String
  | noSuchFile => "No such file or directory (os error 2)"
  | load cause => cause.message
  | grammar cause => cause.message
  | notNormalForm p => s!"Production {p.text} is not in Chomsky Normal Form"
  | emptyInput => Playback.emptyInputNotice

/-- One thing to do, in its turn. -/
inductive Action where
  | wait (ms : Nat)
  | print (text : String)
  | write (file text : String)
  deriving DecidableEq

/-- What a command can ask about the world: the text of a file, and choices for derivation trees.
Choices begin at `start`, or at a state that depends on a seed. -/
structure World (σ : Type) where
  file? : String → Option String
  choose : Chooser σ
  start : σ
  seeded : Nat → σ

namespace World

variable {σ : Type}

/-- The text of a file that has to exist. -/
def read (w : World σ) (file : String) : Except Failure String :=
  match w.file? file with
  | some text => .ok text
  | none => .error .noSuchFile

/-- An automaton from a file. -/
def loadAutomaton (w : World σ) (file : String) : Except Failure Automaton := do
  (Automaton.ofJson.readText (← w.read file)).mapError .load

/-- A grammar from a file. -/
def loadGrammar (w : World σ) (file : String) : Except Failure Grammar := do
  (Grammar.ofText (← w.read file)).mapError .load

/-- A grammar from a file, if it is valid. -/
def loadValidGrammar (w : World σ) (file : String) : Except Failure Grammar := do
  let g ← w.loadGrammar file
  g.validate.mapError .grammar
  return g

/-- The timing of a file, or the usual one; each delay can be given instead. -/
def loadTiming (w : World σ) (file : Option String) (speed prepareDelay : Option Nat) :
    Except Failure Timing := do
  let timing ← match file with
    | some file => do (Timing.ofText (← w.read file)).mapError .load
    | none => pure {}
  return ⟨speed.getD timing.speed, prepareDelay.getD timing.prepareDelay⟩

end World

/-! ## Playing back -/

/-- A line for a step of the playback; there is none once it is complete. -/
def stepLine {C : Type} (encode : C → Json) (s : Playback.State C) : Option String :=
  if s.isComplete then none
  else s.path.getLast?.map fun record =>
    let symbol := record.symbol.getD ' '
    s!"step {s.currentStep}: read '{symbol}' -> " ++
      (encode record.configuration).compact ++
      s!" | processed \"{String.ofList s.processed}\" remaining \"{String.ofList s.remaining}\"\n"

/-- What is printed when a step has been taken. -/
def observed {C : Type} (encode : C → Json) (json : Bool) (s : Playback.State C) : List Action :=
  if json then [.print ((s.toJson encode).compact ++ "\n")]
  else ((stepLine encode s).map .print).toList

/-- Play an automaton back over a word to the end. -/
def play {A C : Type} [Acceptor A C] (encode : C → Json) (a : A) (timing : Timing)
    (word : List Char) (json : Bool) : Except Failure (List Action) :=
  let (s, began) := (Simulation.new a timing).submitInput word
  if began then
    .ok (s.drive.flatMap (fun e => .wait e.1 :: observed encode json e.2.state) ++
      [.print (s.driven.report.message ++ "\n")])
  else .error .emptyInput

/-! ## Commands -/

/-- The verdict on a word, with the chart. -/
def parseReport (g : Grammar) (input : String) (r : Grammar.Parse) : String :=
  let verdict := if r.accepted then "is" else "is not"
  r.toJson.pretty ++ s!"\n\"{input}\" {verdict} derivable from {g.start}\n"

/-- A line for the FIRST set of a non-terminal. -/
def firstLine (e : String × SortedSet String) : String :=
  s!"FIRST({e.1}) = \x7b" ++ ", ".intercalate e.2.toList ++ "\x7d\n"

/-- What a command does, in turn. -/
def execute {σ : Type} (w : World σ) : Command → Except Failure (List Action)
  | version => return [.print "fasim 0.1.0\n"]
  | simulate automaton input timing speed prepareDelay json => do
    let timing ← w.loadTiming timing speed prepareDelay
    match ← w.loadAutomaton automaton with
    | .dfa d => play .string d timing input.toList json
    | .nfa n => play StateSet.toJson n timing input.toList json
  | run automaton input => do
    let a ← w.loadAutomaton automaton
    return [.print ((a.process input.toList).message input ++ "\n")]
  | cyk grammar input strict convert => do
    let g ← w.loadValidGrammar grammar
    let g := if convert then g.toNormalForm else g
    let r ← if strict then (g.parseStrict input.toList).mapError .notNormalForm
      else pure (g.parse input.toList)
    return [.print (parseReport g input r)]
  | checkGrammar grammar => do
    let g ← w.loadValidGrammar grammar
    return [.print "Grammar is valid\n",
      .print s!"Chomsky Normal Form: {g.isChomskyNormalForm}\n"] ++
      g.firstSets.entries.map fun e => .print (firstLine e)
  | derive grammar symbol depth seed => do
    let g ← w.loadValidGrammar grammar
    let start := (seed.map w.seeded).getD w.start
    let tree := (g.grow w.choose depth (symbol.getD g.start) start).1
    return [.print tree.text, .print s!"yield: \"{tree.frontier}\"\n"]
  | dot automaton output => do
    let text := (Diagram.ofAutomaton (← w.loadAutomaton automaton) ∅).dot
    return [match output with
      | some name => .write (name ++ ".dot") text
      | none => .print text]

end AutomataLab.Command
