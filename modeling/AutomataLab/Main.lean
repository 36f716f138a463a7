import AutomataLab.Command.Execution

/-!
# The command line

Carries out what a command asks for: reads the files it names, waits, prints and writes.
-/

namespace AutomataLab.CommandLine

/-- Read the files that exist among those that an argument could name. -/
def readExisting (names : List String) : IO (List (String × String)) :=
  names.filterMapM fun (name : String) => do
    try
      return some (name, ← IO.FS.readFile name)
    catch _ => return none

/-- The files that a command reads. -/
def inputFiles : Command → List String
  | .version => []
  | .simulate automaton _ timing _ _ _ => timing.toList ++ [automaton]
  | .run automaton _ | .dot automaton _ => [automaton]
  | .cyk grammar _ _ _ | .checkGrammar grammar | .derive grammar _ _ _ => [grammar]

/-- Choose by a generator of random numbers. -/
def chooseBy : Chooser StdGen := fun n h gen =>
  let (i, gen) := randNat gen 0 (n - 1)
  (⟨i % n, Nat.mod_lt _ h⟩, gen)

/-- Do one thing. -/
def perform : Command.Action → IO Unit
  | .wait ms => IO.sleep (min ms (UInt32.size - 1)).toUInt32
  | .print text => do
    let out ← IO.getStdout
    out.putStr text
    out.flush
  | .write file text => IO.FS.writeFile file text

/-- The answer to arguments that ask for nothing. -/
def usage : String :=
  "usage: simulate <AUTOMATON> <INPUT> [--config FILE] [--speed MS] [--prepare-delay MS]\n" ++
  "         [--json]\n" ++
  "       run <AUTOMATON> <INPUT>\n" ++
  "       cyk <GRAMMAR> <INPUT> [--strict] [--convert]\n" ++
  "       check-grammar <GRAMMAR>\n" ++
  "       derive <GRAMMAR> [--symbol SYMBOL] [--depth N] [--seed N]\n" ++
  "       dot <AUTOMATON> [--output NAME]\n"

end AutomataLab.CommandLine

open AutomataLab CommandLine in
/-- Exits with 0, with 1 if the command failed, or with 2 if the arguments ask for nothing. -/
def main (args : List String) : IO UInt32 := do
  match Command.parse? args with
  | none =>
    IO.eprint usage
    return 2
  | some command =>
    let files ← readExisting (inputFiles command)
    let now ← IO.monoNanosNow
    let world : Command.World StdGen :=
      { file? := fun name => files.lookup name
        choose := chooseBy
        start := mkStdGen now
        seeded := fun seed => mkStdGen seed }
    match Command.execute world command with
    | .error failure =>
      IO.eprintln s!"Error: {failure.message}"
      return 1
    | .ok actions =>
      try
        actions.forM perform
        return 0
      catch e =>
        IO.eprintln s!"Error: {e}"
        return 1
