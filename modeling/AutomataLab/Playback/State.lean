import AutomataLab.Acceptor

/-!
# What a playback shows

A playback shows where it is in the word, how it got there, and, once the word is decided, the
verdict. None of this knows about time.
-/

namespace AutomataLab.Playback

/-- One record of the path: the configuration after a step and how the step led to it. The first
record of a path has no symbol and no configuration before it. -/
structure Step (C : Type) where
  configuration : C
  symbol : Option Char
  source : Option C
  processed : List Char
  remaining : List Char
  transitions : List (Transition Char)
  epsilonReached : StateSet
  deriving DecidableEq

/-- Where the playback is. -/
structure State (C : Type) where
  isRunning : Bool
  isPaused : Bool
  isComplete : Bool
  currentStep : Nat
  configuration : C
  processed : List Char
  remaining : List Char
  speed : Nat
  path : List (Step C)
  deriving DecidableEq

/-- What a playback is doing. -/
inductive Phase where
  | idle
  | running
  | paused
  | complete
  deriving DecidableEq

/-- What the user is told about the test of a word. -/
structure Report where
  visible : Bool
  accepted : Bool
  message : String
  outcome : Option Outcome
  deriving DecidableEq

namespace Report

/-- Nothing to tell yet. -/
def hidden : Report := ⟨false, false, "", none⟩

/-- The outcome of reading a word. -/
def shown (outcome : Outcome) (word : List Char) : Report :=
  ⟨true, outcome.isAccepted, outcome.message (.ofList word), some outcome⟩

/-- A remark that is no outcome. -/
def notice (message : String) : Report := ⟨true, false, message, none⟩

end Report

/-- The remark on an empty input. -/
def emptyInputNotice : String := "Please enter an input string to test."

namespace State

variable {A C : Type} [Acceptor A C]

/-- Before a playback of a word is started. -/
def idle (a : A) (word : List Char) (speed : Nat) : State C where
  isRunning := false
  isPaused := false
  isComplete := false
  currentStep := 0
  configuration := Acceptor.initial a
  processed := []
  remaining := word
  speed := speed
  path := []

/-- The first record of every path over a word. -/
def firstStep (a : A) (word : List Char) : Step C where
  configuration := Acceptor.initial a
  symbol := none
  source := none
  processed := []
  remaining := word
  transitions := []
  epsilonReached := Acceptor.initialEpsilonReached a

/-- At the beginning of a playback of a word. -/
def started (a : A) (word : List Char) (speed : Nat) : State C :=
  { idle a word speed with isRunning := true, path := [firstStep a word] }

/-- What the playback is doing. -/
def phase (s : State C) : Phase :=
  if !s.isRunning then .idle
  else if s.isComplete then .complete
  else if s.isPaused then .paused
  else .running

/-- After reading `c`, `rest` being left of the word. -/
def push (s : State C) (c : Char) (rest : List Char) (step : Advance C) : State C :=
  { s with
    currentStep := s.currentStep + 1
    configuration := step.configuration
    processed := s.processed ++ [c]
    remaining := rest
    path := s.path ++ [{
      configuration := step.configuration
      symbol := some c
      source := some s.configuration
      processed := s.processed ++ [c]
      remaining := rest
      transitions := step.transitions
      epsilonReached := step.epsilonReached }] }

/-- Back at an earlier record, which is now the last of `path`. A playback that was complete is
paused from here on. -/
def restore (s : State C) (path : List (Step C)) (record : Step C) : State C :=
  { s with
    isPaused := s.isPaused || s.isComplete
    isComplete := false
    currentStep := s.currentStep - 1
    configuration := record.configuration
    processed := record.processed
    remaining := record.remaining
    path := path }

end State

end AutomataLab.Playback
