import AutomataLab.Json.Record
import AutomataLab.Json.Writer
import AutomataLab.Playback.Simulation

/-!
# Playbacks as JSON

What a playback shows is written for other programs to draw; the timing is read from a settings
file. Configurations are written by a function that is given, since they differ by the kind of
automaton.
-/

namespace AutomataLab

/-- A set of states as the list of its members. -/
def StateSet.toJson (s : StateSet) : Json := .ofStrings s.toList

/-- An outcome as an object that tells its kind. -/
def Outcome.toJson : Outcome → Json
  | accepted => .object [("kind", .string "accepted")]
  | endedInRejectingState q =>
    .object [("kind", .string "ended_in_rejecting_state"), ("state", .string q)]
  | endedInRejectingStates s =>
    .object [("kind", .string "ended_in_rejecting_states"), ("states", StateSet.toJson s)]
  | invalidSymbol c => .object [("kind", .string "invalid_symbol"), ("symbol", .ofChar c)]
  | noValidTransition s c =>
    .object [("kind", .string "no_valid_transition"), ("from", StateSet.toJson s),
      ("symbol", .ofChar c)]

/-- A reported transition as an object. -/
def Transition.toJson (t : Transition Char) : Json :=
  .object [("from", .string t.source), ("symbol", .ofChar t.symbol), ("to", .string t.target)]

namespace Playback

variable {C : Type} (encode : C → Json)

/-- A record of the path as an object. -/
def Step.toJson (r : Step C) : Json :=
  .object [("configuration", encode r.configuration), ("symbol", .ofOption .ofChar r.symbol),
    ("from", .ofOption encode r.source), ("processed_input", .string (.ofList r.processed)),
    ("remaining_input", .string (.ofList r.remaining)),
    ("transitions", .array (r.transitions.map Transition.toJson)),
    ("epsilon_reached", StateSet.toJson r.epsilonReached)]

/-- The fields of a state, the path being written by a function that is given. -/
def State.jsonFields (path : List (Step C) → Json) (s : State C) : List (String × Json) :=
  [("is_running", .bool s.isRunning), ("is_paused", .bool s.isPaused),
    ("is_complete", .bool s.isComplete), ("current_step", .ofNat s.currentStep),
    ("configuration", encode s.configuration), ("processed_input", .string (.ofList s.processed)),
    ("remaining_input", .string (.ofList s.remaining)), ("speed", .ofNat s.speed),
    ("path", path s.path)]

/-- A state with its whole path as an object. -/
def State.toJson (s : State C) : Json :=
  .object (s.jsonFields encode fun path => .array (path.map (Step.toJson encode)))

end Playback

namespace Timing

/-- Both delays may be left out. -/
def parts : List (RecordField Timing) :=
  [.ofDecoder "speed" false .unsigned64 fun t v => { t with speed := v },
    .ofDecoder "prepareDelay" false .unsigned64 fun t v => { t with prepareDelay := v }]

/-- Read the timing from a settings file. -/
def ofText : String → Except LoadError Timing :=
  (RecordField.decoder parts {} .notJson).readText

/-- Read the timing from a value. -/
def ofJson : Decoder Timing := RecordField.decoder parts {} .invalidLength

end Timing

end AutomataLab
