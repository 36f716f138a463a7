import AutomataLab.Automaton.Basic
import AutomataLab.Automaton.Description
import AutomataLab.Json.Record
import AutomataLab.Json.Writer

/-!
# Automata as JSON

An automaton is an object whose field `type` tells its kind; the other fields describe it. The
kind may come anywhere among them, so everything is read before any field but the kind is looked
at. An array of the kind and the other parts in order is read too.
-/

namespace AutomataLab

/-! ## Writing -/

/-- The fields that both kinds of automaton have. -/
def Signature.jsonFields (g : Signature) (kind : String) (transitions : Json) :
    List (String × Json) :=
  [("type", .string kind), ("states", .ofStrings g.states),
    ("alphabet", .array (g.alphabet.map .ofChar)), ("transitions", transitions),
    ("initialState", .string g.initial), ("acceptingStates", .ofStrings g.accepting.toList)]

namespace DFA

/-- The moves from one state, as an object from symbols to targets. -/
def rowToJson (row : Row) : Json :=
  .object (row.entries.map fun e => (e.1.toString, .string e.2))

/-- A deterministic automaton as an object. -/
def toJson (d : DFA) : Json :=
  .object (d.jsonFields "dfa" (.object (d.transitions.entries.map fun e => (e.1, rowToJson e.2))))

end DFA

namespace NFA

/-- The moves from one state, as an object from symbols to lists of targets. -/
def rowToJson (row : Row) : Json :=
  .object (row.entries.map fun e => (e.1.text, .ofStrings e.2.toList))

/-- A nondeterministic automaton as an object. -/
def toJson (n : NFA) : Json :=
  .object (n.jsonFields "nfa" (.object (n.transitions.entries.map fun e => (e.1, rowToJson e.2))) ++
    [("epsilonSymbol", .ofChar epsilonSign), ("useEpsilonTransitions", .bool n.usesEpsilon)])

end NFA

/-- An automaton as an object that tells its kind. -/
def Automaton.toJson : Automaton → Json
  | dfa d => d.toJson
  | nfa n => n.toJson

/-- The text of the file that an automaton is saved in. -/
def Automaton.fileText (a : Automaton) : String := a.toJson.pretty

/-! ## Reading -/

/-- The parts of a description, the transitions being taken by `transitions`. -/
def Description.parts {τ : Type} (transitions : Decoder τ) : List (RecordField (Description τ)) :=
  [.ofDecoder "states" true (.list .string) fun e v => { e with states := v },
    .ofDecoder "alphabet" true (.list .char) fun e v => { e with alphabet := v },
    .ofDecoder "transitions" false transitions fun e v => { e with transitions := v },
    .ofDecoder "initialState" false (.optional .string) fun e v => { e with initial := v },
    .ofDecoder "acceptingStates" false (.list .string) fun e v => { e with accepting := v }]

namespace DFA

/-- The description that a file adds to. -/
def Description.blank : Description := ⟨[], [], ∅, none, []⟩

/-- Read the description of a deterministic automaton. -/
def Description.decoder : Decoder Description :=
  RecordField.decoder
    (AutomataLab.Description.parts (.map .ok (.map Decoder.onlyChar .string))) .blank .invalidLength

end DFA

namespace NFA

/-- The symbol that a key stands for. -/
def symbolKey (s : String) : Except LoadError Symbol :=
  match Symbol.ofText? s with
  | some x => .ok x
  | none => .error (.badSymbol s)

/-- The description that a file adds to. -/
def Description.blank : Description := ⟨⟨[], [], ∅, none, []⟩, none, true⟩

/-- The parts that a nondeterministic automaton has. -/
def Description.parts : List (RecordField Description) :=
  (AutomataLab.Description.parts (.map .ok (.map symbolKey (.list .string)))).map
      (·.within Description.toDescription fun e v => { e with toDescription := v }) ++
    [.ofDecoder "epsilonSymbol" false (.optional .char) fun e v => { e with epsilonSign := v },
      .ofDecoder "useEpsilonTransitions" false .bool fun e v => { e with usesEpsilon := v }]

/-- Read the description of a nondeterministic automaton. -/
def Description.decoder : Decoder Description :=
  RecordField.decoder Description.parts .blank .invalidLength

end NFA

namespace Automaton

/-- The two kinds of automaton. -/
inductive Kind where
  | dfa
  | nfa
  deriving DecidableEq

/-- Read the kind from its name. -/
def Kind.decoder : Decoder Kind := fun v => do
  match ← Decoder.string v with
  | "dfa" => return .dfa
  | "nfa" => return .nfa
  | s => .error (.unknownVariant s)

/-- Read the parts of an automaton whose kind is known. -/
def ofParts (kind : Kind) (parts : Json) : Except LoadError Automaton :=
  match kind with
  | .dfa => do
    let e ← DFA.Description.decoder parts
    ((DFA.ofDescription e).map dfa).mapError .automaton
  | .nfa => do
    let e ← NFA.Description.decoder parts
    ((NFA.ofDescription e).map nfa).mapError .automaton

/-- Take the kind out of the fields of an object, given the kind if it came before. The other
fields are kept as they are. -/
def takeKind (kind : Option Kind) :
    List (String × Json) → Except LoadError (Option Kind × List (String × Json))
  | [] => .ok (kind, [])
  | (name, v) :: rest =>
    if name = "type" then
      if kind.isSome then .error (.duplicateField name)
      else do takeKind (some (← Kind.decoder v)) rest
    else do
      -- what the field means is seen to when the kind is known
      let v ← Decoder.keep v
      let (kind, others) ← takeKind kind rest
      return (kind, (name, v) :: others)

/-- Read an automaton. -/
def ofJson : Decoder Automaton
  | .object fields => do
    match ← takeKind none fields with
    | (none, _) => .error (.missingField "type")
    | (some kind, others) => ofParts kind (.object others)
  | .array [] => .error (.missingField "type")
  | .array (v :: rest) => do
    let kind ← Kind.decoder v
    ofParts kind (.array (← rest.mapM Decoder.keep))
  | v => Decoder.mismatch v

end Automaton

end AutomataLab
