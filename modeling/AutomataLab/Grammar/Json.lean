import AutomataLab.Grammar.Chart
import AutomataLab.Grammar.Derivation
import AutomataLab.Grammar.First
import AutomataLab.Json.Record
import AutomataLab.Json.Writer

/-!
# Grammars as JSON

A body whose symbols all have one character is written as one text, any other as a list. Both
are read, and in both `ε` stands for the empty body.
-/

namespace AutomataLab

/-! ## Writing -/

namespace Production

/-- A body, as a text where its symbols can be told apart in one. -/
def bodyToJson (body : List String) : Json :=
  if body = [] then .string epsilonName
  else if body.all (·.length = 1) then .string (String.join body)
  else .ofStrings body

/-- A production as an object. -/
def toJson (p : Production) : Json :=
  .object [("from", .string p.head), ("to", bodyToJson p.body)]

end Production

namespace Grammar

/-- A grammar as an object. -/
def toJson (g : Grammar) : Json :=
  .object [("nonTerminals", .ofStrings g.nonterminals), ("terminals", .ofStrings g.terminals),
    ("productions", .array (g.productions.map Production.toJson)),
    ("startSymbol", .string g.start)]

/-- A verdict and its chart as an object. -/
def Parse.toJson (r : Parse) : Json :=
  .object [("accepted", .bool r.accepted),
    ("table", .array (r.table.map fun row => .array (row.map .ofStrings)))]

end Grammar

namespace DerivationTree

mutual

/-- A tree as nested objects. -/
def toJson : DerivationTree → Json
  | node s ts => .object [("symbol", .string s), ("children", .array (listToJson ts))]

/-- Several trees as objects. -/
def listToJson : List DerivationTree → List Json
  | [] => []
  | t :: rest => toJson t :: listToJson rest

end

end DerivationTree

/-! ## Reading -/

namespace Production

/-- The body that a value stands for, if it is a text or a list of texts. -/
def bodyOfJson? : Json → Option (List String)
  | .string s => some (splitBody s)
  | .array items =>
    match items.mapM Decoder.string with
    | .ok symbols => some (symbols.filter (· ≠ epsilonName))
    | .error _ => none
  | _ => none

/-- A body is looked at when all of it has been read. -/
def bodyDecoder : Decoder (List String) := fun v => do
  match bodyOfJson? (← Decoder.keep v) with
  | some body => return body
  | none => .error .noVariant

/-- The parts of a production. -/
def parts : List (RecordField Production) :=
  [.ofDecoder "from" true .string fun p v => { p with head := v },
    .ofDecoder "to" true bodyDecoder fun p v => { p with body := v }]

end Production

namespace Grammar

/-- The parts of a grammar. `surplus` is what is wrong with an array that is too long. -/
def parts (surplus : LoadError) : List (RecordField Grammar) :=
  [.ofDecoder "nonTerminals" true (.list .string) fun g v => { g with nonterminals := v },
    .ofDecoder "terminals" true (.list .string) fun g v => { g with terminals := v },
    .ofDecoder "productions" true
      (.list (RecordField.decoder Production.parts ⟨"", []⟩ surplus))
      fun g v => { g with productions := v },
    .ofDecoder "startSymbol" true .string fun g v => { g with start := v }]

/-- Read a grammar. -/
def decoder (surplus : LoadError) : Decoder Grammar :=
  RecordField.decoder (parts surplus) ⟨[], [], [], ""⟩ surplus

/-- Read a grammar from a file. Where an array of parts should end, anything else is a fault of
the text. -/
def ofText : String → Except LoadError Grammar := (decoder .notJson).readText

/-- Read a grammar from a value. -/
def ofJson : Decoder Grammar := decoder .invalidLength

end Grammar

end AutomataLab
