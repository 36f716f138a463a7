import AutomataLab.Json.Reader
import AutomataLab.LoadError

/-!
# Taking JSON values apart

A decoder takes from a value what it asks for, or says why it cannot. Parts are asked for in the
order of the text, so the first fault is the one that is reported, be it a part of the wrong type
or a place where the text stops being JSON.
-/

namespace AutomataLab

/-- A way to take an `α` from a JSON value. -/
abbrev Decoder (α : Type) := Json → Except LoadError α

namespace Decoder

/-- The fault in a value of which something else was asked. -/
def mismatch {α : Type} : Decoder α
  | .broken | .unreadable _ | .nameless _ => .error .notJson
  | _ => .error .invalidType

/-- A truth value. -/
def bool : Decoder Bool
  | .bool b => .ok b
  | v => mismatch v

/-- A text. -/
def string : Decoder String
  | .string s => .ok s
  | v => mismatch v

/-- The only character of a text. -/
def onlyChar (s : String) : Except LoadError Char :=
  match s.toList with
  | [c] => .ok c
  | _ => .error .invalidValue

/-- A text of one character. -/
def char : Decoder Char
  | .string s => onlyChar s
  | v => mismatch v

/-- A natural number below `2 ^ 64`. Integers from `-2 ^ 63` on are of the right type, though a
negative one has the wrong value. -/
def unsigned64 : Decoder Nat
  | .number n =>
    match n.integer? with
    | none => .error .invalidType
    | some i =>
      if i < Int64.minValue.toInt ∨ UInt64.size ≤ i then .error .invalidType
      else if i < 0 then .error .invalidValue
      else .ok i.toNat
  | v => mismatch v

/-- `null`, or what the given decoder takes. -/
def optional {α : Type} (decode : Decoder α) : Decoder (Option α)
  | .null => .ok none
  | v => (decode v).map some

/-- A list, each item of which is taken by the given decoder. -/
def list {α : Type} (decode : Decoder α) : Decoder (List α)
  | .array items => items.mapM decode
  | v => mismatch v

/-- Add the fields of an object to a map, first to last. -/
def entriesInto {κ ν : Type} [Ord κ] [Std.TransOrd κ] [Std.LawfulEqOrd κ]
    (key : String → Except LoadError κ) (value : Decoder ν) (m : SortedMap κ ν) :
    List (String × Json) → Except LoadError (SortedMap κ ν)
  | [] => .ok m
  | (name, v) :: rest => do
    let k ← key name
    entriesInto key value (m.insert k (← value v)) rest

/-- An object as a map. Of several fields with one key the last counts. -/
def map {κ ν : Type} [Ord κ] [Std.TransOrd κ] [Std.LawfulEqOrd κ]
    (key : String → Except LoadError κ) (value : Decoder ν) : Decoder (SortedMap κ ν)
  | .object fields => entriesInto key value ∅ fields
  | v => mismatch v

/-- A value that nobody asks for. -/
def skip : Decoder Unit := fun v => if v.isWhole then .ok () else .error .notJson

/-- A value as it is. -/
def keep : Decoder Json := fun v => if v.isReadable then .ok v else .error .notJson

/-- Read a text with a decoder. What comes after the value is looked at last. -/
def readText {α : Type} (decode : Decoder α) (text : String) : Except LoadError α := do
  let (v, trailing) := Json.read text
  let a ← decode v
  if trailing then .error .notJson
  return a

end Decoder

end AutomataLab
