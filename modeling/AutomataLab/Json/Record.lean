import AutomataLab.Json.Decoder

/-!
# Records

A record is written as an object with one field for each of its parts, or as an array of the
parts in a fixed order. Fields may come in any order, none twice; unknown fields are skipped.
Parts that are not required keep what the blank record has.
-/

namespace AutomataLab

/-- A named part of a record of type `ρ`. -/
structure RecordField (ρ : Type) where
  name : String
  required : Bool
  read : ρ → Decoder ρ

namespace RecordField

variable {ρ : Type}

/-- The part that `decode` takes and `set` puts into the record. -/
def ofDecoder {α : Type} (name : String) (required : Bool) (decode : Decoder α)
    (set : ρ → α → ρ) : RecordField ρ :=
  ⟨name, required, fun r v => (decode v).map (set r)⟩

/-- A part of a record inside a larger one. -/
def within {τ : Type} (get : τ → ρ) (put : τ → ρ → τ) (f : RecordField ρ) : RecordField τ :=
  ⟨f.name, f.required, fun t v => (f.read (get t) v).map (put t)⟩

/-- Read the fields of an object into a record, given the names that came before. -/
def readObject (parts : List (RecordField ρ)) (seen : List String) (r : ρ) :
    List (String × Json) → Except LoadError ρ
  | [] =>
    match parts.find? fun f => f.required && f.name ∉ seen with
    | some f => .error (.missingField f.name)
    | none => .ok r
  | (_, .nameless _) :: _ => .error .notJson
  | (name, v) :: rest =>
    match parts.find? (·.name = name) with
    | none => do
      Decoder.skip v
      readObject parts seen r rest
    | some f =>
      if name ∈ seen then .error (.duplicateField name)
      else do readObject parts (name :: seen) (← f.read r v) rest

/-- Read the items of an array into a record, part by part. `surplus` is what is wrong with an
item too many. -/
def readArray (surplus : LoadError) :
    List (RecordField ρ) → ρ → List Json → Except LoadError ρ
  | [], r, [] => .ok r
  | [], _, _ :: _ => .error surplus
  | f :: parts, r, [] =>
    if f.required then .error .invalidLength else readArray surplus parts r []
  | f :: parts, r, v :: rest => do readArray surplus parts (← f.read r v) rest

/-- Read a record in either form. -/
def decoder (parts : List (RecordField ρ)) (blank : ρ) (surplus : LoadError) : Decoder ρ
  | .object fields => readObject parts [] blank fields
  | .array items => readArray surplus parts blank items
  | v => Decoder.mismatch v

end RecordField

end AutomataLab
