import AutomataLab.Json.Numeral
import AutomataLab.Sorted.Map

/-!
# JSON values

A value as far as its text can be read. Three constructors mark what cannot: `broken` stands where
a text stops being JSON, `unreadable` around a part whose shape is right but which denotes
nothing, such as a string with half a surrogate pair, and `nameless` around the value of a field
whose name is such a string. A part of the text that nobody asks for may be unreadable, but
nothing may be broken.
-/

namespace AutomataLab

/-- A JSON value; the fields of an object keep the order and the repetitions of the text. -/
inductive Json where
  | null
  | bool (b : Bool)
  | number (n : Json.Numeral)
  | string (s : String)
  | array (items : List Json)
  | object (fields : List (String × Json))
  | unreadable (shape : Json)
  | nameless (value : Json)
  | broken

namespace Json

/-- A natural number. -/
def ofNat (n : Nat) : Json := number (.ofNat n)

/-- A character, as a text. -/
def ofChar (c : Char) : Json := string c.toString

/-- A list of texts. -/
def ofStrings (l : List String) : Json := array (l.map string)

/-- The value of an absent part is `null`. -/
def ofOption {α : Type} (f : α → Json) : Option α → Json
  | none => null
  | some a => f a

/-! ## Whole values

What nobody asks for has to be unbroken; what is kept has to be readable too. -/

mutual

/-- Whether the text of the value was JSON to its end. -/
def isWhole : Json → Bool
  | array items => areWhole items
  | object fields => haveWholeValues fields
  | unreadable v | nameless v => isWhole v
  | broken => false
  | _ => true

/-- Whether all items are whole. -/
def areWhole : List Json → Bool
  | [] => true
  | v :: rest => isWhole v && areWhole rest

/-- Whether all fields have whole values. -/
def haveWholeValues : List (String × Json) → Bool
  | [] => true
  | (_, v) :: rest => isWhole v && haveWholeValues rest

end

mutual

/-- Whether every part of the value is unbroken and denotes something. -/
def isReadable : Json → Bool
  | array items => areReadable items
  | object fields => haveReadableValues fields
  | unreadable _ | nameless _ | broken => false
  | _ => true

/-- Whether all items are readable. -/
def areReadable : List Json → Bool
  | [] => true
  | v :: rest => isReadable v && areReadable rest

/-- Whether all fields have readable values. -/
def haveReadableValues : List (String × Json) → Bool
  | [] => true
  | (_, v) :: rest => isReadable v && haveReadableValues rest

end

/-! ## Objects as maps -/

mutual

/-- The value with the fields of every object in the order of their names, each once; of several
with one name the last counts. -/
def sortFields : Json → Json
  | array items => array (sortItems items)
  | object fields => object (SortedMap.ofList (sortValues fields)).entries
  | v => v

/-- Sort the fields within each item. -/
def sortItems : List Json → List Json
  | [] => []
  | v :: rest => sortFields v :: sortItems rest

/-- Sort the fields within each value. -/
def sortValues : List (String × Json) → List (String × Json)
  | [] => []
  | (k, v) :: rest => (k, sortFields v) :: sortValues rest

end

/-- The first field of a name. -/
def field? (v : Json) (name : String) : Option Json :=
  match v with
  | object fields => fields.lookup name
  | _ => none

end Json

end AutomataLab
