import AutomataLab.Json.Token

/-!
# Reading JSON

A value is put together from tokens, one at a time. Between two tokens the reader is in a
`State`: what it may meet next, and the `Context` of values begun around that place. A text that
stops being JSON still gives the value that was begun, with a `broken` part where it stops, so
that whoever asks for the parts in their order meets them before the fault.
-/

namespace AutomataLab.Json

/-- The deepest nesting that can be read. -/
def maxDepth : Nat := 127

/-- The arrays and objects begun around a place, with the parts that came before it, the last one
first. -/
inductive Context where
  | top
  | inArray (up : Context) (items : List Json)
  | inObject (up : Context) (fields : List (String × Json)) (name : Option String)

/-- What may come next. -/
inductive State where
  | value (c : Context)
  | firstItem (up : Context)
  | afterItem (up : Context) (items : List Json)
  | firstName (up : Context)
  | nextName (up : Context) (fields : List (String × Json))
  | colon (up : Context) (fields : List (String × Json)) (name : Option String)
  | afterField (up : Context) (fields : List (String × Json))
  /-- The value is complete; `trailing` tells whether anything came after it. -/
  | finished (v : Json) (trailing : Bool)

/-- A field, whose name may denote nothing. -/
def namedField (name : Option String) (v : Json) : String × Json :=
  match name with
  | some s => (s, v)
  | none => ("", nameless v)

namespace Context

/-- How many arrays and objects are open. -/
def depth : Context → Nat
  | top => 0
  | inArray up _ | inObject up _ _ => up.depth + 1

/-- Put a complete value into its place. -/
def fill (v : Json) : Context → State
  | top => .finished v false
  | inArray up items => .afterItem up (v :: items)
  | inObject up fields name => .afterField up (namedField name v :: fields)

/-- Close an array or object in its place. -/
def close (c : Context) (v : Json) : State :=
  c.fill (if c.depth < maxDepth then v else unreadable v)

/-- The outermost value, as far as it got, with `v` in the open place. -/
def cut (v : Json) : Context → Json
  | top => v
  | inArray up items => up.cut (array (v :: items).reverse)
  | inObject up fields name => up.cut (object (namedField name v :: fields).reverse)

/-- Begin a value in its place. -/
def start (c : Context) : Token → State
  | .beginArray => .firstItem c
  | .beginObject => .firstName c
  | .scalar v => c.fill v
  | .string (some s) => c.fill (string s)
  | .string none => c.fill (unreadable (string ""))
  | _ => .finished (c.cut broken) false

end Context

namespace State

/-- The value, as far as it got. -/
def cut : State → Json
  | value c => c.cut broken
  | firstItem up => up.cut (array [broken])
  | afterItem up items => up.cut (array (broken :: items).reverse)
  | firstName up => up.cut (object [("", broken)])
  | nextName up fields | afterField up fields => up.cut (object (("", broken) :: fields).reverse)
  | colon up fields name => up.cut (object (namedField name broken :: fields).reverse)
  | finished v _ => v

/-- Take one more token. -/
def feed (s : State) (t : Token) : State :=
  match s, t with
  | value c, t => c.start t
  | firstItem up, .endArray => up.close (array [])
  | firstItem up, t => (Context.inArray up []).start t
  | afterItem up items, .comma => value (.inArray up items)
  | afterItem up items, .endArray => up.close (array items.reverse)
  | firstName up, .endObject => up.close (object [])
  | firstName up, .string n => colon up [] n
  | nextName up fields, .string n => colon up fields n
  | colon up fields n, .colon => value (.inObject up fields n)
  | afterField up fields, .comma => nextName up fields
  | afterField up fields, .endObject => up.close (object fields.reverse)
  | finished v _, _ => finished v true
  -- no other token may come here
  | s, _ => finished s.cut false

end State

/-- Read a text: its value as far as it got, and whether anything comes after the value. -/
def read (text : String) : Json × Bool :=
  match (Token.ofText text.toList).foldl State.feed (.value .top) with
  | .finished v trailing => (v, trailing)
  | s => (s.cut, false)

end AutomataLab.Json
