import AutomataLab.Json.Value

/-!
# Writing JSON

A value is written either without any blanks or with one part to a line, indented by two spaces
a level. Strings escape quotes, backslashes and controls only.
-/

namespace AutomataLab.Json

/-- One character inside a string. -/
def escape (c : Char) : String :=
  match c with
  | '"' => "\\\""
  | '\\' => "\\\\"
  | '\x08' => "\\b"
  | '\x0c' => "\\f"
  | '\n' => "\\n"
  | '\r' => "\\r"
  | '\t' => "\\t"
  | c =>
    if c.toNat < 0x10 then s!"\\u000{String.ofList (Nat.toDigits 16 c.toNat)}"
    else if c.toNat < 0x20 then s!"\\u00{String.ofList (Nat.toDigits 16 c.toNat)}"
    else c.toString

/-- A string with its quotes. -/
def quote (s : String) : String := "\"" ++ String.join (s.toList.map escape) ++ "\""

mutual

/-- A value in one line without blanks. -/
def compact : Json → String
  | null => "null"
  | bool b => if b then "true" else "false"
  | number n => n.text
  | string s => quote s
  | array items => "[" ++ ",".intercalate (compactItems items) ++ "]"
  | object fields => "\x7b" ++ ",".intercalate (compactFields fields) ++ "\x7d"
  | unreadable v | nameless v => compact v
  | broken => ""

/-- The items of an array, each in one line. -/
def compactItems : List Json → List String
  | [] => []
  | v :: rest => compact v :: compactItems rest

/-- The fields of an object, each in one line. -/
def compactFields : List (String × Json) → List String
  | [] => []
  | (k, v) :: rest => s!"{quote k}:{compact v}" :: compactFields rest

end

/-- The start of a line at a level. -/
def newline (level : Nat) : String := "\n" ++ String.ofList (List.replicate (2 * level) ' ')

/-- The parts of an array or object, each on its line. -/
def block (opening closing : String) (level : Nat) (parts : List String) : String :=
  if parts = [] then opening ++ closing
  else
    opening ++ newline (level + 1) ++ ("," ++ newline (level + 1)).intercalate parts ++
      newline level ++ closing

mutual

/-- A value with one part to a line, the first line being at `level`. -/
def prettyAt (level : Nat) : Json → String
  | array items => block "[" "]" level (prettyItems (level + 1) items)
  | object fields => block "\x7b" "\x7d" level (prettyFields (level + 1) fields)
  | v => compact v

/-- The items of an array, each with one part to a line. -/
def prettyItems (level : Nat) : List Json → List String
  | [] => []
  | v :: rest => prettyAt level v :: prettyItems level rest

/-- The fields of an object, each with one part to a line. -/
def prettyFields (level : Nat) : List (String × Json) → List String
  | [] => []
  | (k, v) :: rest => s!"{quote k}: {prettyAt level v}" :: prettyFields level rest

end

/-- A value with one part to a line. -/
def pretty (v : Json) : String := prettyAt 0 v

end AutomataLab.Json
