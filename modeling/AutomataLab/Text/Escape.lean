import AutomataLab.Text.DefaultIgnorable
import AutomataLab.Text.GraphemeExtend
import AutomataLab.Text.Unprintable

/-!
# Escaped text

Two ways to show a text so that every character of it can be told: between quotes in a message,
and as the label of a node. Both write a backslash form for quotes, backslashes and the common
controls, and the code point of a character that could not be seen. They differ in the quotes
they escape and in when a character that is drawn onto the one before it is escaped.
-/

namespace AutomataLab.Text

/-- The code point of a character, in lower-case hexadecimal. -/
def codePoint (c : Char) : String := s!"\\u\x7b{String.ofList (Nat.toDigits 16 c.toNat)}\x7d"

/-- Whether a character leaves no mark, wherever it stands. -/
def isInvisible (c : Char) : Bool := isUnprintable c || isDefaultIgnorable c

/-- Whether a character is drawn onto the one in front of it. The halfwidth sound marks have the
property too, but take a place of their own. -/
def isOverlaid (c : Char) : Bool := isGraphemeExtend c && c ≠ '\uff9e' && c ≠ '\uff9f'

/-- Show one character. The quotes given are escaped, and so are overlaid characters if
`overlaid` is set. -/
def escapeChar (quotes : List Char) (overlaid : Bool) (c : Char) : String :=
  if c = '\x00' then "\\0"
  else if c = '\t' then "\\t"
  else if c = '\r' then "\\r"
  else if c = '\n' then "\\n"
  else if c = '\\' ∨ c ∈ quotes then s!"\\{c}"
  else if (overlaid && isOverlaid c) || isInvisible c then codePoint c
  else c.toString

/-- A text between double quotes, as a message shows it. -/
def quoted (s : String) : String :=
  "\"" ++ String.join (s.toList.map (escapeChar ['"'] true)) ++ "\""

/-- A text as a label shows it: both kinds of quote are escaped, and an overlaid character only
where there is nothing in front of it. -/
def label (s : String) : String :=
  match s.toList with
  | [] => ""
  | c :: rest =>
    escapeChar ['"', '\''] true c ++ String.join (rest.map (escapeChar ['"', '\''] false))

end AutomataLab.Text
