import AutomataLab.Grammar.Basic

/-!
# Membership by chart

A word is tested by finding, for each stretch of it, the non-terminals that derive the stretch.
One character is derived by a production whose body is that character; a longer stretch by a
production whose two symbols derive the two parts of it, for some way to cut it. Productions with
other bodies take no part.

The chart is built from the end of the word: the row of a position lists the stretches that begin
there, by length, and is found from the rows of the positions after it.
-/

namespace AutomataLab

namespace Grammar

/-- The names in use as non-terminals, each once and in the order in which they are met: first
those declared, then heads and the symbols of pairs. -/
def usedNonterminals (g : Grammar) : List String :=
  (g.nonterminals ++ g.productions.flatMap fun p =>
    match p.body with
    | [a, b] => [p.head, a, b]
    | _ => [p.head]).eraseDups

/-- The names that derive some stretch, in the order of `usedNonterminals`. -/
abbrev Cell := List String

/-- The names that derive one character. -/
def unitCell (g : Grammar) (c : Char) : Cell :=
  g.usedNonterminals.filter fun a => g.productions.any fun p => p.head = a && p.body = [c.toString]

/-- Whether the two symbols of a body derive the two parts of a stretch, for one of the cuts. -/
def joins (cuts : List (Cell × Cell)) : List String → Bool
  | [a, b] => cuts.any fun cut => a ∈ cut.1 && b ∈ cut.2
  | _ => false

/-- The names that derive a stretch, given the cells of the parts for each cut. -/
def pairCell (g : Grammar) (cuts : List (Cell × Cell)) : Cell :=
  g.usedNonterminals.filter fun a => g.productions.any fun p => p.head = a && joins cuts p.body

/-- The cells of the parts, for each way to cut the stretch one longer than the last in `row`.
The first part begins where `row` does, the second at one of the positions `below`. -/
def cuts (row : List Cell) (below : List (List Cell)) : List (Cell × Cell) :=
  -- the first part has `k + 1` characters, so the second has `row.length - k`
  row.zip (below.mapIdx fun k cells => cells[row.length - 1 - k]?.getD [])

/-- Lengthen a row by `n` more stretches. -/
def extendRow (g : Grammar) (below : List (List Cell)) : Nat → List Cell → List Cell
  | 0, row => row
  | n + 1, row => g.extendRow below n (row ++ [g.pairCell (cuts row below)])

/-- For each position of a word, the cells of the stretches that begin there, by length. -/
def rows (g : Grammar) : List Char → List (List Cell)
  | [] => []
  | c :: rest =>
    let below := g.rows rest
    g.extendRow below rest.length [g.unitCell c] :: below

/-- The verdict on a word, and the cell of each stretch by first and last position. -/
structure Parse where
  accepted : Bool
  table : List (List Cell)
  deriving DecidableEq

/-- Test a word. The empty word is never accepted. -/
def parse (g : Grammar) (word : List Char) : Parse :=
  let rows := g.rows word
  { accepted := match rows with
      | [] => false
      | row :: _ => g.start ∈ row.getLast?.getD []
    table := rows.mapIdx fun i row => List.replicate i [] ++ row }

/-- A production that takes part in the test. -/
def takesPart (p : Production) : Bool := p.body.length = 1 || p.body.length = 2

/-- Test a word if every production takes part in the test; else tell the first that does not. -/
def parseStrict (g : Grammar) (word : List Char) : Except Production Parse :=
  match g.productions.find? (!takesPart ·) with
  | some p => .error p
  | none => .ok (g.parse word)

end Grammar

end AutomataLab
