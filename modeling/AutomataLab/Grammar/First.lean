import AutomataLab.Grammar.Basic
import AutomataLab.Saturation
import AutomataLab.Sorted.Map
import AutomataLab.Sorted.Set

/-!
# FIRST sets

The FIRST set of a non-terminal holds the terminals that its words can begin with, and `ε` if it
has the empty word. The sets are built by passes over the productions, each of which adds what
the sets so far tell about a body; the last pass is the first that adds nothing.
-/

namespace AutomataLab

/-- The FIRST set of each non-terminal. -/
abbrev FirstSets := SortedMap String (SortedSet String)

namespace Grammar

/-- What a body can begin with, as far as the sets tell. A symbol without a set begins with
itself. -/
def bodyFirst (g : Grammar) (sets : FirstSets) : List String → SortedSet String
  | [] => {epsilonName}
  | s :: rest =>
    if g.isTerminal s then {s}
    else
      match sets.get? s with
      | none => {s}
      | some first =>
        if epsilonName ∈ first then first.erase epsilonName ∪ g.bodyFirst sets rest
        else first.erase epsilonName

/-- Add what one body can begin with to the set of its head. -/
def addFirst (g : Grammar) (sets : FirstSets) (p : Production) : FirstSets :=
  sets.update p.head fun first => first.getD ∅ ∪ g.bodyFirst sets p.body

/-- Add what each body can begin with, in turn. -/
def firstPass (g : Grammar) (sets : FirstSets) : FirstSets := g.productions.foldl g.addFirst sets

/-- Every symbol that can be in a FIRST set. -/
def firstCandidates (g : Grammar) : SortedSet String :=
  .ofList (epsilonName :: g.productions.flatMap (·.body))

/-- How many candidates are missing from the sets of the heads. -/
def firstMissing (g : Grammar) (sets : FirstSets) : Nat :=
  (g.productions.flatMap fun p =>
    g.firstCandidates.toList.filter (· ∉ (sets.get? p.head).getD ∅)).length

/-- The FIRST sets. -/
def firstSets (g : Grammar) : FirstSets :=
  saturate g.firstPass g.firstMissing (.ofList (g.nonterminals.map (·, ∅)))

end Grammar

end AutomataLab
