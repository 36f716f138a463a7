import AutomataLab.Grammar.Basic

/-!
# Chomsky normal form

In normal form every production replaces a non-terminal by one terminal or by two non-terminals.
The conversion goes part of the way there: it drops the productions of the empty word, splits
long bodies into pairs, and puts a non-terminal of its own in place of each terminal in a pair.
It leaves productions alone whose body is a single non-terminal.

New non-terminals need names that are not in use. Such a name is found by trying one candidate
after the other; each candidate that is in use is one name less that the later ones can meet.
-/

namespace AutomataLab

namespace Grammar

/-- A production that may stand in a grammar in normal form. -/
def isNormal (g : Grammar) (p : Production) : Bool :=
  g.isNonterminal p.head &&
    match p.body with
    | [a] => g.isTerminal a
    | [a, b] => g.isNonterminal a && g.isNonterminal b
    | _ => false

/-- Whether the grammar is in Chomsky normal form. -/
def isChomskyNormalForm (g : Grammar) : Bool := g.productions.all g.isNormal

/-! ## New names -/

/-- The first index from `i` on whose candidate is not to be avoided, provided that candidates
differ. -/
def firstFree (candidate : Nat → String) (avoid : List String) (i : Nat) : Nat :=
  if candidate i ∈ avoid then
    firstFree candidate (avoid.erase (candidate i)) (i + 1)
  else i
termination_by avoid.length
decreasing_by
  next h =>
    have := List.length_erase_of_mem h
    have := List.length_pos_of_mem h
    omega

/-- Candidates for the rest of a body that is split: `Y1`, `Y2`, … -/
def restName (i : Nat) : String := "Y" ++ toString i

/-- Candidates for the non-terminal of a terminal: `T_a`, `T_a'`, `T_a''`, … -/
def liftedName (terminal : String) (i : Nat) : String :=
  "T_" ++ terminal ++ String.ofList (List.replicate i '\'')

/-! ## Long bodies -/

/-- The non-terminals so far, and the index to try next. -/
structure Splitting where
  nonterminals : List String
  next : Nat

/-- Split a body into pairs, from the left. Each pair but the last ends in a new non-terminal for
what is left of the body. -/
def splitBody (g : Grammar) (st : Splitting) (head : String) :
    List String → Splitting × List Production
  | a :: b :: c :: rest =>
    let i := firstFree restName (g.terminals ++ st.nonterminals) st.next
    let y := restName i
    let r := splitBody g ⟨st.nonterminals ++ [y], i + 1⟩ y (b :: c :: rest)
    (r.1, ⟨head, [a, y]⟩ :: r.2)
  | body => (st, [⟨head, body⟩])

/-- Split the bodies of all productions in turn. -/
def splitAll (g : Grammar) (st : Splitting) : List Production → Splitting × List Production
  | [] => (st, [])
  | p :: rest =>
    let r := splitBody g st p.head p.body
    let r' := splitAll g r.1 rest
    (r'.1, r.2 ++ r'.2)

/-! ## Terminals in pairs -/

/-- The non-terminals so far, and the terminals that already have one of their own. -/
structure Lifting where
  nonterminals : List String
  lifted : List (String × String)

/-- The symbol that stands for `s` in a pair, and the production for it if it is new. -/
def liftSymbol (g : Grammar) (st : Lifting) (s : String) : Lifting × String × List Production :=
  if g.isTerminal s then
    match st.lifted.lookup s with
    | some name => (st, name, [])
    | none =>
      let name := liftedName s (firstFree (liftedName s) (g.terminals ++ st.nonterminals) 0)
      (⟨st.nonterminals ++ [name], (s, name) :: st.lifted⟩, name, [⟨name, [s]⟩])
  else (st, s, [])

/-- Lift both symbols of a pair; new productions come before the one that needs them. -/
def liftProduction (g : Grammar) (st : Lifting) (p : Production) : Lifting × List Production :=
  match p.body with
  | [a, b] =>
    let ra := liftSymbol g st a
    let rb := liftSymbol g ra.1 b
    (rb.1, ra.2.2 ++ rb.2.2 ++ [⟨p.head, [ra.2.1, rb.2.1]⟩])
  | _ => (st, [p])

/-- Lift the terminals in the pairs of all productions in turn. -/
def liftAll (g : Grammar) (st : Lifting) : List Production → Lifting × List Production
  | [] => (st, [])
  | p :: rest =>
    let r := liftProduction g st p
    let r' := liftAll g r.1 rest
    (r'.1, r.2 ++ r'.2)

/-- The grammar without productions of the empty word, with short bodies and no terminal in a
pair. -/
def toNormalForm (g : Grammar) : Grammar :=
  -- only the terminals of the given grammar are lifted, and only its names are in the way
  let split := splitAll g ⟨g.nonterminals, 1⟩ (g.productions.filter (!·.isEpsilon))
  let lifted := liftAll g ⟨split.1.nonterminals, []⟩ split.2
  { g with nonterminals := lifted.1.nonterminals, productions := lifted.2 }

end Grammar

end AutomataLab
