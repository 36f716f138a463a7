import AutomataLab.Grammar.Derivation

/-!
# Drawing numbers from words of random bits

A source of 32-bit words is turned into a choice among `n` possibilities by scaling a word down
to the range: the high half of the product of word and `n` is the choice. The low half tells how
near the choice is to the next one; if a second word could tip it over, one is drawn.
-/

namespace AutomataLab

/-- Words that are drawn in turn and begin anew when they are used up; without any word, noughts
are drawn. -/
structure WordSource where
  words : List UInt32
  drawn : Nat := 0

namespace WordSource

/-- The word that is drawn next. -/
def word (s : WordSource) : Nat :=
  if s.words = [] then 0 else (s.words[s.drawn % s.words.length]?.getD 0).toNat

/-- One word further. -/
def advance (s : WordSource) : WordSource := { s with drawn := s.drawn + 1 }

/-- Choose among `n` possibilities. The choice is below `n` by itself as long as `n` fits into a
word; the remainder keeps it there for any `n`. -/
def choose : Chooser WordSource := fun n h s =>
  let scaled := s.word * n
  let low := scaled % UInt32.size
  let s := s.advance
  -- the bits below the first word can carry over only from here on
  if low > UInt32.size - n then
    let carry := if low + s.word * n / UInt32.size ≥ UInt32.size then 1 else 0
    (⟨(scaled / UInt32.size + carry) % n, Nat.mod_lt _ h⟩, s.advance)
  else (⟨scaled / UInt32.size % n, Nat.mod_lt _ h⟩, s)

end WordSource

end AutomataLab
