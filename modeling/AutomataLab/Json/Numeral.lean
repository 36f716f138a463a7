import AutomataLab.Binary64

/-!
# JSON numerals

A numeral is kept by its parts, so that `0`, `-0` and `0e0` stay different. What is asked of one
is whether it is an integer, and whether it is small enough for a binary64 number. For the second
question a numeral counts as a whole number below `2 ^ 64` times a power of ten, each of the two
rounded before they are multiplied.
-/

namespace AutomataLab.Json

/-- A number as it is written: sign, digits before and after the point, exponent. A numeral
without a point has no digits after it. -/
structure Numeral where
  negative : Bool := false
  whole : List Char
  fraction : List Char := []
  exponent : Option Int := none
  deriving DecidableEq

namespace Numeral

/-- The value of a row of decimal digits. -/
def value (digits : List Char) : Nat :=
  digits.foldl (fun n c => 10 * n + (c.toNat - '0'.toNat)) 0

/-- The numeral of a natural number. -/
def ofNat (n : Nat) : Numeral := { whole := Nat.toDigits 10 n }

/-- The text of a numeral. -/
def text (n : Numeral) : String :=
  (if n.negative then "-" else "") ++ String.ofList n.whole ++
    (if n.fraction = [] then "" else "." ++ String.ofList n.fraction) ++
    (match n.exponent with
      | none => ""
      | some e => s!"e{e}")

/-- The integer that is written, if there is neither point nor exponent. Minus nought is not an
integer. -/
def integer? (n : Numeral) : Option Int :=
  if n.fraction ≠ [] ∨ n.exponent ≠ none then none
  else if n.negative then if value n.whole = 0 then none else some (-(value n.whole : Int))
  else some (value n.whole)

/-- Go on reading digits after the number `n`, as long as the number stays below `2 ^ 64`. The
second part counts the digits that are left over. -/
def readWord (n : Nat) : List Char → Nat × Nat
  | [] => (n, 0)
  | c :: rest =>
    let next := 10 * n + (c.toNat - '0'.toNat)
    if next < UInt64.size then readWord next rest else (n, rest.length + 1)

/-- The leading digits as a number below `2 ^ 64`, and the power of ten that it is multiplied
with. Digits before the point that are left over count as noughts, those after it are dropped;
digits after the point are read even where some before it were left over. -/
def scientific (n : Numeral) : Nat × Int :=
  let (whole, noughts) := readWord 0 n.whole
  let (significand, dropped) := readWord whole n.fraction
  (significand, noughts + dropped - n.fraction.length + n.exponent.getD 0)

/-- Whether the magnitude is finite in binary64. No power of ten above the 308th is. -/
def isFinite (n : Numeral) : Bool :=
  let (significand, scale) := n.scientific
  if significand = 0 ∨ scale ≤ 0 then true
  else if scale > 308 then false
  else Binary64.isFinite (Binary64.round significand * Binary64.round (Nat.pow 10 scale.toNat))

end Numeral

end AutomataLab.Json
