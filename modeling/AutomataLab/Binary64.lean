/-!
# Whole numbers in binary64

A whole number is stored as the nearest one that has at most 53 significant bits, a half going to
the even neighbour. Below `2 ^ 53` every number is stored as it is (`round_of_lt`); what rounds to
`2 ^ 1024` or more is not finite.
-/

namespace AutomataLab.Binary64

/-- How many significant bits are stored. -/
def precision : Nat := 53

/-- The nearest multiple of a unit. A half goes to the even multiple. -/
def nearestMultiple (unit n : Nat) : Nat :=
  let q := n / unit
  let r := n % unit
  if 2 * r < unit ∨ 2 * r = unit ∧ q % 2 = 0 then q * unit else (q + 1) * unit

/-- The number that is stored for `n`: its unit is that of the last significant bit. -/
def round (n : Nat) : Nat := nearestMultiple (1 <<< (n.log2 + 1 - precision)) n

/-- Whether the number that is stored for `n` is finite. -/
def isFinite (n : Nat) : Bool := round n < 1 <<< 1024

theorem nearestMultiple_one (n : Nat) : nearestMultiple 1 n = n := by
  simp [nearestMultiple, Nat.mod_one]

/-- A number of at most 53 bits is stored as it is. -/
theorem round_of_lt {n : Nat} (h : n < 1 <<< precision) : round n = n := by
  rw [Nat.one_shiftLeft] at h
  have hlog : n.log2 + 1 - precision = 0 := by
    by_cases h0 : n = 0
    · simp [h0, precision]
    · have := (Nat.log2_lt h0).2 h
      omega
  rw [round, hlog, Nat.shiftLeft_zero, nearestMultiple_one]

end AutomataLab.Binary64
