import AutomataLab.Json.Value

/-!
# JSON tokens

A text is cut into tokens from the left. Each scanner takes what it can from the front of the
text and hands back the rest, which is shorter (`scan_length`); that is why the cutting ends. A
place where no token can start is a `bad` token, and nothing after it is looked at.
-/

namespace AutomataLab.Json

/-- The smallest parts of a JSON text. -/
inductive Token where
  | beginArray
  | endArray
  | beginObject
  | endObject
  | comma
  | colon
  /-- A constant or a number. -/
  | scalar (v : Json)
  /-- A string; none if half a surrogate pair in it stands alone. -/
  | string (s : Option String)
  | bad

namespace Token

/-! ## Numbers -/

/-- The digits before the point: a nought, or digits that do not start with one. -/
def scanWhole : List Char → Option (List Char × List Char)
  | '0' :: rest => if rest.head?.any Char.isDigit then none else some (['0'], rest)
  | l =>
    if (l.takeWhile Char.isDigit).isEmpty then none
    else some (l.takeWhile Char.isDigit, l.dropWhile Char.isDigit)

/-- A point and the digits after it, if there is a point. -/
def scanFraction : List Char → Option (List Char × List Char)
  | '.' :: rest =>
    if (rest.takeWhile Char.isDigit).isEmpty then none
    else some (rest.takeWhile Char.isDigit, rest.dropWhile Char.isDigit)
  | l => some ([], l)

/-- The sign that may stand in front of an exponent. -/
def scanSign : List Char → Bool × List Char
  | '+' :: rest => (false, rest)
  | '-' :: rest => (true, rest)
  | l => (false, l)

/-- The digits of an exponent, after its sign. -/
def scanPower (l : List Char) : Option (Option Int × List Char) :=
  let (negative, l) := scanSign l
  if (l.takeWhile Char.isDigit).isEmpty then none
  else
    let n : Int := Numeral.value (l.takeWhile Char.isDigit)
    some (some (if negative then -n else n), l.dropWhile Char.isDigit)

/-- An exponent, if there is one. -/
def scanExponent : List Char → Option (Option Int × List Char)
  | 'e' :: rest => scanPower rest
  | 'E' :: rest => scanPower rest
  | l => some (none, l)

/-- A numeral after its sign. -/
def scanUnsigned (negative : Bool) (l : List Char) : Option (Numeral × List Char) := do
  let (whole, l) ← scanWhole l
  let (fraction, l) ← scanFraction l
  let (exponent, l) ← scanExponent l
  return (⟨negative, whole, fraction, exponent⟩, l)

/-- A numeral. -/
def scanNumeral : List Char → Option (Numeral × List Char)
  | '-' :: rest => scanUnsigned true rest
  | l => scanUnsigned false l

/-! ## Strings -/

/-- The value of a hexadecimal digit. -/
def hexDigit? (c : Char) : Option Nat :=
  if c.isDigit then some (c.toNat - '0'.toNat)
  else if 'a' ≤ c ∧ c ≤ 'f' then some (c.toNat - 'a'.toNat + 10)
  else if 'A' ≤ c ∧ c ≤ 'F' then some (c.toNat - 'A'.toNat + 10)
  else none

/-- The 16-bit unit of four hexadecimal digits. -/
def unit? (a b c d : Char) : Option Nat := do
  return (((← hexDigit? a) * 16 + (← hexDigit? b)) * 16 + (← hexDigit? c)) * 16 + (← hexDigit? d)

/-- The character that a backslash and a letter stand for. -/
def escaped? : Char → Option Nat
  | '"' => some 0x22
  | '\\' => some 0x5c
  | '/' => some 0x2f
  | 'b' => some 0x08
  | 'f' => some 0x0c
  | 'n' => some 0x0a
  | 'r' => some 0x0d
  | 't' => some 0x09
  | _ => none

/-- What stands between the quotes: the code point of each character, or the units that escapes
give. Controls have to be escaped. -/
def scanString : List Char → Option (List Nat × List Char)
  | [] => none
  | '"' :: rest => some ([], rest)
  | '\\' :: 'u' :: a :: b :: c :: d :: rest => do
    let u ← unit? a b c d
    let (us, rest) ← scanString rest
    return (u :: us, rest)
  | '\\' :: e :: rest => do
    let u ← escaped? e
    let (us, rest) ← scanString rest
    return (u :: us, rest)
  | c :: rest =>
    if c.toNat < 0x20 ∨ c = '\\' then none
    else (scanString rest).map fun r => (c.toNat :: r.1, r.2)

/-- Whether a unit is the first half of a surrogate pair. -/
def isHighHalf (u : Nat) : Bool := 0xd800 ≤ u && u < 0xdc00

/-- Whether a unit is the second half of a surrogate pair. -/
def isLowHalf (u : Nat) : Bool := 0xdc00 ≤ u && u < 0xe000

/-- The characters of a row of units, halves of surrogate pairs being joined. -/
def joinUnits : List Nat → Option (List Char)
  | [] => some []
  | u :: v :: rest =>
    -- a half that is not joined to its other half denotes nothing
    if isHighHalf u then
      if isLowHalf v then
        (joinUnits rest).map (Char.ofNat (0x10000 + (u - 0xd800) * 0x400 + (v - 0xdc00)) :: ·)
      else none
    else if isLowHalf u then none
    else (joinUnits (v :: rest)).map (Char.ofNat u :: ·)
  | [u] => if isHighHalf u || isLowHalf u then none else some [Char.ofNat u]

/-! ## Tokens -/

/-- Whether a character may stand between tokens. -/
def isBlank (c : Char) : Bool := c = ' ' || c = '\n' || c = '\t' || c = '\r'

/-- A number is a token that denotes something only if it is finite. -/
def ofNumeral (n : Numeral) : Token :=
  scalar (if n.isFinite then number n else unreadable (number n))

/-- The token at the front of a text that is not empty and starts with no blank. -/
def scan : List Char → Option (Token × List Char)
  | '[' :: rest => some (beginArray, rest)
  | ']' :: rest => some (endArray, rest)
  | '{' :: rest => some (beginObject, rest)
  | '}' :: rest => some (endObject, rest)
  | ',' :: rest => some (comma, rest)
  | ':' :: rest => some (colon, rest)
  | 'n' :: 'u' :: 'l' :: 'l' :: rest => some (scalar null, rest)
  | 't' :: 'r' :: 'u' :: 'e' :: rest => some (scalar (bool true), rest)
  | 'f' :: 'a' :: 'l' :: 's' :: 'e' :: rest => some (scalar (bool false), rest)
  | '"' :: rest => (scanString rest).map fun r => (string ((joinUnits r.1).map .ofList), r.2)
  | l => (scanNumeral l).map fun r => (ofNumeral r.1, r.2)

/-! ## What is left is shorter -/

theorem length_dropWhile_le {α : Type} (p : α → Bool) (l : List α) :
    (l.dropWhile p).length ≤ l.length := (List.dropWhile_sublist p).length_le

theorem scanWhole_length {l w r : List Char} (h : scanWhole l = some (w, r)) :
    r.length < l.length := by
  unfold scanWhole at h
  split at h
  · split at h
    · cases h
    · cases h; simp
  · split at h
    · cases h
    · next hne =>
      cases h
      cases l with
      | nil => simp at hne
      | cons c rest =>
        by_cases hc : c.isDigit
        · have := length_dropWhile_le Char.isDigit rest
          simp [hc]; omega
        · simp [hc] at hne

theorem scanFraction_length {l w r : List Char} (h : scanFraction l = some (w, r)) :
    r.length ≤ l.length := by
  unfold scanFraction at h
  split at h
  · next rest =>
    have := length_dropWhile_le Char.isDigit rest
    split at h
    · cases h
    · cases h; simp; omega
  · cases h; simp

theorem scanSign_length (l : List Char) : (scanSign l).2.length ≤ l.length := by
  unfold scanSign
  split <;> simp

theorem scanPower_length {l r : List Char} {e : Option Int} (h : scanPower l = some (e, r)) :
    r.length ≤ l.length := by
  have h1 := scanSign_length l
  have h2 := length_dropWhile_le Char.isDigit (scanSign l).2
  simp only [scanPower] at h
  split at h
  · cases h
  · cases h; omega

theorem scanExponent_length {l r : List Char} {e : Option Int}
    (h : scanExponent l = some (e, r)) : r.length ≤ l.length := by
  unfold scanExponent at h
  split at h
  · have := scanPower_length h; simp; omega
  · have := scanPower_length h; simp; omega
  · cases h; simp

theorem scanUnsigned_length {s : Bool} {l r : List Char} {n : Numeral}
    (h : scanUnsigned s l = some (n, r)) : r.length < l.length := by
  simp only [scanUnsigned, Option.bind_eq_bind, Option.bind_eq_some_iff, Prod.exists] at h
  obtain ⟨w, l1, h1, f, l2, h2, e, l3, h3, h4⟩ := h
  have := scanWhole_length h1
  have := scanFraction_length h2
  have := scanExponent_length h3
  cases h4
  omega

theorem scanNumeral_length {l r : List Char} {n : Numeral} (h : scanNumeral l = some (n, r)) :
    r.length < l.length := by
  unfold scanNumeral at h
  split at h
  · have := scanUnsigned_length h; simp; omega
  · exact scanUnsigned_length h

theorem scanString_length {l r : List Char} {us : List Nat} (h : scanString l = some (us, r)) :
    r.length < l.length := by
  fun_induction scanString l generalizing us with
  | case1 => cases h
  | case2 rest => cases h; simp
  | case3 a b c d rest ih =>
    simp only [Option.bind_eq_bind, Option.bind_eq_some_iff, Prod.exists] at h
    obtain ⟨_, _, vs, q, hq, h⟩ := h
    cases h
    have := ih hq
    simp; omega
  | case4 e rest _ ih =>
    simp only [Option.bind_eq_bind, Option.bind_eq_some_iff, Prod.exists] at h
    obtain ⟨_, _, vs, q, hq, h⟩ := h
    cases h
    have := ih hq
    simp; omega
  | case5 => cases h
  | case6 c rest _ _ _ _ ih =>
    obtain ⟨⟨vs, q⟩, hq, h⟩ := Option.map_eq_some_iff.1 h
    cases h
    have := ih hq
    exact Nat.lt_succ_of_lt this

theorem scan_length {l r : List Char} {t : Token} (h : scan l = some (t, r)) :
    r.length < l.length := by
  unfold scan at h
  split at h
  case h_10 rest =>
    obtain ⟨⟨us, q⟩, hq, h⟩ := Option.map_eq_some_iff.1 h
    cases h
    have := scanString_length hq
    simp; omega
  case h_11 =>
    obtain ⟨⟨n, q⟩, hq, h⟩ := Option.map_eq_some_iff.1 h
    cases h
    exact scanNumeral_length hq
  all_goals cases h; simp; try omega

/-- The tokens of a text, up to the first place where none can start. -/
def ofText (l : List Char) : List Token :=
  match l with
  | [] => []
  | c :: rest =>
    if isBlank c then ofText rest
    else
      match _h : scan (c :: rest) with
      | none => [bad]
      | some (t, r) => t :: ofText r
termination_by l.length
decreasing_by
  · exact Nat.lt_succ_self rest.length
  · exact scan_length _h

end Token

end AutomataLab.Json
