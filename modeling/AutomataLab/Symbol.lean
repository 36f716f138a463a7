/-!
# Symbols

What a transition reads: one character, or nothing at all. The empty move is written `ε`, so
that character stands for it wherever symbols are text and cannot be read as a character.
-/

namespace AutomataLab

/-- The sign of the empty move. -/
def epsilonSign : Char := 'ε'

/-- What a transition reads. -/
inductive Symbol where
  | epsilon
  | char (c : Char)
  deriving DecidableEq

namespace Symbol

/-- The character read, if one is. -/
def char? : Symbol → Option Char
  | epsilon => none
  | char c => some c

theorem char?_injective {a b : Symbol} (h : a.char? = b.char?) : a = b := by
  cases a <;> cases b <;> simp_all [char?]

/-- The empty move comes first, then the characters by code point. -/
instance : Ord Symbol := ⟨fun a b => compare a.char? b.char?⟩

instance : Std.TransOrd Symbol where
  eq_swap := Std.OrientedOrd.eq_swap (α := Option Char)
  isLE_trans := Std.TransOrd.isLE_trans (α := Option Char)

instance : Std.LawfulEqOrd Symbol where
  compare_self := Std.ReflOrd.compare_self (α := Option Char)
  eq_of_compare h := char?_injective (Std.LawfulEqOrd.eq_of_compare (α := Option Char) h)

/-- The character that stands for a symbol in text. -/
def sign : Symbol → Char
  | epsilon => epsilonSign
  | char c => c

/-- The symbol that a character stands for in text. -/
def ofSign (c : Char) : Symbol := if c = epsilonSign then epsilon else char c

@[simp] theorem sign_ofSign (c : Char) : (ofSign c).sign = c := by
  unfold ofSign
  split <;> simp_all [sign]

theorem ofSign_sign {x : Symbol} (h : x ≠ char epsilonSign) : ofSign x.sign = x := by
  cases x with
  | epsilon => rfl
  | char c =>
    have hc : c ≠ epsilonSign := fun hc => h (by rw [hc])
    simp [sign, ofSign, hc]

/-- The text of a symbol. -/
def text (x : Symbol) : String := x.sign.toString

@[simp] theorem toList_text (x : Symbol) : x.text.toList = [x.sign] := by
  rw [text, Char.toString, String.toList_singleton]

/-- The symbol that a text stands for; only a text of one character does. -/
def ofText? (s : String) : Option Symbol :=
  match s.toList with
  | [c] => some (ofSign c)
  | _ => none

end Symbol

end AutomataLab
