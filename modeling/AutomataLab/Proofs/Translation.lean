import AutomataLab.Acceptor

/-!
# One machine in place of another

Two machines of different kinds may do the same if the configurations of the first are read as
configurations of the second (`Translates`). Then both take the same transitions and stop at the
same point of a word. Outcomes that tell configurations are read in the same way, so the two
machines end a word with outcomes that correspond (`Translates.evaluate_eq`).
-/

namespace AutomataLab

variable {A B C D : Type}

/-- A move with its configuration read as another one. -/
def Advance.map (carry : C → D) (move : Advance C) : Advance D where
  configuration := carry move.configuration
  transitions := move.transitions
  epsilonReached := move.epsilonReached

namespace Acceptor

variable [Acceptor A C] [Acceptor B D]

/-- In each configuration `b` does what `a` does, if configurations are read by `carry` and outcomes
by `tell`. -/
structure Translates (a : A) (b : B) (carry : C → D) (tell : Outcome → Outcome) : Prop where
  /-- The starts correspond. -/
  initial : initial b = carry (initial a)
  /-- They are reported alike. -/
  initialEpsilonReached : initialEpsilonReached b = initialEpsilonReached a
  /-- A move corresponds to a move, and a stop to a stop with the outcome that is told for it. -/
  advance : ∀ c x, advance b (carry c) x = ((advance a c x).map (·.map carry)).mapError tell
  /-- The end of a word is judged as it is told. -/
  verdict : ∀ c, verdict b (carry c) = tell (verdict a c)

omit [Acceptor B D] in
/-- Every machine does what it does itself. -/
theorem Translates.refl (a : A) : Translates a a (id : C → C) id where
  initial := rfl
  initialEpsilonReached := rfl
  advance := fun c x => by
    rw [id]
    cases Acceptor.advance a c x <;> rfl
  verdict := fun c => rfl

section

variable {a : A} {b : B} {carry : C → D} {tell : Outcome → Outcome} {c : C} {x : Char}

theorem Translates.advance_of_ok (h : Translates a b carry tell) {move : Advance C}
    (hmove : Acceptor.advance a c x = .ok move) :
    Acceptor.advance b (carry c) x = .ok (move.map carry) := by
  rw [h.advance, hmove]
  rfl

theorem Translates.advance_of_error (h : Translates a b carry tell) {outcome : Outcome}
    (hstop : Acceptor.advance a c x = .error outcome) :
    Acceptor.advance b (carry c) x = .error (tell outcome) := by
  rw [h.advance, hstop]
  rfl

/-- **What is read ends in the same way from configurations that correspond.** -/
theorem Translates.evaluateFrom_eq (h : Translates a b carry tell) (w : List Char) :
    evaluateFrom b (carry c) w = tell (evaluateFrom a c w) := by
  induction w generalizing c with
  | nil => exact h.verdict c
  | cons x rest ih =>
    cases hadvance : Acceptor.advance a c x with
    | ok move =>
      rw [evaluateFrom, evaluateFrom, hadvance, h.advance_of_ok hadvance]
      exact ih
    | error outcome => rw [evaluateFrom, evaluateFrom, hadvance, h.advance_of_error hadvance]

theorem Translates.evaluate_eq (h : Translates a b carry tell) (w : List Char) :
    evaluate b w = tell (evaluate a w) := by
  rw [evaluate, evaluate, h.initial, h.evaluateFrom_eq]

end

end Acceptor

end AutomataLab
