import AutomataLab.Proofs.Playback.Trace

/-!
# Machines that coincide where they are used

Two machines with the same configurations may differ, and it never shows: not in the configurations
that they come to, or not on the characters that they are given (`Coincide`). Then they leave the
same trace and end in the same way on every word of such characters (`Coincide.trace_eq`,
`Coincide.evaluate_eq`). A character on which one of them stops at once is as far as this goes
(`Coincide.evaluate_append_cons`).
-/

namespace AutomataLab

/-- Reading ended before the word did. -/
def Outcome.IsStop : Outcome → Prop
  | .invalidSymbol _ | .noValidTransition _ _ => True
  | _ => False

instance : DecidablePred Outcome.IsStop := fun outcome => by
  cases outcome <;> unfold Outcome.IsStop <;> infer_instance

namespace Acceptor

variable {A B C : Type} [Acceptor A C] [Acceptor B C]

/-- The configurations that come up when words are read. -/
inductive Met (a : A) : C → Prop
  | initial : Met a (initial a)
  | advance {c : C} {x : Char} {move : Advance C} :
      Met a c → Acceptor.advance a c x = .ok move → Met a move.configuration

/-- The configurations of a trace come up. -/
theorem Met.of_trace {a : A} {w : List Char} {i : Nat} {r : Playback.Step C}
    (hr : Simulation.trace a w i = some r) : Met a r.configuration := by
  induction i generalizing r with
  | zero =>
    obtain rfl := Option.some.inj hr
    exact .initial
  | succ i ih =>
    obtain ⟨_, _, _, hr₀, _, hmove, rfl⟩ := Simulation.eq_of_trace_succ hr
    exact .advance (ih hr₀) hmove

/-- Both machines do the same in the configurations of `P` on the characters of `K`, and this leads
to configurations of `P`. -/
structure Coincide (a : A) (b : B) (P : C → Prop) (K : Char → Prop) : Prop where
  /-- Both machines start in the same configuration. -/
  initial : initial b = initial a
  /-- The start is reported alike. -/
  initialEpsilonReached : initialEpsilonReached b = initialEpsilonReached a
  /-- The common start is one of the configurations of `P`. -/
  start : P (Acceptor.initial a)
  /-- From there the same move is made on every character of `K`, or the same stop. -/
  advance : ∀ c x, P c → K x → advance b c x = advance a c x
  /-- Moves on characters of `K` do not lead out of `P`. -/
  stays : ∀ c x move, P c → K x → Acceptor.advance a c x = .ok move → P move.configuration
  /-- A word that ends in `P` is judged alike. -/
  verdict : ∀ c, P c → verdict b c = verdict a c

/-- How reading ends tells whether it ended before the word did. -/
structure TellsStops (a : A) : Prop where
  /-- Where a move cannot be made, the outcome is one of those that stop. -/
  advance : ∀ c x outcome, Acceptor.advance a c x = .error outcome → outcome.IsStop
  /-- A word that is read to its end is accepted or rejected. -/
  verdict : ∀ c, ¬(Acceptor.verdict a c).IsStop

/-- A word that is read to its end leaves a trace to its end. -/
theorem TellsStops.exists_trace {a : A} (h : TellsStops a) {w : List Char}
    (hw : ¬(evaluate a w).IsStop) {i : Nat} (hi : i ≤ w.length) :
    ∃ r, Simulation.trace a w i = some r := by
  induction i with
  | zero => exact ⟨_, rfl⟩
  | succ i ih =>
    obtain ⟨r, hr⟩ := ih (Nat.le_of_succ_le hi)
    have hx : w[i]? = some w[i] := List.getElem?_eq_getElem hi
    cases hmove : Acceptor.advance a r.configuration w[i] with
    | ok move => exact ⟨_, Simulation.trace_succ hr hx hmove⟩
    | error outcome =>
      -- reading the whole word would have stopped here
      have hrest := Simulation.evaluate_eq_of_trace hr
      rw [(Simulation.trace_position hr).2, Simulation.drop_eq_cons_iff.2 ⟨hx, rfl⟩, evaluateFrom,
        hmove] at hrest
      exact absurd (hrest ▸ h.advance _ _ _ hmove) hw

section

variable {a : A} {b : B} {P : C → Prop} {K : Char → Prop} {c : C}

theorem Coincide.evaluateFrom_eq (h : Coincide a b P K) (hc : P c) {w : List Char}
    (hw : ∀ x ∈ w, K x) : evaluateFrom b c w = evaluateFrom a c w := by
  induction w generalizing c with
  | nil => exact h.verdict c hc
  | cons x rest ih =>
    obtain ⟨hx, hrest⟩ := List.forall_mem_cons.1 hw
    rw [evaluateFrom, evaluateFrom, h.advance c x hc hx]
    cases hmove : Acceptor.advance a c x with
    | error outcome => rfl
    | ok move => exact ih (h.stays c x move hc hx hmove) hrest

/-- **Machines that coincide end a word in the same way.** -/
theorem Coincide.evaluate_eq (h : Coincide a b P K) {w : List Char} (hw : ∀ x ∈ w, K x) :
    evaluate b w = evaluate a w := by
  rw [evaluate, evaluate, h.initial, h.evaluateFrom_eq h.start hw]

/-- Where the second machine stops on a character, it ends as the first one ends before that
character if it stops there, and with that character otherwise. -/
theorem Coincide.evaluateFrom_append_cons (h : Coincide a b P K) (htells : TellsStops a)
    {x : Char} (hx : ∀ c, Acceptor.advance b c x = .error (.invalidSymbol x)) (hc : P c)
    {u : List Char} (hu : ∀ y ∈ u, K y) (v : List Char) :
    evaluateFrom b c (u ++ x :: v)
      = if (evaluateFrom a c u).IsStop then evaluateFrom a c u else .invalidSymbol x := by
  induction u generalizing c with
  -- the character comes at once: the first machine has read its word, and that is no stop
  | nil => rw [List.nil_append, evaluateFrom, evaluateFrom, hx, if_neg (htells.verdict c)]
  | cons y rest ih =>
    obtain ⟨hy, hrest⟩ := List.forall_mem_cons.1 hu
    rw [List.cons_append, evaluateFrom, evaluateFrom, h.advance c y hc hy]
    cases hmove : Acceptor.advance a c y with
    -- the first machine stops before the character, and the second one with it
    | error outcome => exact (if_pos (htells.advance c y outcome hmove)).symm
    | ok move => exact ih (h.stays c y move hc hy hmove) hrest

theorem Coincide.evaluate_append_cons (h : Coincide a b P K) (htells : TellsStops a)
    {x : Char} (hx : ∀ c, Acceptor.advance b c x = .error (.invalidSymbol x))
    {u : List Char} (hu : ∀ y ∈ u, K y) (v : List Char) :
    evaluate b (u ++ x :: v)
      = if (evaluate a u).IsStop then evaluate a u else .invalidSymbol x := by
  rw [evaluate, evaluate, h.initial]
  exact h.evaluateFrom_append_cons htells hx h.start hu v

/-- The configurations of `P` are all that come up, if the machines coincide on every character. -/
theorem Coincide.of_met (h : Coincide a b P fun _ => True) (hc : Met b c) : P c := by
  induction hc with
  | initial => exact h.initial ▸ h.start
  | advance _ hmove ih =>
    -- the second machine's move is one of the first
    exact h.stays _ _ _ ih trivial ((h.advance _ _ ih trivial).symm.trans hmove)

/-- The configurations of a trace are among those of `P`. -/
theorem Coincide.of_trace (h : Coincide a b P K) {w : List Char} (hw : ∀ x ∈ w, K x) {i : Nat}
    {r : Playback.Step C} (hr : Simulation.trace a w i = some r) : P r.configuration := by
  induction i generalizing r with
  | zero =>
    obtain rfl := Option.some.inj hr
    exact h.start
  | succ i ih =>
    obtain ⟨r₀, x, move, hr₀, hx, hmove, rfl⟩ := Simulation.eq_of_trace_succ hr
    exact h.stays _ x move (ih hr₀) (hw x (List.mem_of_getElem? hx)) hmove

/-- **Machines that coincide leave the same trace.** -/
theorem Coincide.trace_eq (h : Coincide a b P K) {w : List Char} (hw : ∀ x ∈ w, K x) (i : Nat) :
    Simulation.trace b w i = Simulation.trace a w i := by
  induction i with
  | zero =>
    rw [Simulation.trace, Simulation.trace, Playback.State.firstStep, Playback.State.firstStep,
      h.initial, h.initialEpsilonReached]
  | succ i ih =>
    rw [Simulation.trace, Simulation.trace, ih]
    cases hr : Simulation.trace a w i with
    | none => rfl
    | some r =>
      cases hx : w[i]? with
      | none => rfl
      | some x =>
        -- the record that the step starts from is in `P`, where the machines move alike
        have hadvance := h.advance _ x (h.of_trace hw hr) (hw x (List.mem_of_getElem? hx))
        rw [Option.bind_eq_bind, Option.bind_some, Option.bind_eq_bind, Option.bind_some, hadvance]
        rfl

end

end Acceptor

end AutomataLab
