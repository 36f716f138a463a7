import AutomataLab.Proofs.Automaton.Edits
import AutomataLab.Proofs.Automaton.SameMoves
import AutomataLab.Proofs.Playback.InStep

/-!
# Empty moves that are turned off

Turning empty moves off hides them and does not remove them.

They cannot be told. Two automata that differ in nothing but what they keep on the empty move
(`Veiled`) have the same moves, and whatever is asked of an automaton asks for its moves alone: the
transitions that it lists, closures, steps, words, and whole playbacks. Nor do changes give them away,
since the table does not decide whether a change is refused (`veiled_edit`).

They are not lost. A change that has nothing to do with the empty move (`Edit.Plain`) does the same to
the table whether the switch is on or off, so the switch can be turned before or after it
(`edit_setUsesEpsilon`).
-/

namespace AutomataLab.NFA

/-! ## The same moves are listed alike -/

/-- The moves of a state that can be taken, as a row without empty entries. -/
def visibleRow (n : NFA) (p : String) : Row :=
  (rowOf n.transitions p).filter fun x s => n.enables x && s ≠ ∅

theorem flatMap_filter {α β : Type} (keep : α → Bool) (f : α → List β) (l : List α) :
    (l.filter keep).flatMap f = l.flatMap fun a => if keep a then f a else [] := by
  induction l with
  | nil => rfl
  | cons a rest ih =>
    rw [List.flatMap_cons, ← ih]
    cases hk : keep a with
    | true => rw [List.filter_cons_of_pos hk, List.flatMap_cons, if_pos rfl]
    | false => rw [List.filter_cons_of_neg (by simp [hk]), if_neg (by simp), List.nil_append]

section

variable {n m : NFA} {p : String} {x : Symbol}

theorem visibleRow_tidy : RowTidy (n.visibleRow p) := by
  intro x s hs
  rw [visibleRow, SortedMap.get?_filter, Option.filter_eq_some_iff, Bool.and_eq_true] at hs
  exact of_decide_eq_true hs.2.2

theorem targetsIn_visibleRow : targetsIn (n.visibleRow p) x = n.targets p x := by
  rw [targets, listed_eq, targetsIn, visibleRow, SortedMap.get?_filter, targetsIn]
  cases (rowOf n.transitions p).get? x with
  | none => simp
  | some s =>
    by_cases hs : s = ∅
    · -- an entry without targets is dropped, and is answered by no targets as before
      simp [hs, Option.filter_some]
    · cases n.enables x <;> simp [hs, Option.filter_some]

/-- An entry that cannot be taken or has no target does not show in the list. -/
theorem transitionList_eq (n : NFA) : n.transitionList = n.states.flatMap fun p =>
    (n.visibleRow p).entries.flatMap fun e => e.2.toList.map fun q => ⟨p, e.1, q⟩ := by
  refine List.flatMap_congr fun p _ => ?_
  refine (List.flatMap_congr fun e _ => ?_).trans (flatMap_filter _ _ _).symm
  by_cases hs : e.2 = ∅
  · simp [hs]
  · cases hen : n.enables e.1 <;> simp [hs, hen]

/-- **Automata with the same moves list the same transitions.** -/
theorem SameMoves.transitionList (h : n.SameMoves m) : m.transitionList = n.transitionList := by
  -- visible rows are tidy, so the targets determine them
  have hrow : ∀ p, m.visibleRow p = n.visibleRow p := fun p =>
    visibleRow_tidy.ext visibleRow_tidy fun x q => by
      rw [targetsIn_visibleRow, targetsIn_visibleRow, h.targets]
  rw [transitionList_eq, transitionList_eq, h.signature]
  simp only [hrow]

end

/-! ## Automata that differ in what is turned off -/

/-- The same names are declared, empty moves are turned off, and each state has the same targets on
each character. What is kept on the empty move may differ. -/
structure Veiled (n m : NFA) : Prop where
  /-- What is declared is the same. -/
  signature : m.toSignature = n.toSignature
  /-- The first automaton takes no empty move. -/
  off : n.usesEpsilon = false
  /-- Nor does the second one. -/
  off' : m.usesEpsilon = false
  /-- What can be taken, the moves on characters, is the same. -/
  listed : ∀ p c, m.listed p (.char c) = n.listed p (.char c)

section

variable {n m : NFA}

theorem Veiled.sameMoves (h : n.Veiled m) : n.SameMoves m where
  signature := h.signature
  targets := fun p x => by
    cases x with
    | epsilon => rw [targets, targets, enables, enables, h.off, h.off']; rfl
    | char c => exact h.listed p c

/-- What is listed on the empty move does not show while empty moves are turned off. -/
theorem veiled_addEntry (hoff : n.usesEpsilon = false) (p q : String) :
    n.Veiled { n with transitions := addEntry n.transitions p .epsilon q } where
  signature := rfl
  off := hoff
  off' := hoff
  listed := fun a c => by
    ext b
    rw [listed_eq, listed_eq, mem_addEntry]
    simp

/-- **No change tells automata apart that differ in what is turned off.** Both refuse it for the same
cause, or both make it and differ in no more than before. -/
theorem veiled_edit (h : n.Veiled m) {e : Edit} (he : ∀ on, e ≠ .setUsesEpsilon on) :
    Agree Veiled (n.edit e) (m.edit e) := by
  have hswitched : e.switched false = false := by
    cases e with
    | setUsesEpsilon on => exact absurd rfl (he on)
    | _ => rfl
  -- declarations and switch are the same, so what is refused for the one is for the other
  rw [edit_eq, edit_eq, h.signature, h.off, h.off']
  cases e.redeclare n.toSignature false with
  | error cause => exact .error cause
  | ok g =>
    refine .ok ⟨rfl, hswitched, hswitched, fun p c => ?_⟩
    -- a character is changed by what it was, and that is the same in both
    have hlisted := h.listed p c
    rw [listed_eq, listed_eq] at hlisted ⊢
    rw [targetsIn_retable, targetsIn_retable, hlisted]

theorem veiled_editAll (h : n.Veiled m) (i : Nat) {es : List Edit}
    (hes : ∀ e ∈ es, ∀ on, e ≠ .setUsesEpsilon on) :
    Agree Veiled (n.editAll i es) (m.editAll i es) := by
  induction es generalizing n m i with
  | nil => exact .ok h
  | cons e rest ih =>
    obtain ⟨he, hrest⟩ := List.forall_mem_cons.1 hes
    have hstep := veiled_edit h he
    rw [editAll, editAll]
    cases hn : n.edit e <;> cases hm : m.edit e <;> rw [hn, hm] at hstep <;> cases hstep
    · exact .error _
    · next h' => exact ih h' (i + 1) hrest

end

/-! ## The switch and other changes -/

/-- A change that has nothing to do with the empty move. -/
def Edit.Plain : Edit → Prop
  | .addTransition _ x _ | .removeTransition _ x _ => x ≠ .epsilon
  | .setUsesEpsilon _ => False
  | _ => True

/-- Whether a plain change is refused does not depend on the switch. -/
theorem Edit.Plain.redeclare_eq {e : Edit} (he : e.Plain) (g : Signature) (on on' : Bool) :
    e.redeclare g on = e.redeclare g on' := by
  cases e with
  | addTransition p x q =>
    cases x with
    | epsilon => exact absurd rfl he
    -- only the check of an empty move looks at the switch
    | char c => rfl
  | removeTransition p x q =>
    cases x with
    | epsilon => exact absurd rfl he
    | char c => rfl
  | setUsesEpsilon on => exact he.elim
  | _ => rfl

theorem Edit.Plain.switched_eq {e : Edit} (he : e.Plain) (on : Bool) : e.switched on = on := by
  cases e with
  | setUsesEpsilon on => exact he.elim
  | _ => rfl

/-- **The switch can be turned before a plain change or after it.** -/
theorem edit_setUsesEpsilon {e : Edit} (he : e.Plain) (n : NFA) (on : Bool) :
    (n.setUsesEpsilon on).edit e = (n.edit e).map (·.setUsesEpsilon on) := by
  have hturned : (n.setUsesEpsilon on).edit e = (e.redeclare n.toSignature on).map fun g =>
      ⟨g, e.retable n.transitions, e.switched on⟩ := edit_eq (n.setUsesEpsilon on) e
  -- neither the declarations nor the table look at the switch here, and it is kept
  rw [hturned, edit_eq n e, he.redeclare_eq n.toSignature on n.usesEpsilon, he.switched_eq,
    he.switched_eq]
  cases e.redeclare n.toSignature n.usesEpsilon <;> rfl

theorem editAll_setUsesEpsilon (i : Nat) (n : NFA) (on : Bool) {es : List Edit}
    (hes : ∀ e ∈ es, e.Plain) :
    (n.setUsesEpsilon on).editAll i es = (n.editAll i es).map (·.setUsesEpsilon on) := by
  induction es generalizing n i with
  | nil => rfl
  | cons e rest ih =>
    obtain ⟨he, hrest⟩ := List.forall_mem_cons.1 hes
    have hstep := edit_setUsesEpsilon he n on
    rw [editAll, editAll]
    cases hn : n.edit e <;> rw [hn] at hstep
    · next cause => rw [hstep]; rfl
    · next n' => rw [hstep]; exact ih (i + 1) n' hrest

/-- What was turned off for a while is back as it was. -/
theorem editAll_off_on {n : NFA} (hon : n.usesEpsilon = true) {es : List Edit}
    (hes : ∀ e ∈ es, e.Plain) :
    ((n.setUsesEpsilon false).editAll 0 es).map (·.setUsesEpsilon true) = n.editAll 0 es := by
  have hself : n.setUsesEpsilon true = n := by rw [← hon]; rfl
  have hkept := editAll_setUsesEpsilon 0 n true hes
  rw [hself] at hkept
  -- both turns come after the changes now, and the later one counts
  rw [editAll_setUsesEpsilon 0 n false hes]
  refine Eq.trans ?_ hkept.symm
  cases n.editAll 0 es <;> rfl

/-! ## Both halves -/

/-- **Empty moves that are turned off cannot be told, and they are not lost.** Automata that differ in
nothing else list the same transitions and have the same targets, closures, steps and outcomes. Any
changes but a turn of the switch are made in both, and leave them so, or the same change is refused in
both for the same cause. Whatever is done with simulations of them, or of others that differ no more,
they agree. And if the switch is turned off before changes that have nothing to do with the empty
move, and on after them, the result is the same as if it had not been touched. -/
theorem hidden_moves_kept_unseen :
    (∀ n m : NFA, n.Veiled m →
      m.transitionList = n.transitionList
        ∧ (∀ p x, m.targets p x = n.targets p x)
        ∧ (∀ s, m.closure s = n.closure s)
        ∧ (∀ s c, m.next s c = n.next s c)
        ∧ (∀ word, m.process word = n.process word)
        ∧ (∀ es : List Edit, (∀ e ∈ es, ∀ on, e ≠ .setUsesEpsilon on) →
          Agree Veiled (n.editAll 0 es) (m.editAll 0 es))
        ∧ ∀ (timing : Timing) (ops ops' : List (Operation NFA)),
          List.Forall₂ Simulation.CommonCall ops ops' →
            (Simulation.perform [] (Simulation.new m timing) ops').2
                = { (Simulation.perform [] (Simulation.new n timing) ops).2 with
                    automaton := (Simulation.perform [] (Simulation.new m timing) ops').2.automaton }
              ∧ (Simulation.perform [] (Simulation.new m timing) ops').1.scheduled
                = (Simulation.perform [] (Simulation.new n timing) ops).1.scheduled)
      ∧ ∀ n : NFA, n.usesEpsilon = true → ∀ es : List Edit, (∀ e ∈ es, e.Plain) →
        ((n.setUsesEpsilon false).editAll 0 es).map (·.setUsesEpsilon true) = n.editAll 0 es := by
  refine ⟨fun n m h => ?_, fun n hon es hes => editAll_off_on hon hes⟩
  have hsame := h.sameMoves
  refine ⟨hsame.transitionList, hsame.targets, hsame.closure, hsame.next, hsame.process, ?_, ?_⟩
  · exact fun es hes => veiled_editAll h 0 hes
  · exact fun timing ops ops' hops => Simulation.runs_agree hsame.translates timing hops

/-- An empty move beside a move on a character. -/
def hopping : NFA where
  states := ["p", "q"]
  alphabet := ['a']
  initial := "p"
  accepting := .ofList ["q"]
  transitions := .ofList [("p", .ofList [(.epsilon, .ofList ["q"]), (.char 'a', .ofList ["p"])])]
  usesEpsilon := true

/-- The same with the empty move in both directions. -/
def hoppingBack : NFA :=
  { hopping with transitions := addEntry hopping.transitions "q" .epsilon "p" }

theorem hopping_moves_kept_unseen :
    (hopping.setUsesEpsilon false).Veiled (hoppingBack.setUsesEpsilon false)
      ∧ (hoppingBack.setUsesEpsilon false).process ['a']
        = (hopping.setUsesEpsilon false).process ['a']
      ∧ Agree Veiled
          ((hopping.setUsesEpsilon false).editAll 0 [.addState "r", .removeState "q", .addState "r"])
          ((hoppingBack.setUsesEpsilon false).editAll 0
            [.addState "r", .removeState "q", .addState "r"])
      ∧ (Simulation.perform [] (Simulation.new (hoppingBack.setUsesEpsilon false) {})
            [.submitInput ['a'], .drive]).1.scheduled
        = (Simulation.perform [] (Simulation.new (hopping.setUsesEpsilon false) {})
            [.submitInput ['a'], .drive]).1.scheduled
      ∧ ((hoppingBack.setUsesEpsilon false).editAll 0
            [.removeState "p", .addTransition "q" (.char 'a') "p"]).map (·.setUsesEpsilon true)
        = .error (1, .unknownState "p") := by
  have hveiled : (hopping.setUsesEpsilon false).Veiled (hoppingBack.setUsesEpsilon false) :=
    veiled_addEntry rfl "q" "p"
  obtain ⟨hunseen, hkept⟩ := hidden_moves_kept_unseen
  obtain ⟨-, -, -, -, hprocess, hedits, hruns⟩ := hunseen _ _ hveiled
  refine ⟨hveiled, hprocess _, hedits _ ?_, (hruns {} _ _ ?_).2, ?_⟩
  · simp
  · exact .cons (.same _) (.cons (.same _) .nil)
  · rw [hkept hoppingBack rfl _ (by simp [Edit.Plain])]
    rfl

end AutomataLab.NFA
