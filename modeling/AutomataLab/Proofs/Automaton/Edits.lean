import AutomataLab.Proofs.Automaton.Descriptions

/-!
# What a change of an automaton consists of

A change is made in three places that do not look at each other. Whether it is refused, and what is
declared after it, is decided by the declarations and the switch of empty moves; the table is changed
without being asked (`edit_eq`). And in the table each state and symbol is changed on its own: what is
listed there afterwards is told by what was listed there before (`targetsIn_retable`).

Several changes are made one after the other up to the first that is refused (`editAll`).
-/

namespace AutomataLab.NFA

/-! ## The parts of a change -/

/-- What is declared after a change, or why it is refused. -/
def Edit.redeclare (g : Signature) (on : Bool) : Edit → Except AutomatonError Signature
  | .addState q => g.addState q
  | .removeState q => g.removeState q
  | .addSymbol c => g.addSymbol c
  | .removeSymbol c => g.removeSymbol c
  | .setInitial q => g.setInitial q
  | .toggleAccepting q => g.toggleAccepting q
  | .addTransition p x q | .removeTransition p x q => do
    (⟨g, ∅, on⟩ : NFA).checkEdge p x q
    return g
  | .setUsesEpsilon _ => .ok g

/-- The table after a change. -/
def Edit.retable (table : Table) : Edit → Table
  | .removeState q => (table.erase q).map fun _ row => row.map fun _ s => s.erase q
  | .removeSymbol c => table.map fun _ row => row.erase (.char c)
  | .addTransition p x q => addEntry table p x q
  | .removeTransition p x q =>
    table.map fun a row => if a = p then removeTarget row x q else row
  | _ => table

/-- The switch of empty moves after a change. -/
def Edit.switched (on : Bool) : Edit → Bool
  | .setUsesEpsilon on' => on'
  | _ => on

/-- **A change is made in three places, and the table does not decide on it.** -/
theorem edit_eq (n : NFA) (e : Edit) :
    n.edit e = (e.redeclare n.toSignature n.usesEpsilon).map fun g =>
      ⟨g, e.retable n.transitions, e.switched n.usesEpsilon⟩ := by
  have hbind : ∀ (x : Except AutomatonError Signature) (f : Signature → NFA),
      (x >>= fun g => pure (f g)) = x.map f := by
    intro x f
    cases x <;> rfl
  have hedge : ∀ (x : Except AutomatonError Unit) (m : NFA) (f : Signature → NFA),
      f n.toSignature = m → (x >>= fun _ => pure m) = (x >>= fun _ => pure n.toSignature).map f := by
    rintro x m f rfl
    cases x <;> rfl
  -- changes of transitions are checked before the table is touched, the others by the signature
  cases e with
  | addTransition p x q => exact hedge _ _ _ rfl
  | removeTransition p x q => exact hedge _ _ _ rfl
  | setUsesEpsilon on => rfl
  | _ => exact hbind _ _

/-! ## Each state and symbol on its own -/

/-- The targets of a state on a symbol after a change, by what they were. -/
def Edit.retarget (p : String) (x : Symbol) (s : StateSet) : Edit → StateSet
  | .removeState q => if p = q then ∅ else s.erase q
  | .removeSymbol c => if x = .char c then ∅ else s
  | .addTransition a y q => if p = a ∧ x = y then s.insert q else s
  | .removeTransition a y q => if p = a ∧ x = y then s.erase q else s
  | _ => s

section

variable {table : Table} {row : Row} {p q : String} {x y : Symbol}

theorem erase_empty : (∅ : StateSet).erase q = ∅ := rfl

theorem rowOf_map {f : String → Row → Row} (hf : f p ∅ = ∅) :
    rowOf (table.map f) p = f p (rowOf table p) := by
  unfold rowOf
  rw [SortedMap.get?_map]
  cases table.get? p with
  | none => exact hf.symm
  | some row => rfl

theorem rowOf_erase : rowOf (table.erase q) p = if p = q then ∅ else rowOf table p := by
  unfold rowOf
  rw [SortedMap.get?_erase]
  split <;> rfl

theorem targetsIn_map {f : Symbol → StateSet → StateSet} (hf : f x ∅ = ∅) :
    targetsIn (row.map f) x = f x (targetsIn row x) := by
  unfold targetsIn
  rw [SortedMap.get?_map]
  cases row.get? x with
  | none => exact hf.symm
  | some s => rfl

theorem targetsIn_erase : targetsIn (row.erase y) x = if x = y then ∅ else targetsIn row x := by
  unfold targetsIn
  rw [SortedMap.get?_erase]
  split <;> rfl

theorem targetsIn_removeTarget :
    targetsIn (removeTarget row y q) x
      = if x = y then (targetsIn row x).erase q else targetsIn row x := by
  unfold removeTarget
  cases hs : row.get? y with
  | none =>
    -- nothing is listed, so nothing is left without the target either
    by_cases hx : x = y
    · simp [hx, targetsIn, hs, erase_empty]
    · simp [hx]
  | some s =>
    dsimp only
    split
    · next hempty =>
      -- it was the only target, and a missing entry stands for no target
      rw [targetsIn_erase]
      by_cases hx : x = y
      · have hnone : s.erase q = ∅ := SortedSet.ext fun b => by
          rw [SortedSet.mem_def, List.isEmpty_iff.1 hempty]
          rfl
        simp [hx, targetsIn, hs, hnone]
      · simp [hx]
    · by_cases hx : x = y
      · simp [hx, targetsIn, hs]
      · simp [hx, targetsIn]

/-- **What is listed for a state and a symbol after a change is told by what was listed before.** -/
theorem targetsIn_retable (e : Edit) :
    targetsIn (rowOf (e.retable table) p) x = e.retarget p x (targetsIn (rowOf table p) x) := by
  cases e with
  | removeState q =>
    -- the row of the state goes, and its name goes from the other rows
    rw [Edit.retable, Edit.retarget, rowOf_map rfl, rowOf_erase, targetsIn_map rfl]
    split <;> rfl
  | removeSymbol c => rw [Edit.retable, Edit.retarget, rowOf_map rfl, targetsIn_erase]
  | addTransition a y q =>
    ext b
    rw [Edit.retable, Edit.retarget, mem_addEntry]
    split
    · next h => simp [h, or_comm]
    · next h => simp [h]
  | removeTransition a y q =>
    -- only the row of `a` is looked at, also where there is none
    have hnone : (if p = a then removeTarget ∅ y q else (∅ : Row)) = ∅ := by split <;> rfl
    rw [Edit.retable, Edit.retarget, rowOf_map hnone]
    by_cases hp : p = a
    · simp [hp, targetsIn_removeTarget]
    · simp [hp]
  | _ => rfl

end

/-! ## Several changes -/

/-- Make changes one after the other. The first that is refused is told by the number of those before
it, counted from `i`, and by the cause. -/
def editAll (i : Nat) (n : NFA) : List Edit → Except (Nat × AutomatonError) NFA
  | [] => .ok n
  | e :: rest =>
    match n.edit e with
    | .ok n' => editAll (i + 1) n' rest
    | .error cause => .error (i, cause)

end AutomataLab.NFA
