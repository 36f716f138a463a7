import AutomataLab.Automaton.Description
import AutomataLab.Proofs.Automaton.Signature

/-!
# Nondeterministic automata that can come up

An automaton comes from a declaration or a description, and from there by edits (`Built`). Whatever
its history, it is well formed: its transitions lead from declared states on declared symbols to
declared states, also those on the empty move that are turned off (`built_wellFormed`).
-/

namespace AutomataLab

/-- A symbol that transitions may be on: the empty move, or one of the alphabet. -/
def Signature.Knows (g : Signature) : Symbol → Prop
  | .epsilon => True
  | .char c => c ∈ g.alphabet

theorem Signature.Knows.mono {g g' : Signature} (halphabet : ∀ c ∈ g.alphabet, c ∈ g'.alphabet)
    {x : Symbol} (hx : g.Knows x) : g'.Knows x := by
  cases x with
  | epsilon => trivial
  | char c => exact halphabet c hx

theorem Signature.WellFormed.ne_sign {g : Signature} (h : g.WellFormed) {x : Symbol}
    (hx : g.Knows x) : x ≠ .char epsilonSign := by
  rintro rfl
  exact h.unreserved hx

namespace NFA

/-! ## Histories -/

/-- A change that is asked for. -/
inductive Edit where
  | addState (q : String)
  | removeState (q : String)
  | addSymbol (c : Char)
  | removeSymbol (c : Char)
  | setInitial (q : String)
  | toggleAccepting (q : String)
  | addTransition (p : String) (x : Symbol) (q : String)
  | removeTransition (p : String) (x : Symbol) (q : String)
  | setUsesEpsilon (on : Bool)

/-- The automaton after a change, unless it is refused. -/
def edit (n : NFA) : Edit → Except AutomatonError NFA
  | .addState q => n.addState q
  | .removeState q => n.removeState q
  | .addSymbol c => n.addSymbol c
  | .removeSymbol c => n.removeSymbol c
  | .setInitial q => n.setInitial q
  | .toggleAccepting q => n.toggleAccepting q
  | .addTransition p x q => n.addTransition p x q
  | .removeTransition p x q => n.removeTransition p x q
  | .setUsesEpsilon on => .ok (n.setUsesEpsilon on)

/-- The automata that can come up. -/
inductive Built : NFA → Prop
  | declared {states : List String} {alphabet : List Char} {initial : String}
      {accepting : List String} {n : NFA} :
      declare states alphabet initial accepting = .ok n → Built n
  | described {e : Description} {n : NFA} : ofDescription e = .ok n → Built n
  | edited {n n' : NFA} {e : Edit} : Built n → n.edit e = .ok n' → Built n'

/-! ## Well-formed automata -/

/-- The transitions from one state are on known symbols and lead to declared states. -/
def RowFits (g : Signature) (row : Row) : Prop :=
  row.All g.Knows fun s => ∀ q ∈ s, q ∈ g.states

/-- The transitions are from declared states, on known symbols and to declared states. -/
def TableFits (g : Signature) (table : Table) : Prop :=
  table.All (· ∈ g.states) (RowFits g)

/-- The signature is well formed and the transitions fit it. -/
structure WellFormed (n : NFA) : Prop extends n.toSignature.WellFormed where
  /-- No transition refers to what is not declared, also none that is turned off. -/
  transitions : TableFits n.toSignature n.transitions

theorem WellFormed.of_listed {n : NFA} (h : n.WellFormed) {p q : String} {x : Symbol}
    (hq : q ∈ n.listed p x) : p ∈ n.states ∧ n.Knows x ∧ q ∈ n.states := by
  unfold listed at hq
  cases hrow : n.transitions.get? p with
  | none => simp [hrow] at hq
  | some row =>
    cases hs : row.get? x with
    | none => simp [hrow, hs] at hq
    | some s =>
      obtain ⟨hp, hfits⟩ := h.transitions p row hrow
      obtain ⟨hx, htargets⟩ := hfits x s hs
      exact ⟨hp, hx, htargets q (by simpa [hrow, hs] using hq)⟩

section

variable {g g' : Signature} {row row' : Row} {table : Table}

theorem RowFits.mono (h : RowFits g row) (hstates : ∀ q ∈ g.states, q ∈ g'.states)
    (halphabet : ∀ c ∈ g.alphabet, c ∈ g'.alphabet) : RowFits g' row :=
  SortedMap.All.mono h (fun _ hx => hx.mono halphabet) fun _ hs q hq => hstates q (hs q hq)

/-- A row fits if all it lists is listed in a row that does. -/
theorem RowFits.of_le (h : RowFits g row)
    (hle : ∀ x s', row'.get? x = some s' → ∃ s, row.get? x = some s ∧ ∀ q ∈ s', q ∈ s) :
    RowFits g row' := by
  intro x s' hs'
  obtain ⟨s, hs, hsub⟩ := hle x s' hs'
  obtain ⟨hx, htargets⟩ := h x s hs
  exact ⟨hx, fun q hq => htargets q (hsub q hq)⟩

/-! ## Edits of the table -/

theorem addEntry_fits {p q : String} {x : Symbol} (h : TableFits g table) (hp : p ∈ g.states)
    (hx : g.Knows x) (hq : q ∈ g.states) : TableFits g (addEntry table p x q) := by
  have hrow : RowFits g ((table.get? p).getD ∅) := h.getD SortedMap.all_empty p
  -- the targets on `x` so far, if there are any
  have htargets : ∀ b ∈ (((table.get? p).getD ∅).get? x).getD ∅, b ∈ g.states :=
    hrow.getD (by simp) x
  refine h.update hp (hrow.update hx fun b hb => ?_)
  rcases SortedSet.mem_insert.1 hb with rfl | hb
  · exact hq
  · exact htargets b hb

/-- Without a target a row lists no more than with it. -/
theorem get?_removeTarget {x y : Symbol} {q : String} {s' : StateSet}
    (hs' : (removeTarget row x q).get? y = some s') :
    ∃ s, row.get? y = some s ∧ ∀ a ∈ s', a ∈ s := by
  unfold removeTarget at hs'
  split at hs'
  · exact ⟨s', hs', fun a ha => ha⟩
  · next s hs =>
    split at hs'
    · -- the last target goes, and with it the entry
      rw [SortedMap.get?_erase] at hs'
      split at hs'
      · exact absurd hs' (by simp)
      · exact ⟨s', hs', fun a ha => ha⟩
    · rw [SortedMap.get?_insert] at hs'
      split at hs'
      · next hy =>
        subst hy
        obtain rfl := Option.some.inj hs'
        exact ⟨s, hs, fun a ha => (SortedSet.mem_erase.1 ha).1⟩
      · exact ⟨s', hs', fun a ha => ha⟩

theorem map_removeTarget_fits {p q : String} {x : Symbol} (h : TableFits g table) :
    TableFits g (table.map fun a row => if a = p then removeTarget row x q else row) := by
  refine h.map fun a row hrow => ?_
  split
  · exact hrow.of_le fun y s' hs' => get?_removeTarget hs'
  · exact hrow

theorem erase_fits {q : String} (h : TableFits g table)
    (hstates : ∀ p ∈ g.states, p ≠ q → p ∈ g'.states)
    (halphabet : ∀ c ∈ g.alphabet, c ∈ g'.alphabet) :
    TableFits g' ((table.erase q).map fun _ row => row.map fun _ s => s.erase q) := by
  -- the removed state was a source in its own row and a target in any other one
  have hrows : ∀ row, RowFits g row → RowFits g' (row.map fun _ s => s.erase q) := by
    intro row hrow
    have hknown : row.All g'.Knows fun s => ∀ b ∈ s, b ∈ g.states :=
      SortedMap.All.mono hrow (fun _ hx => hx.mono halphabet) fun _ hs => hs
    refine hknown.map fun x s hs b hb => ?_
    obtain ⟨hb, hbq⟩ := SortedSet.mem_erase.1 hb
    exact hstates b (hs b hb) hbq
  exact ((h.erase q).map fun _ row => hrows row).mono (fun p hp => hstates p hp.1 hp.2)
    fun _ hrow => hrow

theorem map_erase_fits {c : Char} (h : TableFits g table) (hstates : g'.states = g.states)
    (halphabet : ∀ d ∈ g.alphabet, d ≠ c → d ∈ g'.alphabet) :
    TableFits g' (table.map fun _ row => row.erase (.char c)) := by
  have hkept : ∀ p ∈ g.states, p ∈ g'.states := fun p hp => hstates ▸ hp
  have hknown : ∀ x, g.Knows x ∧ x ≠ .char c → g'.Knows x := by
    rintro (- | d) ⟨hx, hxc⟩
    · trivial
    · exact halphabet d hx fun hd => hxc (by rw [hd])
  have hrows : ∀ row, RowFits g row → RowFits g' (row.erase (.char c)) := fun row hrow =>
    (hrow.erase (.char c)).mono hknown fun s hs q hq => hkept q (hs q hq)
  exact (h.map fun _ row => hrows row).mono hkept fun _ hrow => hrow

end

/-! ## Histories keep automata well formed -/

theorem checkEdge_eq_ok_iff {n : NFA} {p q : String} {x : Symbol} :
    n.checkEdge p x q = .ok ()
      ↔ (n.Knows x ∧ n.enables x = true) ∧ p ∈ n.states ∧ q ∈ n.states := by
  cases x with
  | epsilon =>
    simp only [checkEdge]
    -- empty moves need no symbol, but they have to be turned on
    rw [guard_eq_ok_iff, check_bind_eq_ok_iff, Signature.checkState_eq_ok_iff,
      Signature.checkState_eq_ok_iff]
    simp [Signature.Knows, enables]
  | char c =>
    simp only [checkEdge]
    rw [check_bind_eq_ok_iff, check_bind_eq_ok_iff, Signature.checkSymbol_eq_ok_iff,
      Signature.checkState_eq_ok_iff, Signature.checkState_eq_ok_iff]
    simp [Signature.Knows, enables]

theorem addTransition_eq_ok_iff {n n' : NFA} {p q : String} {x : Symbol} :
    n.addTransition p x q = .ok n' ↔ n.checkEdge p x q = .ok ()
      ∧ n' = { n with transitions := addEntry n.transitions p x q } := by
  rw [addTransition, check_bind_eq_ok_iff, pure_eq_ok_iff]

theorem removeTransition_eq_ok_iff {n n' : NFA} {p q : String} {x : Symbol} :
    n.removeTransition p x q = .ok n' ↔ n.checkEdge p x q = .ok ()
      ∧ n' = { n with transitions :=
        n.transitions.map fun a row => if a = p then removeTarget row x q else row } := by
  rw [removeTransition, check_bind_eq_ok_iff, pure_eq_ok_iff]

section

variable {n n' : NFA} (h : n.WellFormed)

include h

theorem addTransition_wellFormed {p q : String} {x : Symbol}
    (he : n.addTransition p x q = .ok n') : n'.WellFormed := by
  obtain ⟨hedge, rfl⟩ := addTransition_eq_ok_iff.1 he
  obtain ⟨⟨hx, -⟩, hp, hq⟩ := checkEdge_eq_ok_iff.1 hedge
  exact { h with transitions := addEntry_fits h.transitions hp hx hq }

theorem edit_wellFormed {e : Edit} (he : n.edit e = .ok n') : n'.WellFormed := by
  cases e with
  | addState q =>
    obtain ⟨g, hg, rfl⟩ := bind_pure_eq_ok_iff.1 he
    have hsignature := Signature.addState_wellFormed h.toWellFormed hg
    obtain ⟨-, rfl⟩ := Signature.addState_eq_ok_iff.1 hg
    -- a new state has no row, and rows do not have to be there
    have hstates : ∀ p ∈ n.states, p ∈ n.states ++ [q] := fun p hp => List.mem_append_left _ hp
    exact { hsignature with
      transitions := h.transitions.mono hstates fun _ hrow => hrow.mono hstates fun _ hc => hc }
  | removeState q =>
    obtain ⟨g, hg, rfl⟩ := bind_pure_eq_ok_iff.1 he
    have hsignature := Signature.removeState_wellFormed h.toWellFormed hg
    obtain ⟨-, -, rfl⟩ := Signature.removeState_eq_ok_iff.1 hg
    -- nothing is led elsewhere: what led to the state just has one target less
    have hstates : ∀ p ∈ n.states, p ≠ q → p ∈ n.states.filter (· ≠ q) :=
      fun p hp hpq => List.mem_filter.2 ⟨hp, by simpa using hpq⟩
    exact { hsignature with transitions := erase_fits h.transitions hstates fun _ hc => hc }
  | addSymbol c =>
    obtain ⟨g, hg, rfl⟩ := bind_pure_eq_ok_iff.1 he
    have hsignature := Signature.addSymbol_wellFormed h.toWellFormed hg
    obtain ⟨-, rfl⟩ := Signature.addSymbol_eq_ok_iff.1 hg
    have halphabet : ∀ d ∈ n.alphabet, d ∈ n.alphabet ++ [c] :=
      fun d hd => List.mem_append_left _ hd
    exact { hsignature with
      transitions := h.transitions.mono (fun _ hp => hp)
        fun _ hrow => hrow.mono (fun _ hq => hq) halphabet }
  | removeSymbol c =>
    obtain ⟨g, hg, rfl⟩ := bind_pure_eq_ok_iff.1 he
    have hsignature := Signature.removeSymbol_wellFormed h.toWellFormed hg
    obtain ⟨-, rfl⟩ := Signature.removeSymbol_eq_ok_iff.1 hg
    -- empty moves are on no symbol of the alphabet, so they stay
    have halphabet : ∀ d ∈ n.alphabet, d ≠ c → d ∈ n.alphabet.filter (· ≠ c) :=
      fun d hd hdc => List.mem_filter.2 ⟨hd, by simpa using hdc⟩
    exact { hsignature with transitions := map_erase_fits h.transitions rfl halphabet }
  | setInitial q =>
    obtain ⟨g, hg, rfl⟩ := bind_pure_eq_ok_iff.1 he
    have hsignature := Signature.setInitial_wellFormed h.toWellFormed hg
    obtain ⟨-, rfl⟩ := Signature.setInitial_eq_ok_iff.1 hg
    exact { hsignature with transitions := h.transitions }
  | toggleAccepting q =>
    obtain ⟨g, hg, rfl⟩ := bind_pure_eq_ok_iff.1 he
    have hsignature := Signature.toggleAccepting_wellFormed h.toWellFormed hg
    obtain ⟨-, rfl⟩ := Signature.toggleAccepting_eq_ok_iff.1 hg
    exact { hsignature with transitions := h.transitions }
  -- the check of the transition is what makes it fit
  | addTransition p x q => exact addTransition_wellFormed h he
  | removeTransition p x q =>
    -- with a target less, nothing new is referred to
    obtain ⟨-, rfl⟩ := removeTransition_eq_ok_iff.1 he
    exact { h with transitions := map_removeTarget_fits h.transitions }
  | setUsesEpsilon on =>
    -- turning empty moves off leaves their entries in the table
    obtain rfl := (Except.ok.inj he).symm
    exact { h with transitions := h.transitions }

end

theorem declare_wellFormed {states : List String} {alphabet : List Char} {initial : String}
    {accepting : List String} {n : NFA} (h : declare states alphabet initial accepting = .ok n) :
    n.WellFormed := by
  obtain ⟨g, hg, rfl⟩ := bind_pure_eq_ok_iff.1 h
  exact { (Signature.declare_eq_ok_iff.1 hg).2 with transitions := SortedMap.all_empty }

theorem ofDescription_wellFormed {e : Description} {n : NFA} (h : ofDescription e = .ok n) :
    n.WellFormed := by
  obtain ⟨-, h⟩ := check_bind_eq_ok_iff.1 h
  obtain ⟨n₁, hdeclare, h⟩ := bind_eq_ok_iff.1 h
  obtain ⟨n₂, hrows, rfl⟩ := bind_pure_eq_ok_iff.1 h
  -- entering a description adds one transition after the other
  have h₂ : n₂.WellFormed := by
    refine foldlM_invariant (fun m row m' hm hrow => ?_) (declare_wellFormed hdeclare) hrows
    refine foldlM_invariant (fun m targets m' hm htargets => ?_) hm hrow
    exact foldlM_invariant (fun m q m' hm hq => addTransition_wellFormed hm hq) hm htargets
  exact { h₂ with transitions := h₂.transitions }

/-- **Whatever its history, an automaton is well formed.** -/
theorem built_wellFormed {n : NFA} (h : n.Built) : n.WellFormed := by
  induction h with
  | declared h => exact declare_wellFormed h
  | described h => exact ofDescription_wellFormed h
  | edited _ he ih => exact edit_wellFormed ih he

/-! ## Refusals -/

/-- What a change needs of the automaton. -/
def Admits (n : NFA) : Edit → Prop
  | .addState q => q ≠ "" ∧ q ∉ n.states
  | .removeState q => q ∈ n.states ∧ n.states.length ≠ 1
  | .addSymbol c => c ≠ epsilonSign ∧ c ∉ n.alphabet
  | .removeSymbol c => c ∈ n.alphabet
  | .setInitial q | .toggleAccepting q => q ∈ n.states
  | .addTransition p x q | .removeTransition p x q =>
    (n.Knows x ∧ n.enables x = true) ∧ p ∈ n.states ∧ q ∈ n.states
  | .setUsesEpsilon _ => True

/-- A change is made exactly if the automaton has what it needs. -/
theorem exists_edit_eq_ok_iff {n : NFA} {e : Edit} : (∃ n', n.edit e = .ok n') ↔ n.Admits e := by
  cases e with
  | addState q =>
    refine exists_bind_pure_eq_ok_iff.trans ?_
    simp [Admits, Signature.addState_eq_ok_iff]
  | removeState q =>
    refine exists_bind_pure_eq_ok_iff.trans ?_
    simp [Admits, Signature.removeState_eq_ok_iff]
  | addSymbol c =>
    refine exists_bind_pure_eq_ok_iff.trans ?_
    simp [Admits, Signature.addSymbol_eq_ok_iff]
  | removeSymbol c =>
    refine exists_bind_pure_eq_ok_iff.trans ?_
    simp [Admits, Signature.removeSymbol_eq_ok_iff]
  | setInitial q =>
    refine exists_bind_pure_eq_ok_iff.trans ?_
    simp [Admits, Signature.setInitial_eq_ok_iff]
  | toggleAccepting q =>
    refine exists_bind_pure_eq_ok_iff.trans ?_
    simp [Admits, Signature.toggleAccepting_eq_ok_iff]
  | addTransition p x q => simp [edit, Admits, addTransition_eq_ok_iff, checkEdge_eq_ok_iff]
  | removeTransition p x q =>
    simp [edit, Admits, removeTransition_eq_ok_iff, checkEdge_eq_ok_iff]
  | setUsesEpsilon on => simp [edit, Admits]

/--
**Whatever its history, nothing in an automaton refers to what is not declared.**

Names are given once, none is empty or reserved, and there is a state. Each row is that of a
declared state, each symbol in it is the empty move or one of the alphabet, and each target is
declared. This is said of the table as it is kept, so also of empty moves while they are turned off.
A change for which something is missing is refused and gives no automaton.
-/
theorem nothing_dangles {n : NFA} (hn : n.Built) :
    (n.states ≠ [] ∧ n.states.Nodup ∧ "" ∉ n.states)
      ∧ (n.alphabet.Nodup ∧ epsilonSign ∉ n.alphabet)
      ∧ (n.initial ∈ n.states ∧ ∀ q ∈ n.accepting, q ∈ n.states)
      ∧ (∀ p row, n.transitions.get? p = some row →
        p ∈ n.states ∧ row.get? (.char epsilonSign) = none
          ∧ ∀ x s, row.get? x = some s →
            (∀ c, x = .char c → c ∈ n.alphabet) ∧ ∀ q ∈ s, q ∈ n.states)
      ∧ ∀ e, (n.Admits e → ∃ n', n.edit e = .ok n')
        ∧ (¬n.Admits e → ∃ cause, n.edit e = .error cause) := by
  have h := built_wellFormed hn
  refine ⟨⟨h.nonempty, h.states, h.named⟩, ⟨h.alphabet, h.unreserved⟩, ⟨h.initial, h.accepting⟩,
    fun p row hrow => ?_, fun e => ⟨exists_edit_eq_ok_iff.2, fun hnot => ?_⟩⟩
  · obtain ⟨hp, hfits⟩ := h.transitions p row hrow
    refine ⟨hp, ?_, fun x s hs => ⟨?_, (hfits x s hs).2⟩⟩
    · -- a row on the reserved sign would put it into the alphabet
      exact hfits.get?_eq_none h.unreserved
    · rintro c rfl
      exact (hfits _ s hs).1
  · cases he : n.edit e with
    | ok n' => exact absurd (exists_edit_eq_ok_iff.1 ⟨n', he⟩) hnot
    | error cause => exact ⟨cause, rfl⟩

/-- What is left when a state goes that an empty move led to, while empty moves are turned off. -/
def trimmed : NFA where
  states := ["0", "2"]
  alphabet := ['a']
  initial := "0"
  accepting := .ofList ["2"]
  transitions := .ofList [("0", .ofList [(.epsilon, ∅), (.char 'a', .ofList ["2"])])]
  usesEpsilon := false

theorem trimmed_built : trimmed.Built := by
  have h : declare ["0", "1", "2"] ['a'] "0" ["1", "2"]
      = .ok
        { states := ["0", "1", "2"], alphabet := ['a'], initial := "0"
          accepting := .ofList ["1", "2"], transitions := ∅, usesEpsilon := true } := rfl
  have hempty := Built.edited (e := .addTransition "0" .epsilon "1") (.declared h) rfl
  have hadd := Built.edited (e := .addTransition "0" (.char 'a') "2") hempty rfl
  have hoff := Built.edited (e := .setUsesEpsilon false) hadd rfl
  exact .edited (e := .removeState "1") hoff rfl

theorem trimmed_nothing_dangles :
    trimmed.Built ∧ (trimmed.transitions.get? "0").isSome ∧ "0" ∈ trimmed.states
      ∧ (∃ n, trimmed.edit (.addTransition "2" (.char 'a') "0") = .ok n)
      ∧ ∃ cause, trimmed.edit (.addTransition "2" .epsilon "0") = .error cause := by
  obtain ⟨-, -, -, hrows, hedits⟩ := nothing_dangles trimmed_built
  have hrow : trimmed.transitions.get? "0"
      = some (.ofList [(.epsilon, ∅), (.char 'a', .ofList ["2"])]) := rfl
  have hadmits : trimmed.Admits (.addTransition "2" (.char 'a') "0") := by
    simp [Admits, Signature.Knows, enables, trimmed]
  have hrefuses : ¬trimmed.Admits (.addTransition "2" .epsilon "0") := by
    simp [Admits, enables, trimmed]
  exact ⟨trimmed_built, by rw [hrow]; rfl, (hrows "0" _ hrow).1, (hedits _).1 hadmits,
    (hedits _).2 hrefuses⟩

end NFA

end AutomataLab
