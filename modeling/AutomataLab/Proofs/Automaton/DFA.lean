import AutomataLab.Automaton.Description
import AutomataLab.Proofs.Automaton.Signature

/-!
# Deterministic automata that can come up

An automaton comes from a declaration or a description, and from there by edits (`Built`). Whatever
its history, its table is full: it has an entry for each declared state and each symbol of the
alphabet and for nothing else, and every entry leads to a declared state (`built_wellFormed`).

A table that fits what is declared may have gaps (`TableFits`). They come from declaring a state or
a symbol, and filling closes them (`fill_full`); the other edits go from a full table straight to a
full table.
-/

namespace AutomataLab.DFA

/-! ## Histories -/

/-- A change that is asked for. -/
inductive Edit where
  | addState (q : String)
  | removeState (q : String)
  | addSymbol (c : Char)
  | removeSymbol (c : Char)
  | setInitial (q : String)
  | toggleAccepting (q : String)
  | setTransition (p : String) (c : Char) (q : String)

/-- The automaton after a change, unless it is refused. -/
def edit (d : DFA) : Edit → Except AutomatonError DFA
  | .addState q => d.addState q
  | .removeState q => d.removeState q
  | .addSymbol c => d.addSymbol c
  | .removeSymbol c => d.removeSymbol c
  | .setInitial q => d.setInitial q
  | .toggleAccepting q => d.toggleAccepting q
  | .setTransition p c q => d.setTransition p c q

/-- The automata that can come up. -/
inductive Built : DFA → Prop
  | declared {states : List String} {alphabet : List Char} {initial : String}
      {accepting : List String} {d : DFA} :
      declare states alphabet initial accepting = .ok d → Built d
  | described {e : Description} {d : DFA} : ofDescription e = .ok d → Built d
  | edited {d d' : DFA} {e : Edit} : Built d → d.edit e = .ok d' → Built d'

/-! ## Full tables -/

/-- The moves from one state are on symbols of the alphabet and lead to declared states. -/
def RowFits (g : Signature) (row : Row) : Prop :=
  row.All (· ∈ g.alphabet) (· ∈ g.states)

/-- The moves are from declared states, on symbols of the alphabet and to declared states. -/
def TableFits (g : Signature) (table : Table) : Prop :=
  table.All (· ∈ g.states) (RowFits g)

/-- There is a move for each symbol of the alphabet. -/
def RowComplete (g : Signature) (row : Row) : Prop :=
  ∀ c ∈ g.alphabet, ∃ q, row.get? c = some q

/-- The table fits what is declared and has no gap. -/
structure TableFull (g : Signature) (table : Table) : Prop where
  /-- Nothing in it refers to what is not declared. -/
  fits : TableFits g table
  /-- Each declared state has a row with a move for each symbol. -/
  complete : ∀ p ∈ g.states, ∃ row, table.get? p = some row ∧ RowComplete g row

/-- The signature is well formed and the table is full. -/
structure WellFormed (d : DFA) : Prop extends d.toSignature.WellFormed where
  /-- There is a move for each declared state and each symbol, and no other. -/
  transitions : TableFull d.toSignature d.transitions

section

variable {g g' : Signature} {row : Row} {table : Table}

/-! ## Filling closes all gaps -/

theorem get?_fillRow {alphabet : List Char} {q : String} {c : Char} :
    (fillRow alphabet q row).get? c
      = if c ∈ alphabet then some ((row.get? c).getD q) else row.get? c := by
  unfold fillRow
  induction alphabet generalizing row with
  | nil => simp
  | cons a rest ih =>
    rw [List.foldl_cons, ih, SortedMap.get?_update]
    by_cases hca : c = a
    · -- what was filled in first stays, as a later pass finds an entry there
      subst hca
      simp
    · simp [hca]

/-- Filling a row again changes nothing. -/
theorem fillRow_fillRow {alphabet : List Char} {q : String} :
    fillRow alphabet q (fillRow alphabet q row) = fillRow alphabet q row := by
  ext1 c
  rw [get?_fillRow, get?_fillRow]
  by_cases hc : c ∈ alphabet <;> simp [hc]

theorem get?_fill {p : String} : (fill g table).get? p
    = if p ∈ g.states then some (fillRow g.alphabet g.defaultState ((table.get? p).getD ∅))
      else table.get? p := by
  unfold fill
  generalize g.states = states
  induction states generalizing table with
  | nil => simp
  | cons q rest ih =>
    rw [List.foldl_cons, ih, SortedMap.get?_update]
    by_cases hpq : p = q
    · subst hpq
      simp [fillRow_fillRow]
    · simp [hpq]

theorem rowFits_fillRow {q : String} (h : RowFits g row) (hq : q ∈ g.states) :
    RowFits g (fillRow g.alphabet q row) := by
  intro c r hr
  rw [get?_fillRow] at hr
  split at hr
  · next hc =>
    obtain rfl := Option.some.inj hr
    cases hrow : row.get? c with
    | none => exact ⟨hc, hq⟩
    | some r => exact h c r hrow
  · exact h c r hr

/-- **A table that fits is full once it has been filled.** -/
theorem fill_full (h : TableFits g table) (hdefault : g.defaultState ∈ g.states) :
    TableFull g (fill g table) where
  fits := by
    intro p row hrow
    rw [get?_fill] at hrow
    split at hrow
    · next hp =>
      obtain rfl := Option.some.inj hrow
      exact ⟨hp, rowFits_fillRow (h.getD SortedMap.all_empty p) hdefault⟩
    · exact h p row hrow
  complete := by
    intro p hp
    refine ⟨_, by rw [get?_fill, if_pos hp], fun c hc => ?_⟩
    exact ⟨_, by rw [get?_fillRow, if_pos hc]⟩

/-! ## Edits of a full table -/

theorem setEntry_full {p q : String} {c : Char} (h : TableFull g table) (hp : p ∈ g.states)
    (hc : c ∈ g.alphabet) (hq : q ∈ g.states) : TableFull g (setEntry table p c q) := by
  constructor
  · have hrow : RowFits g ((table.get? p).getD ∅) := h.fits.getD SortedMap.all_empty p
    exact h.fits.update hp (hrow.insert hc hq)
  · intro a ha
    obtain ⟨row, hrow, hcomplete⟩ := h.complete a ha
    rw [setEntry, SortedMap.get?_update]
    split
    · next hap =>
      subst hap
      -- the row of `p` keeps its moves but for the one that is replaced
      refine ⟨_, rfl, fun b hb => ?_⟩
      rw [SortedMap.get?_insert, hrow]
      split
      · exact ⟨q, rfl⟩
      · exact hcomplete b hb
    · exact ⟨row, hrow, hcomplete⟩

/-- Without a state, and with the moves into it led elsewhere, a full table is full for the states
that are left. -/
theorem redirect_full {q t : String} (h : TableFull g table)
    (hstates : ∀ p, p ∈ g'.states ↔ p ∈ g.states ∧ p ≠ q) (halphabet : g'.alphabet = g.alphabet)
    (ht : t ∈ g'.states) :
    TableFull g' ((table.erase q).map fun _ row => row.map fun _ r => if r = q then t else r) := by
  constructor
  · -- a move into the removed state is led to `t`, any other one has a target that is left
    have hled : ∀ r, r ∈ g.states → (if r = q then t else r) ∈ g'.states := by
      intro r hr
      split
      · exact ht
      · next hrq => exact (hstates r).2 ⟨hr, hrq⟩
    have hrows : ∀ row, RowFits g row → RowFits g' (row.map fun _ r => if r = q then t else r) :=
      fun row hrow => (hrow.map fun _ r => hled r).mono (fun c hc => halphabet ▸ hc) fun _ hr => hr
    exact ((h.fits.erase q).map fun _ row => hrows row).mono (fun p => (hstates p).2) fun _ hr => hr
  · intro p hp
    obtain ⟨hp, hpq⟩ := (hstates p).1 hp
    obtain ⟨row, hrow, hcomplete⟩ := h.complete p hp
    refine ⟨row.map fun _ r => if r = q then t else r, ?_, fun c hc => ?_⟩
    · rw [SortedMap.get?_map, SortedMap.get?_erase, if_neg hpq, hrow]
      rfl
    · obtain ⟨r, hr⟩ := hcomplete c (halphabet ▸ hc)
      exact ⟨if r = q then t else r, by rw [SortedMap.get?_map, hr]; rfl⟩

theorem map_erase_full {c : Char} (h : TableFull g table) (hstates : g'.states = g.states)
    (halphabet : ∀ b, b ∈ g'.alphabet ↔ b ∈ g.alphabet ∧ b ≠ c) :
    TableFull g' (table.map fun _ row => row.erase c) := by
  constructor
  · have hkept : ∀ p ∈ g.states, p ∈ g'.states := fun p hp => hstates ▸ hp
    have hrows : ∀ row, RowFits g row → RowFits g' (row.erase c) :=
      fun row hrow => (hrow.erase c).mono (fun b => (halphabet b).2) hkept
    exact (h.fits.map fun _ row => hrows row).mono hkept fun _ hrow => hrow
  · intro p hp
    obtain ⟨row, hrow, hcomplete⟩ := h.complete p (hstates ▸ hp)
    -- only the entry of the removed symbol is missed, and it is not asked for
    refine ⟨row.erase c, by rw [SortedMap.get?_map, hrow]; rfl, fun b hb => ?_⟩
    obtain ⟨hb, hbc⟩ := (halphabet b).1 hb
    rw [SortedMap.get?_erase, if_neg hbc]
    exact hcomplete b hb

end

/-! ## Histories keep automata well formed -/

theorem setTransition_eq_ok_iff {d d' : DFA} {p q : String} {c : Char} :
    d.setTransition p c q = .ok d' ↔ c ∈ d.alphabet ∧ p ∈ d.states ∧ q ∈ d.states
      ∧ d' = { d with transitions := setEntry d.transitions p c q } := by
  rw [setTransition, check_bind_eq_ok_iff, check_bind_eq_ok_iff, check_bind_eq_ok_iff,
    pure_eq_ok_iff, Signature.checkSymbol_eq_ok_iff, Signature.checkState_eq_ok_iff,
    Signature.checkState_eq_ok_iff]

theorem edit_wellFormed {d d' : DFA} {e : Edit} (h : d.WellFormed) (he : d.edit e = .ok d') :
    d'.WellFormed := by
  cases e with
  | addState q =>
    obtain ⟨g, hg, rfl⟩ := bind_pure_eq_ok_iff.1 he
    have hsignature := Signature.addState_wellFormed h.toWellFormed hg
    obtain ⟨-, rfl⟩ := Signature.addState_eq_ok_iff.1 hg
    have hstates : ∀ p ∈ d.states, p ∈ d.states ++ [q] := fun p hp => List.mem_append_left _ hp
    -- what is there goes on to fit, and the moves of the new state are filled in
    have hfits := h.transitions.fits.mono hstates fun _ hrow => hrow.mono (fun _ hc => hc) hstates
    exact { hsignature with transitions := fill_full hfits hsignature.defaultState_mem }
  | removeState q =>
    obtain ⟨g, hg, rfl⟩ := bind_pure_eq_ok_iff.1 he
    have hsignature := Signature.removeState_wellFormed h.toWellFormed hg
    obtain ⟨-, -, rfl⟩ := Signature.removeState_eq_ok_iff.1 hg
    -- moves are led to the first of the states that are left
    exact { hsignature with
      transitions := redirect_full h.transitions (by simp) rfl hsignature.defaultState_mem }
  | addSymbol c =>
    obtain ⟨g, hg, rfl⟩ := bind_pure_eq_ok_iff.1 he
    have hsignature := Signature.addSymbol_wellFormed h.toWellFormed hg
    obtain ⟨-, rfl⟩ := Signature.addSymbol_eq_ok_iff.1 hg
    have halphabet : ∀ b ∈ d.alphabet, b ∈ d.alphabet ++ [c] :=
      fun b hb => List.mem_append_left _ hb
    have hfits := h.transitions.fits.mono (fun _ hp => hp)
      fun _ hrow => hrow.mono halphabet fun _ hq => hq
    exact { hsignature with transitions := fill_full hfits hsignature.defaultState_mem }
  | removeSymbol c =>
    obtain ⟨g, hg, rfl⟩ := bind_pure_eq_ok_iff.1 he
    have hsignature := Signature.removeSymbol_wellFormed h.toWellFormed hg
    obtain ⟨-, rfl⟩ := Signature.removeSymbol_eq_ok_iff.1 hg
    -- no gap comes about, as the symbol goes from the alphabet and from every row
    exact { hsignature with transitions := map_erase_full h.transitions rfl (by simp) }
  | setInitial q =>
    obtain ⟨g, hg, rfl⟩ := bind_pure_eq_ok_iff.1 he
    have hsignature := Signature.setInitial_wellFormed h.toWellFormed hg
    obtain ⟨-, rfl⟩ := Signature.setInitial_eq_ok_iff.1 hg
    -- the table does not depend on which state is the first, nor on which are accepting
    exact { hsignature with transitions := ⟨h.transitions.fits, h.transitions.complete⟩ }
  | toggleAccepting q =>
    obtain ⟨g, hg, rfl⟩ := bind_pure_eq_ok_iff.1 he
    have hsignature := Signature.toggleAccepting_wellFormed h.toWellFormed hg
    obtain ⟨-, rfl⟩ := Signature.toggleAccepting_eq_ok_iff.1 hg
    exact { hsignature with transitions := ⟨h.transitions.fits, h.transitions.complete⟩ }
  | setTransition p c q =>
    obtain ⟨hc, hp, hq, rfl⟩ := setTransition_eq_ok_iff.1 he
    exact { h with transitions := setEntry_full h.transitions hp hc hq }

theorem declare_wellFormed {states : List String} {alphabet : List Char} {initial : String}
    {accepting : List String} {d : DFA} (h : declare states alphabet initial accepting = .ok d) :
    d.WellFormed := by
  obtain ⟨g, hg, rfl⟩ := bind_pure_eq_ok_iff.1 h
  have hsignature := (Signature.declare_eq_ok_iff.1 hg).2
  exact { hsignature with
    transitions := fill_full SortedMap.all_empty hsignature.defaultState_mem }

theorem enter_eq_ok_iff {g : Signature} {p : String} {table table' : Table} {e : Char × String} :
    enter g p table e = .ok table'
      ↔ e.1 ∈ g.alphabet ∧ e.2 ∈ g.states ∧ table' = setEntry table p e.1 e.2 := by
  rw [enter, check_bind_eq_ok_iff, check_bind_eq_ok_iff, pure_eq_ok_iff,
    Signature.checkSymbol_eq_ok_iff, Signature.checkState_eq_ok_iff]

theorem ofDescription_wellFormed {e : Description} {d : DFA} (h : ofDescription e = .ok d) :
    d.WellFormed := by
  obtain ⟨d₁, hdeclare, h⟩ := bind_eq_ok_iff.1 h
  obtain ⟨table, hrows, rfl⟩ := bind_pure_eq_ok_iff.1 h
  have h₁ := declare_wellFormed hdeclare
  -- entering a description replaces one entry after the other
  have htable : TableFull d₁.toSignature table := by
    refine foldlM_invariant (fun t row t' ht hrow => ?_) h₁.transitions hrows
    obtain ⟨hp, hrow⟩ := check_bind_eq_ok_iff.1 hrow
    refine foldlM_invariant (fun u x u' hu hx => ?_) ht hrow
    obtain ⟨hc, hq, rfl⟩ := enter_eq_ok_iff.1 hx
    exact setEntry_full hu (Signature.checkState_eq_ok_iff.1 hp) hc hq
  exact { h₁ with transitions := htable }

/-- **Whatever its history, an automaton has a full table.** -/
theorem built_wellFormed {d : DFA} (h : d.Built) : d.WellFormed := by
  induction h with
  | declared h => exact declare_wellFormed h
  | described h => exact ofDescription_wellFormed h
  | edited _ he ih => exact edit_wellFormed ih he

/-! ## Moves -/

section

variable {d : DFA} {q r : String} {c : Char}

theorem target?_eq_some_iff : d.target? q c = some r
    ↔ ∃ row, d.transitions.get? q = some row ∧ row.get? c = some r :=
  Option.bind_eq_some_iff

theorem WellFormed.of_target? (h : d.WellFormed) (hr : d.target? q c = some r) :
    q ∈ d.states ∧ c ∈ d.alphabet ∧ r ∈ d.states := by
  obtain ⟨row, hrow, hr⟩ := target?_eq_some_iff.1 hr
  obtain ⟨hq, hfits⟩ := h.transitions.fits q row hrow
  exact ⟨hq, hfits c r hr⟩

theorem WellFormed.exists_target? (h : d.WellFormed) (hq : q ∈ d.states) (hc : c ∈ d.alphabet) :
    ∃ r, d.target? q c = some r := by
  obtain ⟨row, hrow, hcomplete⟩ := h.transitions.complete q hq
  obtain ⟨r, hr⟩ := hcomplete c hc
  exact ⟨r, target?_eq_some_iff.2 ⟨row, hrow, hr⟩⟩

theorem next_of_target? (hc : c ∈ d.alphabet) (hr : d.target? q c = some r) :
    d.next q c = .ok r := by
  rw [next, Signature.checkSymbol_eq_ok_iff.2 hc, hr]
  rfl

end

/--
**Whatever its history, an automaton has one move for each state and symbol.**

Names are given once, none is empty or reserved, and what is referred to is declared. The table has
an entry exactly for the declared states and the symbols of the alphabet, and leads to declared
states, so every such move can be taken. There is a first state, and it is the one that missing
entries are filled with and that stands in for a removed state.
-/
theorem moves_total {d : DFA} (hd : d.Built) :
    (d.states ≠ [] ∧ d.states.Nodup ∧ "" ∉ d.states)
      ∧ (d.alphabet.Nodup ∧ epsilonSign ∉ d.alphabet)
      ∧ (d.initial ∈ d.states ∧ ∀ q ∈ d.accepting, q ∈ d.states)
      ∧ (∀ q c, (∃ r, d.target? q c = some r) ↔ q ∈ d.states ∧ c ∈ d.alphabet)
      ∧ (∀ q c r, d.target? q c = some r → r ∈ d.states)
      ∧ (∀ q ∈ d.states, ∀ c ∈ d.alphabet, ∃ r ∈ d.states, d.next q c = .ok r)
      ∧ d.states.head? = some d.defaultState := by
  have h := built_wellFormed hd
  refine ⟨⟨h.nonempty, h.states, h.named⟩, ⟨h.alphabet, h.unreserved⟩, ⟨h.initial, h.accepting⟩,
    fun q c => ⟨?_, ?_⟩, fun q c r hr => (h.of_target? hr).2.2, fun q hq c hc => ?_, h.head?_states⟩
  · -- no entry is left over from what was removed
    rintro ⟨r, hr⟩
    obtain ⟨hq, hc, -⟩ := h.of_target? hr
    exact ⟨hq, hc⟩
  · rintro ⟨hq, hc⟩
    exact h.exists_target? hq hc
  · obtain ⟨r, hr⟩ := h.exists_target? hq hc
    exact ⟨r, (h.of_target? hr).2.2, next_of_target? hc hr⟩

/-- Started in a state that is gone, with moves that led to it and a symbol that came later. -/
def regrown : DFA where
  states := ["1", "2"]
  alphabet := ['a', 'b']
  initial := "1"
  accepting := .ofList ["2"]
  transitions := .ofList [("1", .ofList [('a', "2"), ('b', "1")]),
    ("2", .ofList [('a', "1"), ('b', "1")])]

theorem regrown_built : regrown.Built := by
  have h : declare ["0", "1", "2"] ['a'] "0" ["0", "2"]
      = .ok
        { states := ["0", "1", "2"], alphabet := ['a'], initial := "0"
          accepting := .ofList ["0", "2"]
          transitions := .ofList [("0", .ofList [('a', "0")]), ("1", .ofList [('a', "0")]),
            ("2", .ofList [('a', "0")])] } := rfl
  have hset := Built.edited (e := .setTransition "1" 'a' "2") (.declared h) rfl
  have hremove := Built.edited (e := .removeState "0") hset rfl
  exact .edited (e := .addSymbol 'b') hremove rfl

theorem regrown_moves_total :
    regrown.Built ∧ regrown.target? "2" 'a' = some "1" ∧ regrown.target? "0" 'a' = none
      ∧ "1" ∈ regrown.states ∧ ∃ r ∈ regrown.states, regrown.next "2" 'b' = .ok r := by
  obtain ⟨-, -, -, hdefined, htargets, hnext, -⟩ := moves_total regrown_built
  have htarget : regrown.target? "2" 'a' = some "1" := rfl
  refine ⟨regrown_built, htarget, ?_, htargets "2" 'a' "1" htarget,
    hnext "2" (by decide) 'b' (by decide)⟩
  exact Option.eq_none_iff_forall_ne_some.2 fun r hr =>
    absurd ((hdefined "0" 'a').1 ⟨r, hr⟩).1 (by decide)

end AutomataLab.DFA
