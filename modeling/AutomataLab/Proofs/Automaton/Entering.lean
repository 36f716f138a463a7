import AutomataLab.Proofs.Automaton.EditedMoves
import AutomataLab.Proofs.Automaton.Loading

/-!
# A table entered move by move

The table that describes a deterministic automaton is laid over the one that leads to the first
state throughout. The same automaton comes from declaring the names and then setting the moves of
the table one at a time: each move that is set is there until another one is set for the same state
and symbol (`entryAt_setEntries`), and a table does not have two. So the order in which they are set
does not matter, for any automaton (`setAll_eq_self`) and for the described one (`setAll_of_perm`).
-/

namespace AutomataLab.DFA

/-! ## Moves that are set in a row -/

/-- The entries of a table, one by one. -/
def entryList (table : Table) : List (Transition Char) :=
  table.entries.flatMap fun r => r.2.entries.map fun e => ⟨r.1, e.1, e.2⟩

/-- Set the moves of a list, one after the other. -/
def setAll (d : DFA) (l : List (Transition Char)) : Except AutomatonError DFA :=
  l.foldlM (fun d e => d.setTransition e.source e.symbol e.target) d

/-- The table with the moves of a list. -/
def setEntries (table : Table) (l : List (Transition Char)) : Table :=
  l.foldl (fun table e => setEntry table e.source e.symbol e.target) table

section

variable {table : Table} {l : List (Transition Char)} {p q : String} {c : Char}

theorem mem_entryList : ⟨p, c, q⟩ ∈ entryList table ↔ entryAt table p c = some q := by
  -- a look-up and the listing ask for the same row and the same entry of it
  rw [entryAt, Option.bind_eq_some_iff]
  simp only [entryList, List.mem_flatMap, List.mem_map, Transition.mk.injEq,
    SortedMap.get?_eq_some_iff, Prod.exists]
  constructor
  · rintro ⟨p', row, hrow, c', q', hq, rfl, rfl, rfl⟩
    exact ⟨row, hrow, hq⟩
  · rintro ⟨row, hrow, hq⟩
    exact ⟨p, row, hrow, c, q, hq, rfl, rfl, rfl⟩

theorem setAll_eq_ok_iff {d d' : DFA} : d.setAll l = .ok d'
    ↔ (∀ e ∈ l, e.symbol ∈ d.alphabet ∧ e.source ∈ d.states ∧ e.target ∈ d.states)
      ∧ d' = { d with transitions := setEntries d.transitions l } := by
  -- the checks look at the declarations alone, which setting a move does not change
  refine foldlM_eq_ok_iff (fun t => { d with transitions := t }) fun t e d' => ?_
  rw [setTransition_eq_ok_iff, and_assoc, and_assoc]

theorem setAll_wellFormed {d d' : DFA} (h : d.WellFormed) (he : d.setAll l = .ok d') :
    d'.WellFormed := by
  refine foldlM_invariant (fun d e d' hd hset => ?_) h he
  exact edit_wellFormed (e := .setTransition e.source e.symbol e.target) hd hset

/-- A move that was there or is set is there in the end if no other one is set in its place. -/
theorem entryAt_setEntries (hother : ∀ r, ⟨p, c, r⟩ ∈ l → r = q)
    (h : ⟨p, c, q⟩ ∈ l ∨ entryAt table p c = some q) :
    entryAt (setEntries table l) p c = some q := by
  unfold setEntries
  induction l generalizing table with
  | nil => exact h.resolve_left List.not_mem_nil
  | cons e rest ih =>
    rw [List.foldl_cons]
    refine ih (fun r hr => hother r (List.mem_cons_of_mem e hr)) ?_
    rw [entryAt_setEntry]
    split
    · next he =>
      -- the move that is set first has the state and the symbol, so it is the one in question
      obtain ⟨rfl, rfl⟩ := he
      exact Or.inr (congrArg some (hother e.target List.mem_cons_self))
    · next he =>
      refine h.imp (fun hmem => ?_) id
      rcases List.mem_cons.1 hmem with rfl | hmem
      · exact absurd ⟨rfl, rfl⟩ he
      · exact hmem

/-- **An automaton comes from setting its moves, in any order.** Moves to the first state may be
left out, and moves may be set more than once. -/
theorem setAll_eq_self {d : DFA} (h : d.WellFormed)
    (hmem : ∀ p c q, ⟨p, c, q⟩ ∈ l → entryAt d.transitions p c = some q)
    (hall : ∀ p c q, entryAt d.transitions p c = some q →
      ⟨p, c, q⟩ ∈ l ∨ entryAt (fill d.toSignature ∅) p c = some q) :
    DFA.setAll ⟨d.toSignature, fill d.toSignature ∅⟩ l = .ok d := by
  have hfits : ∀ e ∈ l, e.symbol ∈ d.alphabet ∧ e.source ∈ d.states ∧ e.target ∈ d.states := by
    intro e he
    obtain ⟨hp, hc, hq⟩ := h.of_target? (hmem _ _ _ he)
    exact ⟨hc, hp, hq⟩
  have hset := (setAll_eq_ok_iff (d := ⟨d.toSignature, fill d.toSignature ∅⟩)).2 ⟨hfits, rfl⟩
  -- the fold starts from a full table, so it ends with one
  have hblank : WellFormed ⟨d.toSignature, fill d.toSignature ∅⟩ :=
    declare_wellFormed (bind_pure_eq_ok_iff.2 ⟨_, h.declare_self, rfl⟩)
  -- both tables are full, and what is in the one is in the other
  have htable := h.transitions.ext (setAll_wellFormed hblank hset).transitions fun p c q hq =>
    entryAt_setEntries (fun r hr => Option.some.inj ((hmem p c r hr).symm.trans hq))
      (hall p c q hq)
  rw [hset]
  exact congrArg (fun t => Except.ok (DFA.mk d.toSignature t)) htable.symm

end

/-! ## Accepted descriptions -/

section

variable {e : Description} {d : DFA}

/-- **What a description describes, if it does.** -/
theorem ofDescription_eq_ok_iff_fits : ofDescription e = .ok d
    ↔ e.NamesFit ∧ TableFits e.signature e.transitions
      ∧ d = ⟨e.signature, overlay (fill e.signature ∅) e.transitions⟩ := by
  constructor
  · intro h
    obtain ⟨d₁, hdeclare, -⟩ := bind_eq_ok_iff.1 h
    obtain ⟨g, hg, -⟩ := bind_pure_eq_ok_iff.1 hdeclare
    obtain ⟨hfits, hd⟩ := (ofDescription_eq_ok_iff hg).1 h
    obtain ⟨rfl, hnames⟩ := Description.declare_eq_ok_iff.1 hg
    exact ⟨hnames, hfits, hd⟩
  · rintro ⟨hnames, hfits, hd⟩
    exact (ofDescription_eq_ok_iff (Description.declare_eq_ok_iff.2 ⟨rfl, hnames⟩)).2 ⟨hfits, hd⟩

/-- **The described automaton comes from setting its moves, in any order.** -/
theorem setAll_of_perm (h : ofDescription e = .ok d) {l : List (Transition Char)}
    (hl : l.Perm (entryList e.transitions)) :
    (declare e.states e.alphabet e.initialState e.accepting >>= (·.setAll l)) = .ok d := by
  have hwell := ofDescription_wellFormed h
  obtain ⟨hnames, -, rfl⟩ := ofDescription_eq_ok_iff_fits.1 h
  have hdeclare : declare e.states e.alphabet e.initialState e.accepting
      = .ok ⟨e.signature, fill e.signature ∅⟩ :=
    bind_pure_eq_ok_iff.2 ⟨_, Description.declare_eq_ok_iff.2 ⟨rfl, hnames⟩, rfl⟩
  -- only what is in the list counts
  have hgiven : ∀ p c q, ⟨p, c, q⟩ ∈ l ↔ entryAt e.transitions p c = some q :=
    fun p c q => hl.mem_iff.trans mem_entryList
  refine bind_eq_ok_iff.2 ⟨_, hdeclare, setAll_eq_self hwell (fun p c q hmem => ?_) ?_⟩
  · rw [entryAt_overlay, (hgiven p c q).1 hmem, Option.some_or]
  · intro p c q hq
    rw [entryAt_overlay] at hq
    exact (Option.or_eq_some_iff.1 hq).imp (hgiven p c q).2 And.right

/-- Each declared state has the given move on each symbol, or one to the first state. -/
theorem next_of_ofDescription (h : ofDescription e = .ok d) {q : String} {c : Char}
    (hq : q ∈ e.states) (hc : c ∈ e.alphabet) :
    d.next q c = .ok ((entryAt e.transitions q c).getD e.signature.defaultState) := by
  obtain ⟨-, -, rfl⟩ := ofDescription_eq_ok_iff_fits.1 h
  refine next_of_target? hc ?_
  refine entryAt_overlay.trans ?_
  rw [entryAt_fill, if_pos ⟨hq, hc⟩]
  cases entryAt e.transitions q c <;> rfl

end

/--
**A description is accepted exactly if it fits, and is then as good as setting its moves by hand.**

It describes an automaton exactly if the declared names fit, every state that has a row is declared,
even if the row is empty, every symbol in a row is in the alphabet, and every target is declared.
The automaton is the one that is declared with these names and then gets the given moves, in any
order. So on each symbol each state leads where it is said to, or else to the first state.
-/
theorem ofDescription_as_set (e : Description) :
    ((∃ d, ofDescription e = .ok d) ↔ e.NamesFit ∧ TableFits e.signature e.transitions)
      ∧ ∀ d, ofDescription e = .ok d →
        (∀ l : List (Transition Char), l.Perm (entryList e.transitions) →
          (declare e.states e.alphabet e.initialState e.accepting >>= (·.setAll l)) = .ok d)
        ∧ ∃ first, e.states.head? = some first ∧ ∀ q ∈ e.states, ∀ c ∈ e.alphabet,
          d.next q c = .ok ((entryAt e.transitions q c).getD first) := by
  refine ⟨⟨?_, ?_⟩, fun d h => ⟨fun l hl => setAll_of_perm h hl, ?_⟩⟩
  · rintro ⟨d, h⟩
    obtain ⟨hnames, hfits, -⟩ := ofDescription_eq_ok_iff_fits.1 h
    exact ⟨hnames, hfits⟩
  · rintro ⟨hnames, hfits⟩
    exact ⟨_, ofDescription_eq_ok_iff_fits.2 ⟨hnames, hfits, rfl⟩⟩
  · -- the names fit, so there is a first state
    have hwell := Description.signature_wellFormed_iff.2 (ofDescription_eq_ok_iff_fits.1 h).1
    exact ⟨e.signature.defaultState, hwell.head?_states, fun q hq c hc =>
      next_of_ofDescription h hq hc⟩

/-- Half of the moves are given, and one of the rows is empty. -/
def sketched : Description where
  states := ["p", "q"]
  alphabet := ['a', 'b']
  transitions := .ofList [("p", .ofList [('a', "q"), ('b', "q")]), ("q", ∅)]
  initial := some ""
  accepting := ["q", "q"]

theorem sketched_ofDescription_as_set :
    (∃ d, ofDescription sketched = .ok d
        ∧ (declare ["p", "q"] ['a', 'b'] "p" ["q", "q"] >>=
          (·.setAll [⟨"p", 'b', "q"⟩, ⟨"p", 'a', "q"⟩])) = .ok d
        ∧ d.next "p" 'b' = .ok "q" ∧ d.next "q" 'b' = .ok "p")
      ∧ sketched.NamesFit
      ∧ ¬∃ d, ofDescription { sketched with transitions := .ofList [("ghost", ∅)] } = .ok d := by
  obtain ⟨haccepts, hmoves⟩ := ofDescription_as_set sketched
  have h : ∃ d, ofDescription sketched = .ok d := ⟨_, rfl⟩
  have hnames := (haccepts.1 h).1
  obtain ⟨d, hd⟩ := h
  obtain ⟨hset, first, hfirst, hnext⟩ := hmoves d hd
  obtain rfl : "p" = first := Option.some.inj hfirst
  have hperm : List.Perm [⟨"p", 'b', "q"⟩, ⟨"p", 'a', "q"⟩] (entryList sketched.transitions) := by
    decide
  refine ⟨⟨d, hd, hset _ hperm, hnext "p" (by decide) 'b' (by decide),
    hnext "q" (by decide) 'b' (by decide)⟩, hnames, fun haccepted => ?_⟩
  have hfits := ((ofDescription_as_set _).1.1 haccepted).2
  exact absurd (hfits "ghost" ∅ rfl).1 (by decide)

end AutomataLab.DFA
