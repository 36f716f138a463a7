import AutomataLab.Proofs.Automaton.DFA
import AutomataLab.Proofs.Automaton.NFA

/-!
# What a description describes

The transitions of a description are entered one after the other, each only if it fits what is
declared. Both kinds of automaton are therefore described by two facts: a description is accepted if
its transitions fit (`enterRows_eq_ok_iff`), and then the table is the given one laid over the one
that was there.

An automaton has a description, and it is worth asking whether that describes the automaton. Of a
deterministic one it does (`DFA.ofDescription_describe`), since a full table is equal to one that
has all its entries (`DFA.TableFull.ext`). Of a nondeterministic one it does up to symbols without
targets and rows without symbols (`NFA.ofDescription_describe`). A description has nothing to enter
there, so the automaton it describes is without them, that is, tidy.
-/

namespace AutomataLab

/-- The names of a well-formed signature can be declared again, once its initial state is given. -/
theorem Signature.WellFormed.declare {g : Signature} (h : g.WellFormed) {τ : Type}
    {e : Description τ} (he : e.initial = some g.initial) :
    Signature.declare g.states g.alphabet e.initialState g.accepting.toList = .ok g := by
  have hnamed : g.initial ≠ "" := fun hempty => h.named (hempty ▸ h.initial)
  have hinitial : e.initialState = g.initial := by
    rw [Description.initialState, he]
    exact if_neg hnamed
  rw [hinitial, h.declare_self]

/-! ## Deterministic automata -/

namespace DFA

/-- The entry of a table for a state and a symbol. -/
def entryAt (table : Table) (p : String) (c : Char) : Option String :=
  (table.get? p).bind (·.get? c)

/-- The table with all entries of a row put in. -/
def overlayRow (p : String) (table : Table) (row : Row) : Table :=
  row.entries.foldl (fun table e => setEntry table p e.1 e.2) table

/-- The table with all entries of another one put in. -/
def overlay (table given : Table) : Table :=
  given.entries.foldl (fun table e => overlayRow e.1 table e.2) table

/-- What a deterministic automaton tells about itself. -/
def describe (d : DFA) : Description :=
  ⟨d.states, d.alphabet, d.transitions, some d.initial, d.accepting.toList⟩

section

variable {g : Signature} {table table' given : Table} {row : Row} {p a : String} {c : Char}

theorem entryAt_setEntry {q : String} {b : Char} : entryAt (setEntry table p c q) a b
    = if a = p ∧ b = c then some q else entryAt table a b := by
  rw [entryAt, setEntry, SortedMap.get?_update]
  by_cases ha : a = p
  · subst ha
    rw [if_pos rfl, Option.bind_some, SortedMap.get?_insert]
    by_cases hb : b = c
    · simp [hb]
    · rw [if_neg hb, if_neg (fun h => hb h.2), entryAt]
      cases table.get? a <;> rfl
  · simp [ha, entryAt]

theorem entryAt_overlayRow : entryAt (overlayRow p table row) a c
    = if a = p then (row.get? c).or (entryAt table a c) else entryAt table a c := by
  -- each entry of the row replaces what is seen at `c` if it is the one of `c`
  have hfold := SortedMap.foldl_entries (fun t => entryAt t a c) (k := c)
    (f := fun t e => setEntry t p e.1 e.2) (fun q old => if a = p then some q else old)
    (by simp [entryAt_setEntry])
    (fun t e he => by simp [entryAt_setEntry, Ne.symm he]) row table
  rw [overlayRow, hfold]
  cases row.get? c <;> simp

theorem entryAt_overlay :
    entryAt (overlay table given) p c = (entryAt given p c).or (entryAt table p c) := by
  have hfold := SortedMap.foldl_entries (fun t => entryAt t p c) (k := p)
    (f := fun t e => overlayRow e.1 t e.2) (fun row old => (row.get? c).or old)
    (by simp [entryAt_overlayRow])
    (fun t e he => by simp [entryAt_overlayRow, Ne.symm he]) given table
  rw [overlay, hfold]
  cases hrow : SortedMap.get? given p <;> simp [entryAt, hrow]

theorem enterRow_eq_ok_iff {e : String × Row} : enterRow g table e = .ok table'
    ↔ (e.1 ∈ g.states ∧ RowFits g e.2) ∧ table' = overlayRow e.1 table e.2 := by
  have hstep : ∀ t x t', enter g e.1 t x = .ok t'
      ↔ (x.1 ∈ g.alphabet ∧ x.2 ∈ g.states) ∧ t' = setEntry t e.1 x.1 x.2 :=
    fun t x t' => enter_eq_ok_iff.trans and_assoc.symm
  rw [enterRow, check_bind_eq_ok_iff, Signature.checkState_eq_ok_iff, and_assoc]
  -- the state of the row is checked once, and then the entries one by one
  refine and_congr_right fun _ => (foldlM_eq_ok_iff id hstep).trans (and_congr_left' ?_)
  exact SortedMap.forall_mem_entries_iff (P := fun c q => c ∈ g.alphabet ∧ q ∈ g.states)

/-- **The rows of a table are entered if the table fits.** -/
theorem enterRows_eq_ok_iff : given.entries.foldlM (enterRow g) table = .ok table'
    ↔ TableFits g given ∧ table' = overlay table given := by
  refine (foldlM_eq_ok_iff id fun t e t' => enterRow_eq_ok_iff).trans (and_congr_left' ?_)
  exact SortedMap.forall_mem_entries_iff (P := fun p row => p ∈ g.states ∧ RowFits g row)

theorem RowComplete.ext {row' : Row} (hcomplete : RowComplete g row) (h : RowFits g row)
    (h' : RowFits g row') (hget : ∀ c q, row.get? c = some q → row'.get? c = some q) :
    row = row' := by
  ext1 c
  by_cases hc : c ∈ g.alphabet
  · obtain ⟨q, hq⟩ := hcomplete c hc
    rw [hq, hget c q hq]
  · -- outside the alphabet neither row has an entry
    rw [h.get?_eq_none hc, h'.get?_eq_none hc]

/-- A full table is equal to one that has all its entries. -/
theorem TableFull.ext (h : TableFull g table) (h' : TableFull g table')
    (hentry : ∀ p c q, entryAt table p c = some q → entryAt table' p c = some q) :
    table = table' := by
  ext1 p
  by_cases hp : p ∈ g.states
  · obtain ⟨row, hrow, hcomplete⟩ := h.complete p hp
    obtain ⟨row', hrow', -⟩ := h'.complete p hp
    have hfits := (h.fits p row hrow).2
    have hfits' := (h'.fits p row' hrow').2
    rw [hrow, hrow', hcomplete.ext hfits hfits' fun c q hq => ?_]
    have hq' := hentry p c q (by rw [entryAt, hrow, Option.bind_some, hq])
    rwa [entryAt, hrow', Option.bind_some] at hq'
  · rw [h.fits.get?_eq_none hp, h'.fits.get?_eq_none hp]

end

/-- A description whose names can be declared is accepted if its transitions fit. -/
theorem ofDescription_eq_ok_iff {e : Description} {g : Signature} {d : DFA}
    (hg : Signature.declare e.states e.alphabet e.initialState e.accepting = .ok g) :
    ofDescription e = .ok d
      ↔ TableFits g e.transitions ∧ d = ⟨g, overlay (fill g ∅) e.transitions⟩ := by
  rw [ofDescription, declare, hg]
  refine bind_pure_eq_ok_iff.trans ⟨?_, ?_⟩
  · rintro ⟨table, htable, rfl⟩
    obtain ⟨hfits, rfl⟩ := enterRows_eq_ok_iff.1 htable
    exact ⟨hfits, rfl⟩
  · rintro ⟨hfits, rfl⟩
    exact ⟨_, enterRows_eq_ok_iff.2 ⟨hfits, rfl⟩, rfl⟩

/-- **What an automaton tells about itself describes it.** -/
theorem ofDescription_describe {d : DFA} (h : d.WellFormed) : ofDescription d.describe = .ok d := by
  have hg := h.declare (e := d.describe) rfl
  have hok := (ofDescription_eq_ok_iff (e := d.describe) hg).2 ⟨h.transitions.fits, rfl⟩
  -- every entry of the automaton is one of the described table, which is full as well
  have heq : d.transitions = overlay (fill d.toSignature ∅) d.transitions := by
    refine h.transitions.ext (ofDescription_wellFormed hok).transitions fun p c q hq => ?_
    rw [entryAt_overlay, hq, Option.some_or]
  rw [hok]
  exact congrArg Except.ok (congrArg (DFA.mk d.toSignature) heq.symm)

end DFA

/-! ## Nondeterministic automata -/

namespace NFA

/-- The row that a table has for a state, or the empty one. -/
def rowOf (table : Table) (p : String) : Row := (table.get? p).getD ∅

/-- The targets that a row has for a symbol. -/
def targetsIn (row : Row) (x : Symbol) : StateSet := (row.get? x).getD ∅

/-- The targets that are given for a state and a symbol. -/
def givenTargets (given : Listing) (p : String) (x : Symbol) : List String :=
  (((given.get? p).getD ∅).get? x).getD []

/-- The table with transitions to all members of a list. -/
def gatherTargets (p : String) (x : Symbol) (table : Table) (targets : List String) : Table :=
  targets.foldl (fun table q => addEntry table p x q) table

/-- The table with all transitions of a given row. -/
def gatherRow (p : String) (table : Table) (row : SortedMap Symbol (List String)) : Table :=
  row.entries.foldl (fun table e => gatherTargets p e.1 table e.2) table

/-- The table with all given transitions. -/
def gather (table : Table) (given : Listing) : Table :=
  given.entries.foldl (fun table e => gatherRow e.1 table e.2) table

/-- What is given is from declared states, on known symbols and to declared states. -/
def ListingFits (g : Signature) (given : Listing) : Prop :=
  ∀ p x, ∀ q ∈ givenTargets given p x, g.Knows x ∧ p ∈ g.states ∧ q ∈ g.states

/-- What a nondeterministic automaton tells about itself. -/
def describe (n : NFA) : Description where
  states := n.states
  alphabet := n.alphabet
  transitions := n.transitions.map fun _ row => row.map fun _ s => s.toList
  initial := some n.initial
  accepting := n.accepting.toList
  epsilonSign := some AutomataLab.epsilonSign
  usesEpsilon := n.usesEpsilon

section

variable {g : Signature} {n : NFA} {table : Table} {given : Listing} {p a b : String} {x y : Symbol}

theorem listed_eq : n.listed p x = targetsIn (rowOf n.transitions p) x := by
  rw [listed, rowOf, targetsIn]
  cases n.transitions.get? p <;> rfl

theorem enables_of_usesEpsilon (hon : n.usesEpsilon = true) : n.enables x = true := by
  cases x with
  | epsilon => exact hon
  | char c => rfl

theorem mem_targets : b ∈ n.targets p x ↔ n.enables x = true ∧ b ∈ n.listed p x := by
  unfold targets
  cases n.enables x <;> simp

theorem mem_addEntry {q : String} : b ∈ targetsIn (rowOf (addEntry table p x q) a) y
    ↔ b ∈ targetsIn (rowOf table a) y ∨ (a = p ∧ y = x) ∧ b = q := by
  unfold rowOf addEntry
  rw [SortedMap.get?_update]
  by_cases ha : a = p
  · subst ha
    rw [if_pos rfl, Option.getD_some]
    unfold targetsIn
    rw [SortedMap.get?_update]
    by_cases hy : y = x
    · simp [hy, or_comm]
    · simp [hy]
  · simp [ha]

theorem mem_gatherTargets {targets : List String} :
    b ∈ targetsIn (rowOf (gatherTargets p x table targets) a) y
      ↔ b ∈ targetsIn (rowOf table a) y ∨ (a = p ∧ y = x) ∧ b ∈ targets := by
  unfold gatherTargets
  induction targets generalizing table with
  | nil => simp
  | cons q rest ih =>
    rw [List.foldl_cons, ih, mem_addEntry, List.mem_cons]
    grind

theorem mem_gatherRow {row : SortedMap Symbol (List String)} :
    b ∈ targetsIn (rowOf (gatherRow p table row) a) y
      ↔ b ∈ targetsIn (rowOf table a) y ∨ a = p ∧ b ∈ (row.get? y).getD [] := by
  have hfold := SortedMap.foldl_entries (fun t => b ∈ targetsIn (rowOf t a) y) (k := y)
    (f := fun t e => gatherTargets p e.1 t e.2) (fun l old => old ∨ a = p ∧ b ∈ l)
    (by simp [mem_gatherTargets])
    (fun t e he => by simp [mem_gatherTargets, Ne.symm he]) row table
  rw [gatherRow, hfold]
  cases row.get? y <;> simp

theorem mem_gather : b ∈ targetsIn (rowOf (gather table given) p) x
    ↔ b ∈ targetsIn (rowOf table p) x ∨ b ∈ givenTargets given p x := by
  have hfold := SortedMap.foldl_entries (fun t => b ∈ targetsIn (rowOf t p) x) (k := p)
    (f := fun t e => gatherRow e.1 t e.2) (fun row old => old ∨ b ∈ (row.get? x).getD [])
    (by simp [mem_gatherRow])
    (fun t e he => by simp [mem_gatherRow, Ne.symm he]) given table
  rw [gather, hfold, givenTargets]
  cases SortedMap.get? given p <;> simp

theorem enterTargets_eq_ok_iff {e : Symbol × List String} {n' : NFA} :
    enterTargets p ⟨g, table, true⟩ e = .ok n'
      ↔ (∀ q ∈ e.2, g.Knows e.1 ∧ p ∈ g.states ∧ q ∈ g.states)
        ∧ n' = ⟨g, gatherTargets p e.1 table e.2, true⟩ := by
  -- empty moves are on while a description is entered, so only the names can be wrong
  refine foldlM_eq_ok_iff (fun t => (⟨g, t, true⟩ : NFA)) fun t q m => ?_
  rw [addTransition_eq_ok_iff, checkEdge_eq_ok_iff, and_assoc]
  cases e.1 <;> simp [enables, and_assoc]

theorem enterRow_eq_ok_iff {e : String × SortedMap Symbol (List String)} {n' : NFA} :
    enterRow ⟨g, table, true⟩ e = .ok n'
      ↔ (∀ x, ∀ q ∈ (e.2.get? x).getD [], g.Knows x ∧ e.1 ∈ g.states ∧ q ∈ g.states)
        ∧ n' = ⟨g, gatherRow e.1 table e.2, true⟩ := by
  refine (foldlM_eq_ok_iff (fun t => (⟨g, t, true⟩ : NFA))
    fun t r m => enterTargets_eq_ok_iff).trans (and_congr_left' ?_)
  exact SortedMap.forall_mem_entries_iff_getD
    (P := fun x l => ∀ q ∈ l, g.Knows x ∧ e.1 ∈ g.states ∧ q ∈ g.states) (by simp)

/-- **The rows of a listing are entered if the listing fits.** -/
theorem enterRows_eq_ok_iff {n' : NFA} : given.entries.foldlM enterRow ⟨g, table, true⟩ = .ok n'
    ↔ ListingFits g given ∧ n' = ⟨g, gather table given, true⟩ := by
  refine (foldlM_eq_ok_iff (fun t => (⟨g, t, true⟩ : NFA))
    fun t e m => enterRow_eq_ok_iff).trans (and_congr_left' ?_)
  exact SortedMap.forall_mem_entries_iff_getD (d := (∅ : SortedMap Symbol (List String)))
    (P := fun p row => ∀ x, ∀ q ∈ (row.get? x).getD [], g.Knows x ∧ p ∈ g.states ∧ q ∈ g.states)
    (by simp)

/-- A description whose names can be declared is accepted if its transitions fit, unless it gives
another sign for the empty move. -/
theorem ofDescription_eq_ok_iff {e : Description}
    (hsign : checkEpsilonSign e.epsilonSign = .ok ())
    (hg : Signature.declare e.states e.alphabet e.initialState e.accepting = .ok g) :
    ofDescription e = .ok n
      ↔ ListingFits g e.transitions ∧ n = ⟨g, gather ∅ e.transitions, e.usesEpsilon⟩ := by
  rw [ofDescription, check_bind_eq_ok_iff, and_iff_right hsign, declare, hg]
  refine bind_pure_eq_ok_iff.trans ⟨?_, ?_⟩
  · rintro ⟨n', hrows, rfl⟩
    obtain ⟨hfits, rfl⟩ := enterRows_eq_ok_iff.1 hrows
    exact ⟨hfits, rfl⟩
  · rintro ⟨hfits, rfl⟩
    exact ⟨_, enterRows_eq_ok_iff.2 ⟨hfits, rfl⟩, rfl⟩

/-! ## Tidy tables -/

/-- No symbol is kept without targets. -/
def RowTidy (row : Row) : Prop := ∀ x s, row.get? x = some s → s ≠ ∅

/-- No symbol is kept without targets, and no state without symbols. -/
def TableTidy (table : Table) : Prop := ∀ p row, table.get? p = some row → row ≠ ∅ ∧ RowTidy row

/-- The row without symbols that have no targets. -/
def tidyRow (row : Row) : Row := row.filter fun _ s => s ≠ ∅

/-- The table without symbols that have no targets, and then without states that have no symbols. -/
def tidyTable (table : Table) : Table :=
  (table.map fun _ row => tidyRow row).filter fun _ row => row ≠ ∅

/-- The automaton with a tidy table. -/
def tidy (n : NFA) : NFA := { n with transitions := tidyTable n.transitions }

/-- What is never kept is known to be missing where it stands for a missing value. -/
theorem eq_of_getD_eq {α : Type} {o o' : Option α} {d : α} (ho : ∀ a, o = some a → a ≠ d)
    (ho' : ∀ a, o' = some a → a ≠ d) (h : o.getD d = o'.getD d) : o = o' := by
  cases o with
  | none =>
    cases o' with
    | none => rfl
    | some a' => exact absurd h.symm (ho' a' rfl)
  | some a =>
    cases o' with
    | none => exact absurd h (ho a rfl)
    | some a' => exact congrArg some h

theorem RowTidy.ext {row row' : Row} (h : RowTidy row) (h' : RowTidy row')
    (hmem : ∀ x q, q ∈ targetsIn row x ↔ q ∈ targetsIn row' x) : row = row' := by
  ext1 x
  exact eq_of_getD_eq (h x) (h' x) (SortedSet.ext (hmem x))

theorem TableTidy.rowTidy (h : TableTidy table) (p : String) : RowTidy (rowOf table p) := by
  unfold rowOf
  cases hrow : table.get? p with
  | none => exact fun x s hs => absurd hs (by simp)
  | some row => exact (h p row hrow).2

/-- Tidy tables with the same transitions are equal. -/
theorem TableTidy.ext {table' : Table} (h : TableTidy table) (h' : TableTidy table')
    (hmem : ∀ p x q, q ∈ targetsIn (rowOf table p) x ↔ q ∈ targetsIn (rowOf table' p) x) :
    table = table' := by
  ext1 p
  refine eq_of_getD_eq (fun row hrow => (h p row hrow).1) (fun row hrow => (h' p row hrow).1) ?_
  exact (h.rowTidy p).ext (h'.rowTidy p) (hmem p)

theorem targetsIn_tidyRow {row : Row} : targetsIn (tidyRow row) x = targetsIn row x := by
  unfold targetsIn tidyRow
  rw [SortedMap.get?_filter]
  cases row.get? x with
  | none => rfl
  | some s =>
    by_cases hs : s = ∅
    · simp [hs, Option.filter_some]
    · simp [hs, Option.filter_some]

theorem rowOf_tidyTable : rowOf (tidyTable table) p = tidyRow (rowOf table p) := by
  unfold rowOf tidyTable
  rw [SortedMap.get?_filter, SortedMap.get?_map]
  cases table.get? p with
  | none => rfl
  | some row =>
    by_cases hrow : tidyRow row = ∅
    · simp [hrow, Option.filter_some]
    · simp [hrow, Option.filter_some]

theorem tidyTable_tidy : TableTidy (tidyTable table) := by
  intro p row hrow
  rw [tidyTable, SortedMap.get?_filter, Option.filter_eq_some_iff, SortedMap.get?_map] at hrow
  obtain ⟨hmap, hne⟩ := hrow
  obtain ⟨row₀, -, rfl⟩ := Option.map_eq_some_iff.1 hmap
  refine ⟨of_decide_eq_true hne, fun x s hs => ?_⟩
  rw [tidyRow, SortedMap.get?_filter, Option.filter_eq_some_iff] at hs
  exact of_decide_eq_true hs.2

/-- Tidying leaves the transitions as they are. -/
theorem listed_tidy : n.tidy.listed p x = n.listed p x := by
  rw [listed_eq, listed_eq, tidy, rowOf_tidyTable, targetsIn_tidyRow]

/-- A table is left as it is if it is tidy. -/
theorem tidyTable_eq_self_iff : tidyTable table = table ↔ TableTidy table := by
  constructor
  · intro heq
    rw [← heq]
    exact tidyTable_tidy
  · intro h
    -- both tables are tidy, and tidying takes no transition away
    refine tidyTable_tidy.ext h fun p x q => ?_
    rw [rowOf_tidyTable, targetsIn_tidyRow]

theorem tidy_eq_self_iff : n.tidy = n ↔ TableTidy n.transitions := by
  rw [← tidyTable_eq_self_iff, tidy]
  constructor
  · intro heq
    exact congrArg NFA.transitions heq
  · intro heq
    rw [heq]

theorem tableTidy_empty : TableTidy ∅ := by
  intro p row hrow
  simp at hrow

theorem addEntry_tidy {q : String} (h : TableTidy table) : TableTidy (addEntry table p x q) := by
  intro a row hrow
  rw [addEntry, SortedMap.get?_update] at hrow
  split at hrow
  · obtain rfl := Option.some.inj hrow
    -- the row that is touched lists `q`, so neither it nor the set with `q` is empty
    have hfull : ∀ s : StateSet, s.insert q ≠ ∅ := fun s hs =>
      SortedSet.not_mem_empty q (hs ▸ SortedSet.mem_insert.2 (.inl rfl))
    refine ⟨fun hempty => ?_, fun y s hs => ?_⟩
    · have hx := congrArg (SortedMap.get? · x) hempty
      simp at hx
    · rw [SortedMap.get?_update] at hs
      split at hs
      · obtain rfl := Option.some.inj hs
        exact hfull _
      · exact h.rowTidy p y s hs
  · exact h a row hrow

theorem gather_tidy (h : TableTidy table) : TableTidy (gather table given) := by
  refine List.foldlRecOn _ _ h fun t ht e _ => ?_
  refine List.foldlRecOn _ _ ht fun t ht r _ => ?_
  exact List.foldlRecOn _ _ ht fun t ht q _ => addEntry_tidy ht

/-- What is described is tidy. -/
theorem ofDescription_tidy {e : Description} (h : ofDescription e = .ok n) :
    TableTidy n.transitions := by
  obtain ⟨hsign, hrest⟩ := check_bind_eq_ok_iff.1 h
  obtain ⟨n₁, hdeclare, -⟩ := bind_eq_ok_iff.1 hrest
  obtain ⟨g, hg, -⟩ := bind_pure_eq_ok_iff.1 hdeclare
  obtain ⟨-, rfl⟩ := (ofDescription_eq_ok_iff hsign hg).1 h
  exact gather_tidy tableTidy_empty

theorem givenTargets_describe :
    givenTargets n.describe.transitions p x = (n.listed p x).toList := by
  -- describing only turns the sets of targets into lists
  have hget : n.describe.transitions.get? p
      = (n.transitions.get? p).map fun row => row.map fun _ s => s.toList := SortedMap.get?_map ..
  rw [listed_eq, givenTargets, targetsIn, rowOf, hget]
  cases n.transitions.get? p with
  | none => rfl
  | some row =>
    rw [Option.map_some, Option.getD_some, Option.getD_some, SortedMap.get?_map]
    cases row.get? x <;> rfl

/-- **What an automaton tells about itself describes it, but for what is not tidy.** -/
theorem ofDescription_describe (h : n.WellFormed) : ofDescription n.describe = .ok n.tidy := by
  have hg := h.declare (e := n.describe.toDescription) rfl
  have hfits : ListingFits n.toSignature n.describe.transitions := by
    intro p x q hq
    rw [givenTargets_describe] at hq
    obtain ⟨hp, hx, hq⟩ := h.of_listed (SortedSet.mem_def.2 hq)
    exact ⟨hx, hp, hq⟩
  -- both tables are tidy and list what the automaton does
  have heq : tidyTable n.transitions = gather ∅ n.describe.transitions := by
    refine tidyTable_tidy.ext (gather_tidy tableTidy_empty) fun p x q => ?_
    rw [mem_gather, givenTargets_describe, ← SortedSet.mem_def, listed_eq, rowOf_tidyTable,
      targetsIn_tidyRow]
    simp [rowOf, targetsIn]
  refine (ofDescription_eq_ok_iff (e := n.describe) rfl hg).2 ⟨hfits, ?_⟩
  exact congrArg (fun t => (⟨n.toSignature, t, n.usesEpsilon⟩ : NFA)) heq

end

end NFA

end AutomataLab
