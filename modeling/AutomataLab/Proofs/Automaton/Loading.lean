import AutomataLab.Proofs.Automaton.Descriptions

/-!
# Which descriptions are accepted

A description names states and symbols in two ways: it declares them, and it refers to them. The
names that it declares have to fit by themselves (`Description.NamesFit`), which is the same for both
kinds of automaton. What it refers to has to be declared.

For a nondeterministic automaton this is asked of each transition as it is added, and of nothing
else (`NFA.ofDescription_exact`). A key without a target adds no transition. So a row of an
undeclared state passes if it is empty, and so does a list for an unknown symbol; the key is dropped
with what little it holds. Where every key has a target, the keys are declared as well.
-/

namespace AutomataLab

/-! ## Declared names -/

/-- The signature that a description declares, if that can be declared. -/
def Description.signature {τ : Type} (e : Description τ) : Signature :=
  ⟨e.states, e.alphabet, e.initialState, .ofList e.accepting⟩

/-- There is a state, names are given once, none is empty or reserved, and the states that are
initial or accepting are among them. -/
structure Description.NamesFit {τ : Type} (e : Description τ) : Prop where
  /-- At least one state is declared. -/
  nonempty : e.states ≠ []
  /-- No state is declared twice. -/
  states : e.states.Nodup
  /-- The empty name is left for an initial state that is not given. -/
  named : "" ∉ e.states
  /-- No symbol is declared twice. -/
  alphabet : e.alphabet.Nodup
  /-- The sign of the empty move is not a symbol. -/
  unreserved : epsilonSign ∉ e.alphabet
  /-- The initial state may be left open, also by an empty name. -/
  initial : ∀ q, e.initial = some q → q = "" ∨ q ∈ e.states
  /-- Accepting states are declared, but may be given more than once. -/
  accepting : ∀ q ∈ e.accepting, q ∈ e.states

namespace Description

variable {τ : Type} {e : Description τ}

theorem initialState_mem_iff (hne : e.states ≠ []) :
    e.initialState ∈ e.states ↔ ∀ q, e.initial = some q → q = "" ∨ q ∈ e.states := by
  have hfirst : e.states.headD "" ∈ e.states := by
    obtain ⟨p, rest, heq⟩ := List.exists_cons_of_ne_nil hne
    simp [heq]
  unfold initialState
  cases hq : e.initial with
  -- without a name the first state is taken, of which there is one
  | none => exact iff_of_true hfirst (by simp)
  | some q =>
    by_cases hempty : q = ""
    · simpa [hempty] using hfirst
    · simp [hempty]

theorem signature_wellFormed_iff : e.signature.WellFormed ↔ e.NamesFit := by
  constructor
  · intro h
    exact
      { h with
        initial := (initialState_mem_iff h.nonempty).1 h.initial
        accepting := fun q hq => h.accepting q (SortedSet.mem_ofList.2 hq) }
  · intro h
    exact
      { h with
        initial := (initialState_mem_iff h.nonempty).2 h.initial
        accepting := fun q hq => h.accepting q (SortedSet.mem_ofList.1 hq) }

/-- **The names of a description can be declared exactly if they fit.** -/
theorem declare_eq_ok_iff {g : Signature} :
    Signature.declare e.states e.alphabet e.initialState e.accepting = .ok g
      ↔ g = e.signature ∧ e.NamesFit := by
  rw [Signature.declare_eq_ok_iff, ← signature_wellFormed_iff]
  exact and_congr_right fun h => by rw [h]; rfl

end Description

namespace NFA

/-! ## Accepted descriptions -/

/-- Every key of a listing is declared, whether anything is listed under it or not. -/
def KeysFit (g : Signature) (given : Listing) : Prop :=
  ∀ r ∈ given.entries, r.1 ∈ g.states ∧ ∀ e ∈ r.2.entries, g.Knows e.1

/-- No row is empty, and no list in a row. -/
def Busy (given : Listing) : Prop :=
  ∀ r ∈ given.entries, r.2.entries ≠ [] ∧ ∀ e ∈ r.2.entries, e.2 ≠ []

instance (given : Listing) : Decidable (Busy given) :=
  inferInstanceAs (Decidable (∀ r ∈ given.entries, _ ∧ ∀ e ∈ r.2.entries, e.2 ≠ []))

section

variable {g : Signature} {given : Listing} {e : Description} {n : NFA}

theorem givenTargets_of_mem {r : String × SortedMap Symbol (List String)}
    {x : Symbol × List String} (hr : r ∈ given.entries) (hx : x ∈ r.2.entries) :
    givenTargets given r.1 x.1 = x.2 := by
  rw [givenTargets, SortedMap.get?_eq_some_iff.2 hr, Option.getD_some,
    SortedMap.get?_eq_some_iff.2 hx, Option.getD_some]

/-- Where every key has a target, the targets vouch for the keys. -/
theorem keysFit_of_busy (hfits : ListingFits g given) (hbusy : Busy given) : KeysFit g given := by
  intro r hr
  obtain ⟨hrow, hlists⟩ := hbusy r hr
  have hkeys : ∀ x ∈ r.2.entries, g.Knows x.1 ∧ r.1 ∈ g.states := by
    intro x hx
    obtain ⟨q, hq⟩ := List.exists_mem_of_ne_nil x.2 (hlists x hx)
    obtain ⟨hknows, hstate, -⟩ := hfits r.1 x.1 q (by rwa [givenTargets_of_mem hr hx])
    exact ⟨hknows, hstate⟩
  -- the row has a list, and the list has a target
  obtain ⟨x, hx⟩ := List.exists_mem_of_ne_nil r.2.entries hrow
  exact ⟨(hkeys x hx).2, fun x hx => (hkeys x hx).1⟩

theorem checkEpsilonSign_eq_ok_iff {o : Option Char} :
    checkEpsilonSign o = .ok () ↔ ∀ c, o = some c → c = epsilonSign := by
  cases o with
  | none => simp [checkEpsilonSign]
  | some c => simp [checkEpsilonSign]

/-- **What a description describes, if it does.** -/
theorem ofDescription_eq_ok_iff_fits : ofDescription e = .ok n
    ↔ e.NamesFit ∧ (∀ c, e.epsilonSign = some c → c = AutomataLab.epsilonSign)
      ∧ ListingFits e.signature e.transitions
      ∧ n = ⟨e.signature, gather ∅ e.transitions, e.usesEpsilon⟩ := by
  constructor
  · intro h
    obtain ⟨hsign, hrest⟩ := check_bind_eq_ok_iff.1 h
    obtain ⟨n₁, hdeclare, -⟩ := bind_eq_ok_iff.1 hrest
    obtain ⟨g, hg, -⟩ := bind_pure_eq_ok_iff.1 hdeclare
    obtain ⟨hfits, hn⟩ := (ofDescription_eq_ok_iff hsign hg).1 h
    obtain ⟨rfl, hnames⟩ := Description.declare_eq_ok_iff.1 hg
    exact ⟨hnames, checkEpsilonSign_eq_ok_iff.1 hsign, hfits, hn⟩
  · rintro ⟨hnames, hsign, hfits, hn⟩
    have hg := Description.declare_eq_ok_iff.2 ⟨rfl, hnames⟩
    exact (ofDescription_eq_ok_iff (checkEpsilonSign_eq_ok_iff.2 hsign) hg).2 ⟨hfits, hn⟩

/-- Every state has the targets that are given for it, once empty moves are turned on. -/
theorem targets_of_ofDescription (h : ofDescription e = .ok n) (p : String) (x : Symbol) :
    (n.setUsesEpsilon true).targets p x = .ofList (givenTargets e.transitions p x) := by
  obtain ⟨-, -, -, rfl⟩ := ofDescription_eq_ok_iff_fits.1 h
  -- the switch of the description hides nothing any more
  have hlisted : ∀ m : NFA, (m.setUsesEpsilon true).targets p x = m.listed p x := by
    intro m
    cases x <;> rfl
  ext q
  rw [hlisted, listed_eq, mem_gather, SortedSet.mem_ofList]
  simp [rowOf, targetsIn]

end

/--
**A description is accepted by its names and by its transitions.**

It describes an automaton exactly if the declared names fit, no other sign is given for the empty
move, and each transition that is given is from a declared state, on a known symbol and to a
declared state. The keys under which transitions are given are then declared as far as every row and
every list has something in it; the others are not looked at. Each state of the described automaton
has just the given targets, those on the empty move as soon as empty moves are turned on.
-/
theorem ofDescription_exact (e : Description) :
    ((∃ n, ofDescription e = .ok n)
        ↔ e.NamesFit ∧ (∀ c, e.epsilonSign = some c → c = AutomataLab.epsilonSign)
          ∧ ListingFits e.signature e.transitions)
      ∧ (ListingFits e.signature e.transitions → Busy e.transitions →
        KeysFit e.signature e.transitions)
      ∧ ∀ n, ofDescription e = .ok n → ∀ p x,
        (n.setUsesEpsilon true).targets p x = .ofList (givenTargets e.transitions p x) := by
  refine ⟨?_, keysFit_of_busy, fun n h => targets_of_ofDescription h⟩
  constructor
  · rintro ⟨n, h⟩
    obtain ⟨hnames, hsign, hfits, -⟩ := ofDescription_eq_ok_iff_fits.1 h
    exact ⟨hnames, hsign, hfits⟩
  · rintro ⟨hnames, hsign, hfits⟩
    exact ⟨_, ofDescription_eq_ok_iff_fits.2 ⟨hnames, hsign, hfits, rfl⟩⟩

/-- Two rows with nothing in them, one of which is of no declared state, and a list for a symbol that
is not in the alphabet. -/
def idle : Description where
  states := ["p", "q"]
  alphabet := ['a']
  transitions :=
    .ofList [("p", .ofList [(.epsilon, ["q", "q"]), (.char 'z', [])]), ("q", ∅), ("ghost", ∅)]
  initial := some ""
  accepting := ["q", "q"]
  epsilonSign := none
  usesEpsilon := false

/-- The same without the keys that nothing is listed under. -/
def industrious : Description :=
  { idle with transitions := .ofList [("p", .ofList [(.epsilon, ["q", "q"])])] }

theorem idle_ofDescription_exact :
    (∃ n, ofDescription idle = .ok n ∧ n.targets "p" .epsilon = ∅
        ∧ (n.setUsesEpsilon true).targets "p" .epsilon = .ofList ["q", "q"])
      ∧ idle.NamesFit ∧ ListingFits idle.signature idle.transitions
      ∧ Busy industrious.transitions ∧ KeysFit industrious.signature industrious.transitions := by
  obtain ⟨haccepts, -, htargets⟩ := ofDescription_exact idle
  have h : ∃ n, ofDescription idle = .ok n := ⟨_, rfl⟩
  obtain ⟨hnames, -, hfits⟩ := haccepts.1 h
  obtain ⟨n, hn⟩ := h
  have hoff : n.usesEpsilon = false := by
    obtain ⟨-, -, -, rfl⟩ := ofDescription_eq_ok_iff_fits.1 hn
    rfl
  have hnone : n.targets "p" .epsilon = ∅ := by simp [targets, enables, hoff]
  obtain ⟨haccepts', hkeys, -⟩ := ofDescription_exact industrious
  have hbusy : Busy industrious.transitions := by decide
  have hfits' := (haccepts'.1 ⟨_, rfl⟩).2.2
  exact ⟨⟨n, hn, hnone, htargets n hn "p" .epsilon⟩, hnames, hfits, hbusy, hkeys hfits' hbusy⟩

/-- It is not asked of an automaton that every key of its description is declared. Of a deterministic
one a row of an undeclared state is refused even if it is empty. -/
theorem idle_keys_unchecked :
    ¬((∃ n, ofDescription idle = .ok n)
        ↔ idle.NamesFit ∧ (∀ c, idle.epsilonSign = some c → c = AutomataLab.epsilonSign)
          ∧ ListingFits idle.signature idle.transitions
          ∧ KeysFit idle.signature idle.transitions)
      ∧ DFA.ofDescription ⟨idle.states, idle.alphabet, .ofList [("ghost", ∅)], idle.initial,
          idle.accepting⟩ = .error (.unknownState "ghost") := by
  refine ⟨fun hchecked => ?_, rfl⟩
  obtain ⟨-, -, -, hkeys⟩ := hchecked.1 ⟨_, rfl⟩
  -- the row of an undeclared state passed, being empty
  have hghost : ("ghost", ∅) ∈ idle.transitions.entries := by decide
  exact absurd (hkeys _ hghost).1 (by decide)

end NFA

end AutomataLab
