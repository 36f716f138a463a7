import AutomataLab.Grammar.First
import AutomataLab.Proofs.Saturation
import AutomataLab.Proofs.Grammar.Language

/-!
# FIRST sets are what derivations begin with

`Leads g u v` says that rewriting the row of symbols `u` can give the row `v`, which may still have
non-terminals in it. A symbol is in the FIRST set of a non-terminal if the non-terminal leads to a
row that begins with it, and `ε` is if it leads to the empty row (`firstSets_exact`).

What the passes put into the sets is sound after each single production (`sound_addFirst`). At the
end the sets are closed: no body adds anything (`closed_of_settled`). Going back along a derivation
step by step, what its last row begins with is then known of its first (`mem_bodyFirst_of_leads`).

That the passes come to an end holds of every grammar. A symbol that a pass inserts was missing from
the set of the head of a production and occurs in a body, so it was counted (`firstMissing_lt_iff`).
-/

namespace AutomataLab.Grammar

/-- The FIRST set of a name as far as it is known. -/
def firstOf (sets : FirstSets) (A : String) : SortedSet String := (sets.get? A).getD ∅

/-- The sets before the first pass. -/
def noFirst (g : Grammar) : FirstSets := .ofList (g.nonterminals.map (·, ∅))

/-- Some symbol is put into some set by a pass. -/
def Inserts (g : Grammar) (sets : FirstSets) : Prop :=
  ∃ A a, a ∈ firstOf (g.firstPass sets) A ∧ a ∉ firstOf sets A

section

variable {g : Grammar} {sets : FirstSets} {p : Production} {A a : String}

theorem mem_firstOf_addFirst : a ∈ firstOf (g.addFirst sets p) A
    ↔ a ∈ firstOf sets A ∨ A = p.head ∧ a ∈ g.bodyFirst sets p.body := by
  unfold firstOf addFirst
  rw [SortedMap.get?_update]
  split
  · next hA => simp [hA]
  · next hA => simp [hA]

/-- Sets only grow. -/
theorem mem_firstOf_foldl {ps : List Production} (ha : a ∈ firstOf sets A) :
    a ∈ firstOf (ps.foldl g.addFirst sets) A := by
  induction ps generalizing sets with
  | nil => exact ha
  | cons p rest ih => exact ih (mem_firstOf_addFirst.2 (.inl ha))

theorem get?_noFirst : g.noFirst.get? A = if A ∈ g.nonterminals then some ∅ else none := by
  suffices h : ∀ l : List String,
      (l.map fun B => (B, (∅ : SortedSet String))).lookup A = if A ∈ l then some ∅ else none by
    rw [noFirst, SortedMap.get?_ofList, ← List.map_reverse, h]
    simp only [List.mem_reverse]
  intro l
  induction l with
  | nil => simp
  | cons B rest ih =>
    by_cases hA : A = B
    · simp [hA]
    · have hA' : (A == B) = false := by simpa using hA
      simp [List.lookup_cons, hA, hA', ih]

theorem firstOf_noFirst : firstOf g.noFirst A = ∅ := by
  unfold firstOf
  rw [get?_noFirst]
  split <;> rfl

/-! ## The passes come to an end -/

/-- Symbols are known only of heads of productions, and are candidates. -/
def Within (g : Grammar) (sets : FirstSets) : Prop :=
  ∀ A, ∀ a ∈ firstOf sets A, (∃ p ∈ g.productions, p.head = A) ∧ a ∈ g.firstCandidates

theorem mem_firstCandidates :
    a ∈ g.firstCandidates ↔ a = epsilonName ∨ ∃ p ∈ g.productions, a ∈ p.body := by
  simp [firstCandidates]

theorem mem_bodyFirst_cases {body : List String} (ha : a ∈ g.bodyFirst sets body) :
    a = epsilonName ∨ a ∈ body ∨ ∃ s, a ∈ firstOf sets s := by
  induction body with
  | nil => exact .inl (SortedSet.mem_singleton.1 ha)
  | cons s rest ih =>
    unfold bodyFirst at ha
    split at ha
    · -- a terminal ends the walk and is itself a symbol of the body
      exact .inr (.inl (by simp [SortedSet.mem_singleton.1 ha]))
    · split at ha
      · exact .inr (.inl (by simp [SortedSet.mem_singleton.1 ha]))
      · next first hfirst =>
        have hknown : a ∈ first → ∃ s, a ∈ firstOf sets s :=
          fun h => ⟨s, by simpa [firstOf, hfirst] using h⟩
        split at ha
        · -- a non-terminal that can come to nothing lets the rest of the body through
          rcases SortedSet.mem_union.1 ha with ha | ha
          · exact .inr (.inr (hknown (SortedSet.mem_erase.1 ha).1))
          · rcases ih ha with ha | ha | ha
            · exact .inl ha
            · exact .inr (.inl (List.mem_cons_of_mem s ha))
            · exact .inr (.inr ha)
        · exact .inr (.inr (hknown (SortedSet.mem_erase.1 ha).1))

theorem within_noFirst : g.Within g.noFirst := by
  intro A a ha
  rw [firstOf_noFirst] at ha
  exact absurd ha (SortedSet.not_mem_empty a)

theorem within_addFirst (hp : p ∈ g.productions) (h : g.Within sets) :
    g.Within (g.addFirst sets p) := by
  intro A a ha
  rcases mem_firstOf_addFirst.1 ha with hold | ⟨rfl, hnew⟩
  · exact h A a hold
  · refine ⟨⟨p, hp, rfl⟩, ?_⟩
    rcases mem_bodyFirst_cases hnew with heps | hbody | ⟨s, hs⟩
    · exact mem_firstCandidates.2 (.inl heps)
    · exact mem_firstCandidates.2 (.inr ⟨p, hp, hbody⟩)
    · exact (h s a hs).2

theorem within_firstPass (h : g.Within sets) : g.Within (g.firstPass sets) :=
  List.foldlRecOn _ _ h fun _ ht _ hp => within_addFirst hp ht

/-- What is counted where it is missing. -/
def firstStock (g : Grammar) : List (String × String) :=
  g.productions.flatMap fun p => g.firstCandidates.toList.map (p.head, ·)

theorem firstMissing_eq :
    g.firstMissing sets = g.firstStock.countP fun e => e.2 ∉ firstOf sets e.1 := by
  unfold firstMissing firstStock
  induction g.productions with
  | nil => rfl
  | cons p rest ih =>
    rw [List.flatMap_cons, List.flatMap_cons, List.length_append, List.countP_append, ih,
      List.countP_map, ← List.countP_eq_length_filter]
    rfl

theorem mem_firstStock {e : String × String} :
    e ∈ g.firstStock ↔ (∃ p ∈ g.productions, p.head = e.1) ∧ e.2 ∈ g.firstCandidates := by
  obtain ⟨A, a⟩ := e
  simp only [firstStock, List.mem_flatMap, List.mem_map, Prod.mk.injEq]
  constructor
  · rintro ⟨p, hp, b, hb, rfl, rfl⟩
    exact ⟨⟨p, hp, rfl⟩, hb⟩
  · rintro ⟨⟨p, hp, rfl⟩, ha⟩
    exact ⟨p, hp, a, ha, rfl, rfl⟩

/-- **A pass finds something missing exactly if it inserts a symbol.** -/
theorem firstMissing_lt_iff (h : g.Within sets) :
    g.firstMissing (g.firstPass sets) < g.firstMissing sets ↔ g.Inserts sets := by
  rw [firstMissing_eq, firstMissing_eq]
  have hle : ∀ e ∈ g.firstStock, decide (e.2 ∉ firstOf (g.firstPass sets) e.1)
      → decide (e.2 ∉ firstOf sets e.1) := by
    intro e _ he
    simp only [decide_eq_true_eq] at he ⊢
    exact fun hmem => he (mem_firstOf_foldl hmem)
  constructor
  · intro hlt
    by_contra hnot
    -- then the same symbols are missing before and after
    have hsame : ∀ e ∈ g.firstStock, decide (e.2 ∉ firstOf sets e.1)
        → decide (e.2 ∉ firstOf (g.firstPass sets) e.1) := by
      intro e _ he
      simp only [decide_eq_true_eq] at he ⊢
      exact fun hmem => hnot ⟨e.1, e.2, hmem, he⟩
    have := List.countP_mono_left hsame
    omega
  · rintro ⟨A, a, ha, hnew⟩
    -- what is inserted is a candidate for the head of a production, so it was counted
    have hmem := mem_firstStock (e := (A, a)).2 (within_firstPass h A a ha)
    exact countP_lt_of_mem hle hmem (by simpa using hnew) (by simpa using ha)

/-- The passes that are made are those that insert a symbol, and one that does not. -/
theorem firstSets_eq_iterate (g : Grammar) : ∃ k, g.firstSets = g.firstPass^[k + 1] g.noFirst
    ∧ ∀ i ≤ k, g.Inserts (g.firstPass^[i] g.noFirst) ↔ i < k := by
  obtain ⟨k, heq, hpasses⟩ := saturate_eq_iterate g.firstPass g.firstMissing g.noFirst
  refine ⟨k, heq, fun i hi => ?_⟩
  -- only candidates are ever put into the sets, so the count sees every insertion
  have hwithin : ∀ j, g.Within (g.firstPass^[j] g.noFirst) := by
    intro j
    induction j with
    | zero => exact within_noFirst
    | succ j ih => exact Function.iterate_succ_apply' g.firstPass j _ ▸ within_firstPass ih
  rw [← firstMissing_lt_iff (hwithin i)]
  exact hpasses i hi

end

/-! ## What a row of symbols can begin with -/

/-- Some derivation leads from one row of symbols to another. -/
def Leads (g : Grammar) (u v : List String) : Prop :=
  g.contextFree.Derives (u.map g.letter) (v.map g.letter)

/-- Each symbol of the row is a non-terminal or a terminal. -/
def Declared (g : Grammar) (u : List String) : Prop :=
  ∀ s ∈ u, s ∈ g.nonterminals ∨ s ∈ g.terminals

/-- Some derivation from the row ends in a row that begins with the terminal `a`, or in the empty
row if `a` is `ε`. -/
def Begins (g : Grammar) (u : List String) (a : String) : Prop :=
  (a = epsilonName ∧ g.Leads u [])
    ∨ (a ∈ g.terminals ∧ ∃ x, g.Declared x ∧ g.Leads u (a :: x))

section

variable {g : Grammar} {u v w : List String} {A a : String}

theorem Leads.refl : g.Leads u u := ContextFreeGrammar.Derives.refl _

theorem Leads.trans (huv : g.Leads u v) (hvw : g.Leads v w) : g.Leads u w :=
  ContextFreeGrammar.Derives.trans huv hvw

theorem Leads.append_right (h : g.Leads u v) (w : List String) : g.Leads (u ++ w) (v ++ w) := by
  unfold Leads
  rw [List.map_append, List.map_append]
  exact ContextFreeGrammar.Derives.append_right h _

theorem leads_of_mem {p : Production} (hp : p ∈ g.productions) (hhead : p.head ∈ g.nonterminals) :
    g.Leads [p.head] p.body := by
  unfold Leads
  rw [List.map_singleton, letter_of_mem hhead]
  exact (produces_of_mem hp).single

theorem Begins.of_leads (huv : g.Leads u v) (h : g.Begins v a) : g.Begins u a := by
  rcases h with ⟨ha, hnil⟩ | ⟨ha, x, hx, hlead⟩
  · exact .inl ⟨ha, huv.trans hnil⟩
  · exact .inr ⟨ha, x, hx, huv.trans hlead⟩

/-- What a row can begin with it can begin with before more symbols, unless that is nothing. -/
theorem Begins.append_right (h : g.Begins u a) (hne : a ≠ epsilonName) (hw : g.Declared w) :
    g.Begins (u ++ w) a := by
  rcases h with ⟨ha, -⟩ | ⟨ha, x, hx, hlead⟩
  · exact absurd ha hne
  · exact .inr ⟨ha, x ++ w, List.forall_mem_append.2 ⟨hx, hw⟩, hlead.append_right w⟩

/-- A row that can come to nothing leaves what follows it. -/
theorem Begins.skip (h : g.Leads u []) (hw : g.Begins w a) : g.Begins (u ++ w) a :=
  .of_leads (h.append_right w) hw

end

/-! ## What is known is sound -/

/-- The names that have a set are the non-terminals. -/
def Keyed (g : Grammar) (sets : FirstSets) : Prop :=
  ∀ A, (∃ first, sets.get? A = some first) ↔ A ∈ g.nonterminals

/-- Non-terminals begin with what is in their sets. -/
def FirstSound (g : Grammar) (sets : FirstSets) : Prop :=
  ∀ A ∈ g.nonterminals, ∀ a ∈ firstOf sets A, g.Begins [A] a

section

variable {g : Grammar} {sets : FirstSets} {p : Production} {A a s : String} {body u v : List String}

theorem bodyFirst_of_terminal (hs : s ∈ g.terminals) : g.bodyFirst sets (s :: body) = {s} := by
  rw [bodyFirst, if_pos (by simpa [isTerminal] using hs)]

/-- A non-terminal gives what is known of it, and lets the rest of the body through if it can come
to nothing. -/
theorem mem_bodyFirst_of_nonterminal (hv : g.Valid) (hkeyed : g.Keyed sets)
    (hs : s ∈ g.nonterminals) : a ∈ g.bodyFirst sets (s :: body)
      ↔ (a ≠ epsilonName ∧ a ∈ firstOf sets s)
        ∨ (epsilonName ∈ firstOf sets s ∧ a ∈ g.bodyFirst sets body) := by
  obtain ⟨first, hfirst⟩ := (hkeyed s).2 hs
  have hof : firstOf sets s = first := by rw [firstOf, hfirst, Option.getD_some]
  have hterm : g.isTerminal s = false := by
    simpa [isTerminal] using fun ht => hv.disjoint s ht hs
  rw [bodyFirst, if_neg (by simp [hterm]), hfirst, hof]
  by_cases heps : epsilonName ∈ first
  · simp [heps, and_comm]
  · simp [heps, and_comm]

theorem keyed_noFirst : g.Keyed g.noFirst := by
  intro A
  rw [get?_noFirst]
  split
  · next hA => exact iff_of_true ⟨∅, rfl⟩ hA
  · next hA => exact iff_of_false (by simp) hA

theorem keyed_addFirst (hv : g.Valid) (hp : p ∈ g.productions) (h : g.Keyed sets) :
    g.Keyed (g.addFirst sets p) := by
  intro A
  rw [addFirst, SortedMap.get?_update]
  split
  · next hA => exact iff_of_true ⟨_, rfl⟩ (hA ▸ hv.head p hp)
  · exact h A

/-- What is known of the symbols of a body it can begin with. -/
theorem begins_of_mem_bodyFirst (hv : g.Valid) (hplain : epsilonName ∉ g.terminals)
    (hkeyed : g.Keyed sets) (h : g.FirstSound sets) (hbody : g.Declared body)
    (ha : a ∈ g.bodyFirst sets body) : g.Begins body a := by
  induction body with
  | nil => exact .inl ⟨SortedSet.mem_singleton.1 ha, .refl⟩
  | cons s rest ih =>
    obtain ⟨hs, hrest⟩ := List.forall_mem_cons.1 hbody
    rcases hs with hs | hs
    · rcases (mem_bodyFirst_of_nonterminal hv hkeyed hs).1 ha with ⟨hne, ha⟩ | ⟨heps, ha⟩
      · exact (h s hs a ha).append_right hne hrest
      · rcases h s hs epsilonName heps with ⟨-, hnil⟩ | ⟨hterm, -⟩
        · -- the first symbol can come to nothing, so it is what the rest begins with
          exact .skip hnil (ih hrest ha)
        · -- were `ε` a terminal, its being in a set would not tell that the symbol comes to nothing
          exact absurd hterm hplain
    · rw [bodyFirst_of_terminal hs] at ha
      obtain rfl := SortedSet.mem_singleton.1 ha
      exact .inr ⟨hs, rest, hrest, .refl⟩

theorem sound_noFirst : g.FirstSound g.noFirst := by
  intro A _ a ha
  rw [firstOf_noFirst] at ha
  exact absurd ha (SortedSet.not_mem_empty a)

theorem sound_addFirst (hv : g.Valid) (hplain : epsilonName ∉ g.terminals)
    (hp : p ∈ g.productions) (hkeyed : g.Keyed sets) (h : g.FirstSound sets) :
    g.FirstSound (g.addFirst sets p) := by
  intro A hA a ha
  rcases mem_firstOf_addFirst.1 ha with hold | ⟨rfl, hnew⟩
  · exact h A hA a hold
  · exact .of_leads (leads_of_mem hp hA)
      (begins_of_mem_bodyFirst hv hplain hkeyed h (hv.body p hp) hnew)

/-! ## What is missing at the end is nowhere -/

/-- No body adds anything to the set of its head. -/
def Closed (g : Grammar) (sets : FirstSets) : Prop :=
  ∀ p ∈ g.productions, ∀ a ∈ g.bodyFirst sets p.body, a ∈ firstOf sets p.head

theorem eq_of_firstOf {sets' : FirstSets} (h : g.Keyed sets) (h' : g.Keyed sets')
    (hmem : ∀ A ∈ g.nonterminals, ∀ a, a ∈ firstOf sets A ↔ a ∈ firstOf sets' A) :
    sets = sets' := by
  ext1 A
  by_cases hA : A ∈ g.nonterminals
  · have hof : firstOf sets A = firstOf sets' A := SortedSet.ext (hmem A hA)
    obtain ⟨first, hfirst⟩ := (h A).2 hA
    obtain ⟨first', hfirst'⟩ := (h' A).2 hA
    simp only [firstOf, hfirst, hfirst', Option.getD_some] at hof
    rw [hfirst, hfirst', hof]
  · have hnone : sets.get? A = none :=
      Option.eq_none_iff_forall_ne_some.2 fun first hfirst => hA ((h A).1 ⟨first, hfirst⟩)
    have hnone' : sets'.get? A = none :=
      Option.eq_none_iff_forall_ne_some.2 fun first hfirst => hA ((h' A).1 ⟨first, hfirst⟩)
    rw [hnone, hnone']

theorem keyed_foldl (hv : g.Valid) {ps : List Production} (hps : ∀ p ∈ ps, p ∈ g.productions)
    (h : g.Keyed sets) : g.Keyed (ps.foldl g.addFirst sets) :=
  List.foldlRecOn _ _ h fun _ ht p hp => keyed_addFirst hv (hps p hp) ht

/-- A pass that inserts nothing leaves the sets as they are, at each production on its way. -/
theorem closed_of_settled (hv : g.Valid) (h : g.Keyed sets) (hsettled : ¬g.Inserts sets) :
    g.firstPass sets = sets ∧ g.Closed sets := by
  have hend : ∀ A a, a ∈ firstOf (g.firstPass sets) A → a ∈ firstOf sets A :=
    fun A a ha => by_contra fun hnot => hsettled ⟨A, a, ha, hnot⟩
  refine ⟨eq_of_firstOf (keyed_foldl hv (fun _ hp => hp) h) h
    fun A _ a => ⟨hend A a, mem_firstOf_foldl⟩, fun p hp a ha => ?_⟩
  obtain ⟨before, after, hsplit⟩ := List.append_of_mem hp
  have hpass : g.firstPass sets
      = after.foldl g.addFirst (g.addFirst (before.foldl g.addFirst sets) p) := by
    rw [firstPass, hsplit, List.foldl_append, List.foldl_cons]
  -- the sets on the way lie between those at the start and those at the end
  have hmid : before.foldl g.addFirst sets = sets := by
    have hbefore : ∀ q ∈ before, q ∈ g.productions := fun q hq => by
      rw [hsplit]
      exact List.mem_append_left _ hq
    refine eq_of_firstOf (keyed_foldl hv hbefore h) h fun A _ a => ⟨fun ha => ?_, mem_firstOf_foldl⟩
    refine hend A a ?_
    rw [hpass]
    exact mem_firstOf_foldl (mem_firstOf_addFirst.2 (.inl ha))
  rw [hmid] at hpass
  refine hend p.head a ?_
  rw [hpass]
  exact mem_firstOf_foldl (mem_firstOf_addFirst.2 (.inr ⟨rfl, ha⟩))

/-- What two rows in a row begin with: the first, or the second if the first can come to nothing. -/
theorem mem_bodyFirst_append (hv : g.Valid) (hplain : epsilonName ∉ g.terminals)
    (hkeyed : g.Keyed sets) (hu : g.Declared u) : a ∈ g.bodyFirst sets (u ++ v)
      ↔ (a ≠ epsilonName ∧ a ∈ g.bodyFirst sets u)
        ∨ (epsilonName ∈ g.bodyFirst sets u ∧ a ∈ g.bodyFirst sets v) := by
  induction u with
  | nil => simp [bodyFirst]
  | cons s rest ih =>
    obtain ⟨hs, hrest⟩ := List.forall_mem_cons.1 hu
    rw [List.cons_append]
    rcases hs with hs | hs
    · rw [mem_bodyFirst_of_nonterminal hv hkeyed hs, mem_bodyFirst_of_nonterminal hv hkeyed hs,
        mem_bodyFirst_of_nonterminal hv hkeyed hs, ih hrest]
      grind
    · -- nothing gets past a terminal
      have hne : s ≠ epsilonName := fun heq => hplain (heq ▸ hs)
      rw [bodyFirst_of_terminal hs, bodyFirst_of_terminal hs]
      simp only [SortedSet.mem_singleton, hne.symm, false_and, or_false]
      exact ⟨fun ha => ⟨ha ▸ hne, ha⟩, fun ha => ha.2⟩

theorem mem_bodyFirst_singleton (hv : g.Valid) (hkeyed : g.Keyed sets) (hA : A ∈ g.nonterminals) :
    a ∈ g.bodyFirst sets [A] ↔ a ∈ firstOf sets A := by
  rw [mem_bodyFirst_of_nonterminal hv hkeyed hA, bodyFirst, SortedSet.mem_singleton]
  by_cases ha : a = epsilonName
  · simp [ha]
  · simp [ha]

/-- Once the sets are closed, rewriting a symbol of a row adds nothing to what it begins with. -/
theorem mem_bodyFirst_of_step (hv : g.Valid) (hplain : epsilonName ∉ g.terminals)
    (hkeyed : g.Keyed sets) (hclosed : g.Closed sets) (hp : p ∈ g.productions)
    (hu : g.Declared u) (ha : a ∈ g.bodyFirst sets (u ++ p.body ++ v)) :
    a ∈ g.bodyFirst sets (u ++ [p.head] ++ v) := by
  have hhead := hv.head p hp
  -- closed sets know of the head what its body gives
  have hadds : ∀ b, b ∈ g.bodyFirst sets p.body → b ∈ g.bodyFirst sets [p.head] :=
    fun b hb => (mem_bodyFirst_singleton hv hkeyed hhead).2 (hclosed p hp b hb)
  have hbody : g.Declared p.body := hv.body p hp
  have hsingle : g.Declared [p.head] := List.forall_mem_singleton.2 (.inl hhead)
  rw [List.append_assoc, mem_bodyFirst_append hv hplain hkeyed hu] at ha ⊢
  rw [mem_bodyFirst_append hv hplain hkeyed hbody] at ha
  rw [mem_bodyFirst_append hv hplain hkeyed hsingle]
  rcases ha with ha | ⟨heps, ⟨hne, ha⟩ | ⟨hnull, ha⟩⟩
  · exact .inl ha
  · exact .inr ⟨heps, .inl ⟨hne, hadds a ha⟩⟩
  · exact .inr ⟨heps, .inr ⟨hadds _ hnull, ha⟩⟩

theorem letter_injective {s t : String} (h : g.letter s = g.letter t) : s = t := by
  unfold letter at h
  split at h <;> split at h <;> simp_all

/-- **What the last row of a derivation begins with, the first row begins with.** -/
theorem mem_bodyFirst_of_leads (hv : g.Valid) (hplain : epsilonName ∉ g.terminals)
    (hkeyed : g.Keyed sets) (hclosed : g.Closed sets) (hu : g.Declared u) (h : g.Leads u v)
    (ha : a ∈ g.bodyFirst sets v) : a ∈ g.bodyFirst sets u := by
  unfold Leads at h
  generalize hu' : u.map g.letter = form at h
  induction h using Relation.ReflTransGen.head_induction_on generalizing u with
  | refl =>
    obtain rfl := List.map_injective_iff.2 (fun _ _ => letter_injective) hu'
    exact ha
  | head hstep _ ih =>
    subst hu'
    -- the row after the first step, of which it is known by induction
    obtain ⟨p, hp, x, y, hhead, rfl, rfl⟩ := exists_of_produces hstep
    have hx : g.Declared x := fun s hs => hu s (by simp [hs])
    refine mem_bodyFirst_of_step hv hplain hkeyed hclosed hp hx (ih (fun s hs => ?_) rfl)
    simp only [List.mem_append, or_assoc] at hs
    rcases hs with hs | hs | hs
    · exact hx s hs
    · exact hv.body p hp s hs
    · exact hu s (by simp [hs])

/-- What a row can begin with is known once the sets are closed. -/
theorem mem_bodyFirst_of_begins (hv : g.Valid) (hplain : epsilonName ∉ g.terminals)
    (hkeyed : g.Keyed sets) (hclosed : g.Closed sets) (hu : g.Declared u) (h : g.Begins u a) :
    a ∈ g.bodyFirst sets u := by
  rcases h with ⟨rfl, hnil⟩ | ⟨ha, x, -, hlead⟩
  · exact mem_bodyFirst_of_leads hv hplain hkeyed hclosed hu hnil (SortedSet.mem_singleton.2 rfl)
  · refine mem_bodyFirst_of_leads hv hplain hkeyed hclosed hu hlead ?_
    rw [bodyFirst_of_terminal ha]
    exact SortedSet.mem_singleton.2 rfl

/-! ## The sets at the end -/

theorem firstSets_settled (hv : g.Valid) (hplain : epsilonName ∉ g.terminals) :
    g.Keyed g.firstSets ∧ g.FirstSound g.firstSets ∧ g.Closed g.firstSets := by
  obtain ⟨k, heq, hpasses⟩ := g.firstSets_eq_iterate
  have hsound : ∀ i,
      g.Keyed (g.firstPass^[i] g.noFirst) ∧ g.FirstSound (g.firstPass^[i] g.noFirst) := by
    intro i
    induction i with
    | zero => exact ⟨keyed_noFirst, sound_noFirst⟩
    | succ i ih =>
      rw [Function.iterate_succ_apply']
      refine List.foldlRecOn (motive := fun t => g.Keyed t ∧ g.FirstSound t) _ _ ih ?_
      rintro t ⟨hkeyed, ht⟩ p hp
      exact ⟨keyed_addFirst hv hp hkeyed, sound_addFirst hv hplain hp hkeyed ht⟩
  -- the last pass is the one that inserts nothing
  have hlast : ¬g.Inserts (g.firstPass^[k] g.noFirst) :=
    fun h => Nat.lt_irrefl k ((hpasses k le_rfl).1 h)
  obtain ⟨hsame, hclosed⟩ := closed_of_settled hv (hsound k).1 hlast
  rw [heq, Function.iterate_succ_apply', hsame]
  exact ⟨(hsound k).1, (hsound k).2, hclosed⟩

theorem mem_firstOf_firstSets (hv : g.Valid) (hplain : epsilonName ∉ g.terminals)
    (hA : A ∈ g.nonterminals) : a ∈ firstOf g.firstSets A ↔ g.Begins [A] a := by
  obtain ⟨hkeyed, hsound, hclosed⟩ := firstSets_settled hv hplain
  refine ⟨hsound A hA a, fun h => (mem_bodyFirst_singleton hv hkeyed hA).1 ?_⟩
  exact mem_bodyFirst_of_begins hv hplain hkeyed hclosed (List.forall_mem_singleton.2 (.inl hA)) h

/-- The order and the repetition of productions make no difference to derivations. -/
theorem leads_iff_of_mem_iff {ps : List Production} (hps : ∀ p, p ∈ ps ↔ p ∈ g.productions) :
    Leads { g with productions := ps } u v ↔ g.Leads u v := by
  -- the grammar of the theory has a set of rules
  have hrules : (ps.map g.rule).toFinset = (g.productions.map g.rule).toFinset := by
    ext r
    simp only [List.mem_toFinset, List.mem_map, hps]
  change ContextFreeGrammar.Derives { g.contextFree with rules := (ps.map g.rule).toFinset }
    (u.map g.letter) (v.map g.letter) ↔ _
  rw [hrules]
  rfl

theorem firstSets_eq_of_mem_iff (hv : g.Valid) (hplain : epsilonName ∉ g.terminals)
    {ps : List Production} (hps : ∀ p, p ∈ ps ↔ p ∈ g.productions) :
    { g with productions := ps }.firstSets = g.firstSets := by
  have hv' : Valid { g with productions := ps } :=
    { start := hv.start
      disjoint := hv.disjoint
      head := fun p hp => hv.head p ((hps p).1 hp)
      body := fun p hp => hv.body p ((hps p).1 hp) }
  have hbegins : ∀ A a, Begins { g with productions := ps } [A] a ↔ g.Begins [A] a := by
    intro A a
    simp only [Begins, leads_iff_of_mem_iff hps, Declared]
  have hkeyed := (firstSets_settled hv hplain).1
  have hkeyed' := (firstSets_settled hv' hplain).1
  refine eq_of_firstOf (g := g) hkeyed' hkeyed fun A hA a => ?_
  rw [mem_firstOf_firstSets hv' hplain hA, mem_firstOf_firstSets hv hplain hA, hbegins]

end

/--
**The FIRST sets hold what derivations begin with, and nothing else.**

Of any grammar the passes come to an end: each inserts a symbol but the last. Let the grammar be
valid and `ε` no terminal of it. Then the non-terminals have a set each and nothing else has one. A
terminal is in the set of `A` if `A` leads to a row that begins with it, `ε` is if `A` leads to the
empty row, and there is nothing else in the set. The sets do not depend on the order of the
productions, or on how often one is listed.
-/
theorem firstSets_exact (g : Grammar) :
    (∃ k, g.firstSets = g.firstPass^[k + 1] g.noFirst
        ∧ ∀ i ≤ k, g.Inserts (g.firstPass^[i] g.noFirst) ↔ i < k)
      ∧ (g.validate = .ok () → epsilonName ∉ g.terminals →
        (∀ A, (∃ first, g.firstSets.get? A = some first) ↔ A ∈ g.nonterminals)
        ∧ (∀ A first, g.firstSets.get? A = some first →
          (∀ a ∈ g.terminals, a ∈ first ↔ ∃ x, g.Declared x ∧ g.Leads [A] (a :: x))
          ∧ (epsilonName ∈ first ↔ g.Leads [A] [])
          ∧ ∀ a ∈ first, a = epsilonName ∨ a ∈ g.terminals)
        ∧ ∀ ps, (∀ p, p ∈ ps ↔ p ∈ g.productions) →
          { g with productions := ps }.firstSets = g.firstSets) := by
  refine ⟨g.firstSets_eq_iterate, fun hvalidate hplain => ?_⟩
  have hv := valid_of_validate hvalidate
  have hkeyed := (firstSets_settled hv hplain).1
  refine ⟨hkeyed, fun A first hfirst => ?_, fun ps => firstSets_eq_of_mem_iff hv hplain⟩
  have hA : A ∈ g.nonterminals := (hkeyed A).1 ⟨first, hfirst⟩
  have hmem : ∀ a, a ∈ first ↔ g.Begins [A] a := by
    intro a
    rw [← mem_firstOf_firstSets hv hplain hA, firstOf, hfirst, Option.getD_some]
  refine ⟨fun a ha => ?_, ?_, fun a ha => ?_⟩
  · -- a terminal is not `ε`, so it is there as the beginning of a row
    have hne : a ≠ epsilonName := fun heq => hplain (heq ▸ ha)
    simp [hmem, Begins, hne, ha]
  · simp [hmem, Begins, hplain]
  · rcases (hmem a).1 ha with ⟨heps, -⟩ | ⟨hterm, -⟩
    · exact .inl heps
    · exact .inr hterm

/-- Left recursion, and a pair of symbols that can both come to nothing before a terminal. -/
def recursive : Grammar where
  nonterminals := ["S", "A", "B"]
  terminals := ["a", "b", "c"]
  productions := [⟨"S", ["A", "B", "c"]⟩, ⟨"A", ["A", "a"]⟩, ⟨"A", []⟩, ⟨"B", ["b"]⟩, ⟨"B", []⟩]
  start := "S"

theorem recursive_firstSets_exact :
    recursive.validate = .ok () ∧ epsilonName ∉ recursive.terminals
      ∧ (∃ x, recursive.Leads ["S"] ("c" :: x)) ∧ recursive.Leads ["A"] []
      ∧ ¬recursive.Leads ["S"] []
      ∧ { recursive with productions := recursive.productions.reverse }.firstSets
        = recursive.firstSets := by
  have hv : recursive.validate = .ok () := rfl
  have hplain : epsilonName ∉ recursive.terminals := by decide
  obtain ⟨-, hexact⟩ := firstSets_exact recursive
  obtain ⟨-, hsets, horder⟩ := hexact hv hplain
  have hS : recursive.firstSets.get? "S" = some (.ofList ["a", "b", "c"]) := by decide +kernel
  have hA : recursive.firstSets.get? "A" = some (.ofList ["a", epsilonName]) := by decide +kernel
  obtain ⟨hterminal, hempty, -⟩ := hsets "S" _ hS
  refine ⟨hv, hplain, ?_, (hsets "A" _ hA).2.1.1 (by decide), fun h => ?_, ?_⟩
  · obtain ⟨x, -, hx⟩ := (hterminal "c" (by decide)).1 (by decide)
    exact ⟨x, hx⟩
  · exact absurd (hempty.2 h) (by decide)
  · exact horder _ fun p => List.mem_reverse

end AutomataLab.Grammar
