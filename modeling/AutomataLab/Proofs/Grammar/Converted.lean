import AutomataLab.Proofs.Grammar.Membership

/-!
# The converted grammar is valid, and normal if it can be

The conversion tries candidates for a name until one is free. It cannot try for long, since every
candidate that is in use is one of finitely many names (`firstFree_stops`). What it puts together
with such names is valid again: heads are those of the given grammar or invented, and no invented
name is empty.

A body that is a single non-terminal goes through both passes as it is (`mem_toNormalForm_of_single`)
and is not normal. All others come out in one of the two shapes of normal form. So the converted
grammar is in normal form exactly if the given one has no such body (`toNormalForm_well_shaped`).
-/

namespace AutomataLab.Grammar

/-! ## The search for a name ends -/

/-- Trying candidates from `i` on ends at `r`: all before it are in use, it is not, and no more have
been tried than there are names in use. -/
structure StopsAt (candidate : Nat → String) (avoid : List String) (i r : Nat) : Prop where
  /-- The search goes upwards. -/
  le : i ≤ r
  /-- It takes at most one step for each name in use. -/
  bounded : r ≤ i + avoid.length
  /-- No candidate is passed over that was free. -/
  used : ∀ j, i ≤ j → j < r → candidate j ∈ avoid
  /-- The search ends with a free name. -/
  free : candidate r ∉ avoid

theorem firstFree_used {candidate : Nat → String} {avoid : List String} {i j : Nat} (hij : i ≤ j)
    (hj : j < firstFree candidate avoid i) : candidate j ∈ avoid := by
  fun_induction firstFree candidate avoid i with
  | case1 avoid i hmem ih =>
    rcases Nat.eq_or_lt_of_le hij with rfl | hlt
    · exact hmem
    · exact List.mem_of_mem_erase (ih hlt hj)
  | case2 avoid i _ => omega

theorem firstFree_le (candidate : Nat → String) (avoid : List String) (i : Nat) :
    firstFree candidate avoid i ≤ i + avoid.length := by
  fun_induction firstFree candidate avoid i with
  | case1 avoid i hmem ih =>
    -- each candidate that is passed over strikes one name off
    have hlength := List.length_erase_of_mem hmem
    have hpos := List.length_pos_of_mem hmem
    omega
  | case2 avoid i _ => omega

/-- **The search for a name ends at the first one that is free.** -/
theorem firstFree_stops {candidate : Nat → String} (hinj : Function.Injective candidate)
    (avoid : List String) (i : Nat) :
    StopsAt candidate avoid i (firstFree candidate avoid i) where
  le := (firstFree_spec hinj avoid i).1
  bounded := firstFree_le candidate avoid i
  used := fun _ => firstFree_used
  free := (firstFree_spec hinj avoid i).2

/-! ## Heads are given or invented -/

section

variable {g : Grammar} {P : String → Prop}

theorem splitBody_heads (hrest : ∀ i, P (restName i)) {st : Splitting} {head : String}
    {body : List String} (hhead : P head) : ∀ p ∈ (splitBody g st head body).2, P p.head := by
  fun_induction splitBody g st head body
  case case1 st head a b c rest i y r ih =>
    -- the given head keeps the first pair, and an invented one takes the rest
    exact List.forall_mem_cons.2 ⟨hhead, ih (hrest i)⟩
  case case2 st head body _ => exact List.forall_mem_singleton.2 hhead

theorem splitAll_heads (hrest : ∀ i, P (restName i)) {st : Splitting}
    {productions : List Production} (hall : ∀ p ∈ productions, P p.head) :
    ∀ p ∈ (splitAll g st productions).2, P p.head := by
  induction productions generalizing st with
  | nil => exact hall
  | cons q rest ih =>
    obtain ⟨hq, hall⟩ := List.forall_mem_cons.1 hall
    exact List.forall_mem_append.2 ⟨splitBody_heads hrest hq, ih hall⟩

theorem liftSymbol_heads (hlift : ∀ a i, P (liftedName a i)) (st : Lifting) (s : String) :
    ∀ p ∈ (liftSymbol g st s).2.2, P p.head := by
  fun_cases liftSymbol g st s
  case case1 => exact fun p hp => absurd hp List.not_mem_nil
  case case2 => exact List.forall_mem_singleton.2 (hlift _ _)
  case case3 => exact fun p hp => absurd hp List.not_mem_nil

theorem liftProduction_heads (hlift : ∀ a i, P (liftedName a i)) {st : Lifting} {p : Production}
    (hp : P p.head) : ∀ q ∈ (liftProduction g st p).2, P q.head := by
  fun_cases liftProduction g st p
  case case1 a b hbody ra rb =>
    have ha : ∀ q ∈ ra.2.2, P q.head := liftSymbol_heads hlift st a
    have hb : ∀ q ∈ rb.2.2, P q.head := liftSymbol_heads hlift ra.1 b
    have hnew := List.forall_mem_append.2 ⟨ha, hb⟩
    exact List.forall_mem_append.2 ⟨hnew, List.forall_mem_singleton.2 hp⟩
  case case2 => exact List.forall_mem_singleton.2 hp

theorem liftAll_heads (hlift : ∀ a i, P (liftedName a i)) {st : Lifting}
    {productions : List Production} (hall : ∀ p ∈ productions, P p.head) :
    ∀ p ∈ (liftAll g st productions).2, P p.head := by
  induction productions generalizing st with
  | nil => exact hall
  | cons q rest ih =>
    obtain ⟨hq, hall⟩ := List.forall_mem_cons.1 hall
    exact List.forall_mem_append.2 ⟨liftProduction_heads hlift hq, ih hall⟩

/-- What holds of the given heads and of all names that can be invented holds of every head. -/
theorem toNormalForm_heads (hrest : ∀ i, P (restName i)) (hlift : ∀ a i, P (liftedName a i))
    (hall : ∀ p ∈ g.productions, P p.head) : ∀ p ∈ g.toNormalForm.productions, P p.head :=
  liftAll_heads hlift (splitAll_heads hrest fun p hp => hall p (List.mem_of_mem_filter hp))

end

theorem restName_ne_empty (i : Nat) : restName i ≠ "" := by
  intro h
  have hlength := congrArg String.length h
  simp [restName] at hlength

theorem liftedName_ne_empty (a : String) (i : Nat) : liftedName a i ≠ "" := by
  intro h
  have hlength := congrArg String.length h
  simp [liftedName] at hlength

/-- **The conversion of a grammar that passes validation passes it.** -/
theorem validate_toNormalForm {g : Grammar} (hv : g.validate = .ok ()) :
    g.toNormalForm.validate = .ok () := by
  obtain ⟨hvalid, hnamed, hheads⟩ := validate_eq_ok_iff.1 hv
  have hheads' := toNormalForm_heads (P := (· ≠ "")) restName_ne_empty liftedName_ne_empty hheads
  exact validate_eq_ok_iff.2 ⟨toNormalForm_valid hvalid, hnamed, hheads'⟩

/-! ## Single symbols are left alone -/

section

variable {g : Grammar} {p : Production} {a : String}

theorem mem_splitAll_of_single {st : Splitting} {productions : List Production}
    (hp : p ∈ productions) (hbody : p.body = [a]) : p ∈ (splitAll g st productions).2 := by
  induction productions generalizing st with
  | nil => exact absurd hp List.not_mem_nil
  | cons q rest ih =>
    rcases List.mem_cons.1 hp with rfl | hp
    · -- a body of one symbol is not split
      have hone : (splitBody g st p.head p.body).2 = [p] := by
        rw [hbody, splitBody.eq_def]
        exact congrArg (fun body => [Production.mk p.head body]) hbody.symm
      exact List.mem_append_left _ (hone ▸ List.mem_singleton_self p)
    · exact List.mem_append_right _ (ih hp)

theorem mem_liftAll_of_single {st : Lifting} {productions : List Production}
    (hp : p ∈ productions) (hbody : p.body = [a]) : p ∈ (liftAll g st productions).2 := by
  induction productions generalizing st with
  | nil => exact absurd hp List.not_mem_nil
  | cons q rest ih =>
    rcases List.mem_cons.1 hp with rfl | hp
    · have hone : (liftProduction g st p).2 = [p] := by simp [liftProduction, hbody]
      exact List.mem_append_left _ (hone ▸ List.mem_singleton_self p)
    · exact List.mem_append_right _ (ih hp)

/-- A production with a single symbol for its body is left alone. -/
theorem mem_toNormalForm_of_single (hp : p ∈ g.productions) (hbody : p.body = [a]) :
    p ∈ g.toNormalForm.productions := by
  have hfull : p.isEpsilon = false := by simp [Production.isEpsilon, hbody]
  have hkept : p ∈ g.productions.filter (!·.isEpsilon) := List.mem_filter.2 ⟨hp, by simp [hfull]⟩
  exact mem_liftAll_of_single (mem_splitAll_of_single hkept hbody) hbody

end

/-! ## Normal form -/

theorem isChomskyNormalForm_of_inNormalForm {g : Grammar} (h : g.InNormalForm) :
    g.isChomskyNormalForm = true := by
  refine List.all_eq_true.2 fun p hp => ?_
  have hhead := h.head p hp
  rcases h.shape p hp with ⟨a, ha, hbody⟩ | ⟨b, hb, c, hc, hbody⟩
  · simp [isNormal, isNonterminal, isTerminal, hhead, hbody, ha]
  · simp [isNormal, isNonterminal, hhead, hbody, hb, hc]

theorem body_toNormalForm {g : Grammar} {p : Production} (hp : p ∈ g.toNormalForm.productions) :
    p.isEpsilon = false ∧ p.body.length ≤ 2 := by
  have hbetween : p.body.length = 1 ∨ p.body.length = 2 := by
    rcases toNormalForm_shape p hp with (⟨b, c, hbody, -, -⟩ | ⟨a, -, hbody⟩) | ⟨-, hlen⟩
    · exact Or.inr (by simp [hbody])
    · exact Or.inl (by simp [hbody])
    · exact Or.inl hlen
  refine ⟨?_, by omega⟩
  rw [Bool.eq_false_iff, Ne, Production.isEpsilon, List.isEmpty_iff]
  intro hnil
  simp [hnil] at hbetween

/-- **A converted grammar is in normal form unless a single non-terminal is in the way.** -/
theorem isChomskyNormalForm_toNormalForm_iff {g : Grammar} (hv : g.Valid) :
    g.toNormalForm.isChomskyNormalForm = true ↔ ∀ p ∈ g.productions, ¬ g.IsUnit p := by
  constructor
  · rintro hnormal p hp ⟨b, hb, hbody⟩
    -- the production is still there, and its symbol still a non-terminal
    have hp' := mem_toNormalForm_of_single hp hbody
    have hb' : b ∉ g.toNormalForm.nonterminals :=
      (isNormal_single (toNormalForm_valid hv) hp' hbody).1 (List.all_eq_true.1 hnormal p hp')
    obtain ⟨sense, hext, -⟩ := toNormalForm_explains hv
    exact hb' (hext.mem hb)
  · intro hunit
    exact isChomskyNormalForm_of_inNormalForm (toNormalForm_inNormalForm hv hunit)

/--
**The conversion ends, in a valid grammar that is as normal as it can be.**

The search for each name ends at the first candidate that is free. What the conversion of a valid
grammar gives is valid and has the same terminals and the same start symbol. The non-terminals are
those of the given grammar and after them new ones, all different and none of them a symbol of the
given grammar. No body is empty or longer than two. And it is normal form exactly if no production
of the given grammar replaces a symbol by a single non-terminal.
-/
theorem toNormalForm_well_shaped {g : Grammar} (hv : g.validate = .ok ()) :
    ((∀ avoid i, StopsAt restName avoid i (firstFree restName avoid i))
        ∧ ∀ a avoid i, StopsAt (liftedName a) avoid i (firstFree (liftedName a) avoid i))
      ∧ g.toNormalForm.validate = .ok ()
      ∧ (g.toNormalForm.terminals = g.terminals ∧ g.toNormalForm.start = g.start)
      ∧ (∃ new, g.toNormalForm.nonterminals = g.nonterminals ++ new ∧ new.Nodup
        ∧ ∀ s ∈ new, s ∉ g.terminals ∧ s ∉ g.nonterminals)
      ∧ (∀ p ∈ g.toNormalForm.productions, p.isEpsilon = false ∧ p.body.length ≤ 2)
      ∧ (g.toNormalForm.isChomskyNormalForm = true ↔ ∀ p ∈ g.productions, ¬ g.IsUnit p) := by
  have hvalid := valid_of_validate hv
  obtain ⟨sense, hext, -⟩ := toNormalForm_explains hvalid
  obtain ⟨new, hnew, hnodup, hfresh⟩ := hext.added
  refine ⟨⟨firstFree_stops restName_injective, fun a => firstFree_stops (liftedName_injective a)⟩,
    validate_toNormalForm hv, ⟨rfl, rfl⟩, ⟨new, hnew, hnodup, fun s hs => ?_⟩,
    fun p => body_toNormalForm, isChomskyNormalForm_toNormalForm_iff hvalid⟩
  exact not_or.1 fun h => hfresh s hs (List.mem_append.2 h)

/-- Circles of single non-terminals stay outside normal form, long bodies with terminals come into it;
and where `Y1` is in use, the search for a name goes on to `Y2`. -/
theorem crowded_toNormalForm_well_shaped :
    (crowded.validate = .ok () ∧ wrapped.validate = .ok ())
      ∧ StopsAt restName (crowded.terminals ++ crowded.nonterminals) 1 2
      ∧ crowded.toNormalForm.validate = .ok ()
      ∧ (∃ new, crowded.toNormalForm.nonterminals = crowded.nonterminals ++ new ∧ new.Nodup
        ∧ ∀ s ∈ new, s ∉ crowded.terminals ∧ s ∉ crowded.nonterminals)
      ∧ ¬ crowded.toNormalForm.isChomskyNormalForm = true
      ∧ wrapped.toNormalForm.isChomskyNormalForm = true := by
  have hv : crowded.validate = .ok () := rfl
  have hv' : wrapped.validate = .ok () := rfl
  obtain ⟨⟨hsearch, -⟩, hvalid, -, hnames, -, hnormal⟩ := toNormalForm_well_shaped hv
  obtain ⟨-, -, -, -, -, hnormal'⟩ := toNormalForm_well_shaped hv'
  have hstops := hsearch (crowded.terminals ++ crowded.nonterminals) 1
  have hindex : firstFree restName (crowded.terminals ++ crowded.nonterminals) 1 = 2 := by
    decide +kernel
  rw [hindex] at hstops
  have hunit : crowded.IsUnit ⟨"S", ["Y1"]⟩ := ⟨"Y1", by decide, rfl⟩
  refine ⟨⟨hv, hv'⟩, hstops, hvalid, hnames, fun h => ?_, hnormal'.2 (by simp [wrapped, IsUnit])⟩
  exact hnormal.1 h _ (by decide) hunit

end AutomataLab.Grammar
