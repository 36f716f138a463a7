import AutomataLab.Proofs.Grammar.Conversion
import AutomataLab.Proofs.Grammar.Shapes

/-!
# The chart of a converted grammar

The conversion leaves three shapes of productions: pairs without terminals, single terminals, and
what had a single symbol before (`toNormalForm_shape`). Splitting sees to the number of symbols,
lifting to their kind; none of this depends on the grammar being valid.

In a valid grammar a symbol that is no terminal is a non-terminal. So only the single non-terminals
of the given grammar stand between the converted one and normal form, and a grammar without them can
be parsed once it is converted: the strict test lets it pass, and the verdict and each cell are
right for the given grammar without its productions of the empty word (`parseStrict_toNormalForm`).
-/

namespace AutomataLab.Grammar

variable {g : Grammar}

/-! ## Shapes after splitting -/

theorem splitBody_shape {st : Splitting} {head : String} {body : List String} (hbody : body ≠ []) :
    ∀ p ∈ (splitBody g st head body).2,
      p.body.length = 2 ∨ p = ⟨head, body⟩ ∧ body.length = 1 := by
  fun_induction splitBody g st head body
  case case1 st head a b c rest i y r ih =>
    refine List.forall_mem_cons.2 ⟨Or.inl rfl, fun p hp => ?_⟩
    -- what is left of the body has two symbols at least, so it is not kept whole
    rcases ih (by simp) p hp with hpair | ⟨-, hsingle⟩
    · exact Or.inl hpair
    · simp at hsingle
  case case2 st head body hshort =>
    refine List.forall_mem_singleton.2 ?_
    rcases body with _ | ⟨a, _ | ⟨b, _ | ⟨c, rest⟩⟩⟩
    · exact absurd rfl hbody
    · exact Or.inr ⟨rfl, rfl⟩
    · exact Or.inl rfl
    · exact absurd rfl (hshort a b c rest)

theorem splitAll_shape {st : Splitting} {productions : List Production}
    (hbody : ∀ p ∈ productions, p.body ≠ []) :
    ∀ p ∈ (splitAll g st productions).2,
      p.body.length = 2 ∨ p ∈ productions ∧ p.body.length = 1 := by
  induction productions generalizing st with
  | nil => exact fun p hp => absurd hp List.not_mem_nil
  | cons q rest ih =>
    obtain ⟨hq, hrest⟩ := List.forall_mem_cons.1 hbody
    refine List.forall_mem_append.2 ⟨fun p hp => ?_, fun p hp => ?_⟩
    · rcases splitBody_shape hq p hp with hpair | ⟨rfl, hsingle⟩
      · exact Or.inl hpair
      · exact Or.inr ⟨List.mem_cons_self, hsingle⟩
    · exact (ih hrest p hp).imp_right fun ⟨hmem, hsingle⟩ =>
        ⟨List.mem_cons_of_mem q hmem, hsingle⟩

/-! ## Shapes after lifting -/

/-- The names that terminals were given are not terminals. -/
def Isolates (g : Grammar) (st : Lifting) : Prop := ∀ x ∈ st.lifted, x.2 ∉ g.terminals

/-- What lifting puts in place of a production: a pair without terminals, or a single terminal. -/
def Isolated (g : Grammar) (p : Production) : Prop :=
  (∃ b c, p.body = [b, c] ∧ b ∉ g.terminals ∧ c ∉ g.terminals) ∨ ∃ a ∈ g.terminals, p.body = [a]

theorem liftSymbol_shape {st : Lifting} {s : String} (hst : g.Isolates st) :
    g.Isolates (liftSymbol g st s).1 ∧ (liftSymbol g st s).2.1 ∉ g.terminals
      ∧ ∀ p ∈ (liftSymbol g st s).2.2, g.Isolated p := by
  fun_cases liftSymbol g st s
  case case1 hterm name hlookup =>
    exact ⟨hst, hst _ (mem_of_lookup hlookup), fun p hp => absurd hp List.not_mem_nil⟩
  case case2 hterm hlookup name =>
    have hs : s ∈ g.terminals := by simpa [isTerminal] using hterm
    -- a new name is looked for among names that are not in use, those of the terminals included
    have hfresh : name ∉ g.terminals ++ st.nonterminals :=
      (firstFree_spec (liftedName_injective s) (g.terminals ++ st.nonterminals) 0).2
    have hname : name ∉ g.terminals := fun h => hfresh (List.mem_append_left _ h)
    exact ⟨List.forall_mem_cons.2 ⟨hname, hst⟩, hname,
      List.forall_mem_singleton.2 (Or.inr ⟨s, hs, rfl⟩)⟩
  case case3 hterm =>
    have hs : s ∉ g.terminals := by simpa [isTerminal] using hterm
    exact ⟨hst, hs, fun p hp => absurd hp List.not_mem_nil⟩

theorem liftProduction_shape {st : Lifting} {p : Production} (hst : g.Isolates st) :
    g.Isolates (liftProduction g st p).1
      ∧ ∀ q ∈ (liftProduction g st p).2, g.Isolated q ∨ q = p ∧ p.body.length ≠ 2 := by
  fun_cases liftProduction g st p
  case case1 a b hbody ra rb =>
    obtain ⟨hst₁, hname₁, hall₁⟩ := liftSymbol_shape (s := a) hst
    obtain ⟨hst₂, hname₂, hall₂⟩ := liftSymbol_shape (s := b) hst₁
    have hpair : g.Isolated ⟨p.head, [ra.2.1, rb.2.1]⟩ := Or.inl ⟨_, _, rfl, hname₁, hname₂⟩
    refine ⟨hst₂, fun q hq => Or.inl ?_⟩
    rcases List.mem_append.1 hq with hq | hq
    · exact List.forall_mem_append.2 ⟨hall₁, hall₂⟩ q hq
    · exact List.mem_singleton.1 hq ▸ hpair
  case case2 hother =>
    refine ⟨hst, List.forall_mem_singleton.2 (Or.inr ⟨rfl, fun hlen => ?_⟩)⟩
    obtain ⟨a, b, hbody⟩ := List.length_eq_two.1 hlen
    exact hother a b hbody

theorem liftAll_shape {st : Lifting} {productions : List Production} (hst : g.Isolates st) :
    ∀ q ∈ (liftAll g st productions).2,
      g.Isolated q ∨ q ∈ productions ∧ q.body.length ≠ 2 := by
  induction productions generalizing st with
  | nil => exact fun q hq => absurd hq List.not_mem_nil
  | cons p rest ih =>
    obtain ⟨hst', hall⟩ := liftProduction_shape (p := p) hst
    refine List.forall_mem_append.2 ⟨fun q hq => ?_, fun q hq => ?_⟩
    · rcases hall q hq with hq | ⟨rfl, hlen⟩
      · exact Or.inl hq
      · exact Or.inr ⟨List.mem_cons_self, hlen⟩
    · exact (ih hst' q hq).imp_right fun ⟨hmem, hlen⟩ => ⟨List.mem_cons_of_mem p hmem, hlen⟩

/-! ## The converted grammar -/

/-- **The shapes that the conversion leaves.** -/
theorem toNormalForm_shape :
    ∀ p ∈ g.toNormalForm.productions,
      g.Isolated p ∨ p ∈ g.productions ∧ p.body.length = 1 := by
  intro p hp
  have hkept : ∀ q ∈ g.withoutEpsilon.productions, q.body ≠ [] := by
    intro q hq
    have hfull := List.of_mem_filter hq
    simpa [Production.isEpsilon] using hfull
  rcases liftAll_shape (fun x hx => absurd hx List.not_mem_nil) p hp with hp | ⟨hp, hlen⟩
  · exact Or.inl hp
  · -- lifting isolates all pairs, so what it leaves over has no two symbols
    obtain ⟨hmem, hsingle⟩ := (splitAll_shape hkept p hp).resolve_left hlen
    exact Or.inr ⟨List.mem_of_mem_filter hmem, hsingle⟩

/-- In a valid grammar without single non-terminals this is normal form. -/
theorem toNormalForm_inNormalForm (hv : g.Valid) (hunit : ∀ p ∈ g.productions, ¬ g.IsUnit p) :
    g.toNormalForm.InNormalForm where
  toValid := toNormalForm_valid hv
  shape := fun p hp => by
    rcases toNormalForm_shape p hp with (⟨b, c, hbody, hb, hc⟩ | ⟨a, ha, hbody⟩) | ⟨hmem, hlen⟩
    · -- a pair without terminals is one of non-terminals, since all symbols are declared
      have hdecl := (toNormalForm_valid hv).body p hp
      rw [hbody] at hdecl
      have hb' := (hdecl b List.mem_cons_self).resolve_right hb
      have hc' := (hdecl c (List.mem_cons_of_mem b List.mem_cons_self)).resolve_right hc
      exact Or.inr ⟨b, hb', c, hc', hbody⟩
    · exact Or.inl ⟨a, ha, hbody⟩
    · -- a single symbol that was there before is a terminal, since it is no non-terminal
      obtain ⟨a, hbody⟩ := List.length_eq_one_iff.1 hlen
      have ha : a ∈ g.nonterminals ∨ a ∈ g.terminals := hv.body p hmem a (by simp [hbody])
      have hterm : a ∈ g.terminals := ha.resolve_left fun ha => hunit p hmem ⟨a, ha, hbody⟩
      exact Or.inl ⟨a, hterm, hbody⟩

/--
**Converting and then parsing decides membership.**

If no production of a valid grammar has a single non-terminal for its body, the strict test lets the
converted grammar pass on every word. The word is accepted exactly if the start symbol of the given
grammar derives it without productions of the empty word, and a non-terminal of the given grammar is
in the cell of a stretch exactly if it derives the stretch so. If the given grammar has no such
productions, this is derivation in the given grammar itself.
-/
theorem parseStrict_toNormalForm (hv : g.validate = .ok ())
    (hunit : ∀ p ∈ g.productions, ¬ g.IsUnit p) (w : List Char) :
    (∃ r, g.toNormalForm.parseStrict w = .ok r
      ∧ (r.accepted = true ↔ g.withoutEpsilon.Derives g.start (terminalsOf w))
      ∧ ∀ A ∈ g.nonterminals, ∀ i j, i ≤ j → j < w.length → ∃ cell, r.cell? i j = some cell
        ∧ (A ∈ cell ↔ g.withoutEpsilon.Derives A (terminalsOf ((w.drop i).take (j + 1 - i)))))
      ∧ ((∀ p ∈ g.productions, p.isEpsilon = false) → g.withoutEpsilon = g) := by
  have hvalid := valid_of_validate hv
  have h := toNormalForm_inNormalForm hvalid hunit
  refine ⟨⟨_, parseStrict_eq h w, ?_, ?_⟩, withoutEpsilon_eq_self⟩
  · rw [accepted_iff h]
    exact toNormalForm_derives_iff hvalid hvalid.start (terminalsOf w)
  · intro A hA i j hij hj
    have hA' : A ∈ g.toNormalForm.nonterminals := by
      obtain ⟨sense, hext, -⟩ := toNormalForm_explains hvalid
      exact hext.mem hA
    refine ⟨_, cell?_eq h (by omega) hj, ?_⟩
    rw [if_pos hij, mem_derivers, and_iff_right hA']
    exact toNormalForm_derives_iff hvalid hA _

/-- Long bodies with terminals in them, and a production of the empty word. -/
def wrapped : Grammar where
  nonterminals := ["S", "T"]
  terminals := ["a", "b", "c"]
  productions := [⟨"S", ["a", "T", "b"]⟩, ⟨"T", []⟩, ⟨"T", ["c"]⟩, ⟨"T", ["S", "T", "b", "c"]⟩]
  start := "S"

/-- Without the production of the empty word `ab` is lost, but not `acb`. -/
theorem wrapped_parseStrict_toNormalForm :
    wrapped.validate = .ok () ∧ (∀ p ∈ wrapped.productions, ¬ wrapped.IsUnit p)
      ∧ wrapped.withoutEpsilon.Derives "S" (terminalsOf ['a', 'c', 'b'])
      ∧ wrapped.withoutEpsilon.Derives "T" (terminalsOf ['c'])
      ∧ ¬ wrapped.withoutEpsilon.Derives "S" (terminalsOf ['a', 'b']) := by
  have hv : wrapped.validate = .ok () := rfl
  have hunit : ∀ p ∈ wrapped.productions, ¬ wrapped.IsUnit p := by simp [wrapped, IsUnit]
  obtain ⟨⟨r, hr, haccepted, hcells⟩, -⟩ := parseStrict_toNormalForm hv hunit ['a', 'c', 'b']
  obtain ⟨⟨r', hr', haccepted', -⟩, -⟩ := parseStrict_toNormalForm hv hunit ['a', 'b']
  have hyes : wrapped.toNormalForm.parseStrict ['a', 'c', 'b']
      = .ok ⟨true, [[["T_a"], [], ["S"]], [[], ["T", "T_c"], ["Y1"]], [[], [], ["T_b"]]]⟩ := by
    decide +kernel
  have hno : wrapped.toNormalForm.parseStrict ['a', 'b']
      = .ok ⟨false, [[["T_a"], []], [[], ["T_b"]]]⟩ := by
    decide +kernel
  obtain rfl := Except.ok.inj (hyes.symm.trans hr)
  obtain rfl := Except.ok.inj (hno.symm.trans hr')
  obtain ⟨cell, hcell, hmem⟩ := hcells "T" (by decide) 1 1 (by decide) (by decide)
  obtain rfl := Option.some.inj (hcell.symm.trans (by decide : _ = some ["T", "T_c"]))
  have hlost : ¬ wrapped.withoutEpsilon.Derives "S" (terminalsOf ['a', 'b']) :=
    fun h => absurd (haccepted'.2 h) (by decide)
  exact ⟨hv, hunit, haccepted.1 rfl, hmem.1 (by decide), hlost⟩

end AutomataLab.Grammar
