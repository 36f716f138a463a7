import AutomataLab.Proofs.Grammar.Membership

/-!
# Converting a converted grammar

A production is settled if the conversion has nothing to do with it: its body is a single symbol,
or a pair without terminals. Both passes put such productions out as they come in and invent no
name for them, so a grammar in which all are settled stays as it is. No other grammar does
(`toNormalForm_eq_self_iff`), since the conversion leaves nothing but settled productions.

Being settled depends on the terminals alone, and these the conversion keeps. So a converted
grammar is settled by its own terminals, and converting it once more changes nothing. No symbol
has to be declared for this, or to be declared only once.
-/

namespace AutomataLab.Grammar

/-- The body is a single symbol, or a pair without terminals. -/
def Settled (g : Grammar) (p : Production) : Prop :=
  p.body.length = 1 ∨ ∃ b c, p.body = [b, c] ∧ b ∉ g.terminals ∧ c ∉ g.terminals

section

variable {g : Grammar} {p : Production} {productions : List Production}

theorem Settled.length_le (h : g.Settled p) : p.body.length ≤ 2 := by
  rcases h with hone | ⟨b, c, hpair, -, -⟩
  · omega
  · simp [hpair]

theorem Settled.isEpsilon (h : g.Settled p) : p.isEpsilon = false := by
  rcases h with hone | ⟨b, c, hpair, -, -⟩
  · obtain ⟨a, hone⟩ := List.length_eq_one_iff.1 hone
    simp [Production.isEpsilon, hone]
  · simp [Production.isEpsilon, hpair]

/-! ## The passes leave settled productions alone -/

theorem splitBody_of_length_le {st : Splitting} {head : String} {body : List String}
    (h : body.length ≤ 2) : splitBody g st head body = (st, [⟨head, body⟩]) := by
  fun_cases splitBody g st head body with
  | case1 a b c rest =>
    simp only [List.length_cons] at h
    omega
  | case2 => rfl

theorem splitAll_of_settled {st : Splitting} (h : ∀ p ∈ productions, g.Settled p) :
    splitAll g st productions = (st, productions) := by
  induction productions with
  | nil => rfl
  | cons p rest ih =>
    obtain ⟨hp, hrest⟩ := List.forall_mem_cons.1 h
    rw [splitAll, splitBody_of_length_le hp.length_le, ih hrest]
    rfl

theorem liftSymbol_of_notMem {st : Lifting} {s : String} (h : s ∉ g.terminals) :
    liftSymbol g st s = (st, s, []) := by
  rw [liftSymbol, if_neg (by simpa [isTerminal] using h)]

theorem liftProduction_of_settled {st : Lifting} (h : g.Settled p) :
    liftProduction g st p = (st, [p]) := by
  fun_cases liftProduction g st p with
  | case1 b c hbody ra rb =>
    rcases h with hone | ⟨b', c', hpair, hb, hc⟩
    · simp [hbody] at hone
    · -- neither symbol of the pair is a terminal, so both stay and no production is added
      obtain ⟨rfl, rfl⟩ : b = b' ∧ c = c' := by simpa [hbody] using hpair
      have hra : ra = (st, b, []) := liftSymbol_of_notMem hb
      have hrb : rb = (st, c, []) := by
        rw [show rb = liftSymbol g ra.1 c from rfl, hra]
        exact liftSymbol_of_notMem hc
      rw [hra, hrb, ← hbody]
      rfl
  | case2 => rfl

theorem liftAll_of_settled {st : Lifting} (h : ∀ p ∈ productions, g.Settled p) :
    liftAll g st productions = (st, productions) := by
  induction productions with
  | nil => rfl
  | cons p rest ih =>
    obtain ⟨hp, hrest⟩ := List.forall_mem_cons.1 h
    rw [liftAll, liftProduction_of_settled hp, ih hrest]
    rfl

/-! ## What stays as it is -/

theorem settled_of_mem_toNormalForm (hp : p ∈ g.toNormalForm.productions) : g.Settled p := by
  rcases toNormalForm_shape p hp with (hpair | ⟨a, -, hbody⟩) | ⟨-, hone⟩
  · exact Or.inr hpair
  · exact Or.inl (by simp [hbody])
  · exact Or.inl hone

/-- **The conversion leaves a grammar as it is exactly if all of its productions are settled.** -/
theorem toNormalForm_eq_self_iff : g.toNormalForm = g ↔ ∀ p ∈ g.productions, g.Settled p := by
  constructor
  · intro heq p hp
    rw [← heq] at hp
    exact settled_of_mem_toNormalForm hp
  · intro h
    have hkept : g.productions.filter (!·.isEpsilon) = g.productions :=
      List.filter_eq_self.2 fun p hp => by rw [(h p hp).isEpsilon]; rfl
    rw [toNormalForm, hkept, splitAll_of_settled h]
    dsimp only
    rw [liftAll_of_settled h]

/-- In a valid grammar what may stand in normal form is settled, since no non-terminal is a
terminal. -/
theorem settled_of_isNormal (hv : g.Valid) (h : g.isNormal p = true) : g.Settled p := by
  have hnot : ∀ s ∈ g.nonterminals, s ∉ g.terminals := fun s hs ha => hv.disjoint s ha hs
  rw [isNormal, Bool.and_eq_true] at h
  obtain ⟨-, hbody⟩ := h
  split at hbody
  · next a hone => exact Or.inl (by simp [hone])
  · next b c hpair =>
    simp only [isNonterminal, Bool.and_eq_true, decide_eq_true_eq] at hbody
    exact Or.inr ⟨b, c, hpair, hnot b hbody.1, hnot c hbody.2⟩
  · exact absurd hbody (by simp)

end

/--
**Converting twice is converting once, and a grammar in normal form is not changed.**

The first holds of every grammar, also of one that uses undeclared symbols or declares a symbol
twice. Of a valid grammar in normal form the conversion gives the grammar itself. In general it does
so exactly if each body is a single symbol or a pair without terminals, whatever else is declared.
-/
theorem toNormalForm_settles (g : Grammar) :
    g.toNormalForm.toNormalForm = g.toNormalForm
      ∧ (g.validate = .ok () → g.isChomskyNormalForm = true → g.toNormalForm = g)
      ∧ (g.toNormalForm = g ↔ ∀ p ∈ g.productions, g.Settled p) := by
  refine ⟨?_, fun hv hnormal => ?_, toNormalForm_eq_self_iff⟩
  · -- the terminals are those of `g`, so being settled means the same after the conversion
    exact toNormalForm_eq_self_iff.2 fun p hp => settled_of_mem_toNormalForm (g := g) hp
  · have hvalid := valid_of_validate hv
    exact toNormalForm_eq_self_iff.2 fun p hp =>
      settled_of_isNormal hvalid (List.all_eq_true.1 hnormal p hp)

/-- A symbol of both kinds, one of neither kind, and names that look invented. -/
def muddled : Grammar where
  nonterminals := ["S", "Y1", "S"]
  terminals := ["a", "Y1", "T_a"]
  productions := [⟨"S", ["a", "Y1", "?", "T_a"]⟩, ⟨"?", ["Y1"]⟩, ⟨"Y1", []⟩]
  start := "X"

theorem muddled_toNormalForm_settles :
    muddled.toNormalForm.toNormalForm = muddled.toNormalForm ∧ muddled.toNormalForm ≠ muddled
      ∧ muddled.toNormalForm.productions
        = [⟨"T_a'", ["a"]⟩, ⟨"S", ["T_a'", "Y2"]⟩, ⟨"T_Y1", ["Y1"]⟩, ⟨"Y2", ["T_Y1", "Y3"]⟩,
          ⟨"T_T_a", ["T_a"]⟩, ⟨"Y3", ["?", "T_T_a"]⟩, ⟨"?", ["Y1"]⟩]
      ∧ (wrapped.toNormalForm.validate = .ok () ∧ wrapped.toNormalForm.isChomskyNormalForm = true)
      ∧ wrapped.toNormalForm.toNormalForm = wrapped.toNormalForm := by
  have hv : wrapped.toNormalForm.validate = .ok () := by decide +kernel
  have hnormal : wrapped.toNormalForm.isChomskyNormalForm = true := by decide +kernel
  obtain ⟨htwice, -, hself⟩ := toNormalForm_settles muddled
  refine ⟨htwice, fun heq => ?_, by decide +kernel, ⟨hv, hnormal⟩,
    (toNormalForm_settles wrapped.toNormalForm).2.1 hv hnormal⟩
  have hlong : muddled.Settled ⟨"S", ["a", "Y1", "?", "T_a"]⟩ := hself.1 heq _ (by simp [muddled])
  exact absurd hlong.length_le (by decide)

end AutomataLab.Grammar
