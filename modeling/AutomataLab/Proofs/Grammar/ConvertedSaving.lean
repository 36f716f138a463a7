import AutomataLab.Proofs.Grammar.Saving
import AutomataLab.Proofs.Grammar.Settled

/-!
# Converted grammars that are written and read again

A grammar that was read has legible bodies, and so it comes back. The conversion can give bodies
that are not legible: it puts names of several characters beside the symbols of a body, and it
gives each terminal in a pair a body of its own. Neither leaves room for a symbol `ε`. A name that
stands for the rest of a body is put beside all symbols but the last two, so `ε` must not be among
those. If it is one of the last two, then these are left as they are only if neither is a terminal
(`SignKept`).

Splitting keeps track of the first condition, lifting of the second. Lifting a terminal a second
time makes no production for it; that does no harm, since up to the first body that is not legible
no terminal `ε` has been lifted (`Clear`).

Where the conditions hold the converted grammar comes back, and nowhere else
(`toNormalForm_reload`).
-/

namespace AutomataLab.Grammar

open Production (Legible legible_of_notMem)

/-- The symbol `ε` stands at most in the last two places, and if it does, no terminal is there. -/
structure SignKept (g : Grammar) (body : List String) : Prop where
  /-- No `ε` is put beside the name of a rest. -/
  front : epsilonName ∉ body.take (body.length - 2)
  /-- A pair with `ε` in it keeps both its symbols. -/
  last : epsilonName ∈ body.drop (body.length - 2) →
    ∀ s ∈ body.drop (body.length - 2), s ∉ g.terminals

instance (g : Grammar) (body : List String) : Decidable (g.SignKept body) :=
  decidable_of_iff (_ ∧ _) ⟨fun h => ⟨h.1, h.2⟩, fun h => ⟨h.front, h.last⟩⟩

section

variable {g : Grammar} {body : List String} {productions : List Production} {a b : String}

theorem signKept_of_length_le (h : body.length ≤ 2) :
    g.SignKept body ↔ (epsilonName ∈ body → ∀ s ∈ body, s ∉ g.terminals) := by
  have hnone : body.length - 2 = 0 := by omega
  constructor
  · intro hk
    simpa [hnone] using hk.last
  · exact fun hlast => ⟨by simp [hnone], by simpa [hnone] using hlast⟩

theorem signKept_cons {c : String} {rest : List String} :
    g.SignKept (a :: b :: c :: rest) ↔ a ≠ epsilonName ∧ g.SignKept (b :: c :: rest) := by
  constructor
  · rintro ⟨hfront, hlast⟩
    obtain ⟨ha, hfront⟩ := not_or.1 (List.mem_cons.not.1 hfront)
    exact ⟨Ne.symm ha, hfront, hlast⟩
  · rintro ⟨ha, hfront, hlast⟩
    exact ⟨List.mem_cons.not.2 (not_or.2 ⟨Ne.symm ha, hfront⟩), hlast⟩

theorem signKept_of_notMem (h : epsilonName ∉ body) : g.SignKept body where
  front := fun hmem => h (List.mem_of_mem_take hmem)
  last := fun hmem => absurd (List.mem_of_mem_drop hmem) h

theorem legible_pair_iff :
    Legible [a, b] ↔ (a = epsilonName ∨ b = epsilonName → a.length = 1 ∧ b.length = 1) := by
  constructor
  · intro h hsign
    have hmem : epsilonName ∈ [a, b] := List.mem_pair.2 (hsign.imp Eq.symm Eq.symm)
    obtain ⟨-, hone⟩ := h hmem
    exact ⟨hone a List.mem_cons_self, hone b (List.mem_cons_of_mem a List.mem_cons_self)⟩
  · intro h hmem
    obtain ⟨ha, hb⟩ := h ((List.mem_pair.1 hmem).imp Eq.symm Eq.symm)
    exact ⟨by simp, List.forall_mem_cons.2 ⟨ha, List.forall_mem_singleton.2 hb⟩⟩

theorem legible_singleton_iff : Legible [a] ↔ a ≠ epsilonName := by
  constructor
  · rintro h rfl
    exact (h (List.mem_singleton_self _)).1 rfl
  · exact fun ha => legible_of_notMem fun hmem => ha (List.mem_singleton.1 hmem).symm

/-! ## Splitting -/

theorem one_lt_length_restName (i : Nat) : 1 < (restName i).length := by
  have hdigits : 0 < (toString i).length := Nat.length_repr_pos
  have hletter : "Y".length = 1 := rfl
  simp only [restName, String.length_append]
  omega

theorem ne_sign_of_one_lt_length (h : 1 < a.length) : a ≠ epsilonName := by
  rintro rfl
  exact absurd h (by decide)

theorem splitBody_legible_iff {st : Splitting} {head : String} (h : Legible body) :
    (∀ q ∈ (splitBody g st head body).2, Legible q.body ∧ g.SignKept q.body)
      ↔ g.SignKept body := by
  fun_induction splitBody g st head body
  case case1 st head a b c rest i y r ih =>
    have hy : 1 < y.length := one_lt_length_restName i
    have hy' : y ≠ epsilonName := ne_sign_of_one_lt_length hy
    -- the rest is legible because the body was
    have hrest : Legible (b :: c :: rest) := fun hmem =>
      ⟨by simp, fun s hs => (h (List.mem_cons_of_mem a hmem)).2 s (List.mem_cons_of_mem a hs)⟩
    -- beside a long name only `ε` is illegible
    have hpair : Legible [a, y] ∧ g.SignKept [a, y] ↔ a ≠ epsilonName := by
      constructor
      · rintro ⟨hlegible, -⟩ ha
        have := (legible_pair_iff.1 hlegible (Or.inl ha)).2
        omega
      · intro ha
        have hnot : epsilonName ∉ [a, y] := by simp [ha.symm, hy'.symm]
        exact ⟨legible_of_notMem hnot, signKept_of_notMem hnot⟩
    rw [List.forall_mem_cons, hpair, ih hrest, signKept_cons]
  case case2 st head body _ => simp [h]

theorem splitAll_legible_iff {st : Splitting} (h : ∀ p ∈ productions, Legible p.body) :
    (∀ q ∈ (splitAll g st productions).2, Legible q.body ∧ g.SignKept q.body)
      ↔ ∀ p ∈ productions, g.SignKept p.body := by
  induction productions generalizing st with
  | nil => exact iff_of_true (List.forall_mem_nil _) (List.forall_mem_nil _)
  | cons p rest ih =>
    obtain ⟨hp, hrest⟩ := List.forall_mem_cons.1 h
    rw [List.forall_mem_cons]
    exact List.forall_mem_append.trans (and_congr (splitBody_legible_iff hp) (ih hrest))

/-! ## Lifting -/

/-- No terminal `ε` has been lifted so far, and the names that terminals were given are long. -/
def Clear (st : Lifting) : Prop := ∀ x ∈ st.lifted, x.1 ≠ epsilonName ∧ 1 < x.2.length

theorem one_lt_length_liftedName (a : String) (i : Nat) : 1 < (liftedName a i).length := by
  have hletters : "T_".length = 2 := rfl
  simp only [liftedName, String.length_append]
  omega

/-- What may stand in a pair in place of `s`: a long name for a terminal, else `s` itself. -/
def StandsFor (g : Grammar) (t s : String) : Prop :=
  if s ∈ g.terminals then 1 < t.length else t = s

theorem StandsFor.eq_sign_iff {t : String} (h : g.StandsFor t a) :
    t = epsilonName ↔ a = epsilonName ∧ a ∉ g.terminals := by
  unfold StandsFor at h
  split at h
  · next ha => exact iff_of_false (ne_sign_of_one_lt_length h) fun hsign => hsign.2 ha
  · next ha => rw [h, and_iff_left ha]

theorem StandsFor.length_eq_one_iff {t : String} (h : g.StandsFor t a) :
    t.length = 1 ↔ a.length = 1 ∧ a ∉ g.terminals := by
  unfold StandsFor at h
  split at h
  · next ha => exact iff_of_false (by omega) fun hone => hone.2 ha
  · next ha => rw [h, and_iff_left ha]

/-- A pair with terminals replaced is legible if the pair was and no `ε` stood beside a terminal. -/
theorem legible_replaced_iff {a' b' : String} (ha : g.StandsFor a' a) (hb : g.StandsFor b' b) :
    ((a ∈ g.terminals → a ≠ epsilonName) ∧ (b ∈ g.terminals → b ≠ epsilonName))
        ∧ Legible [a', b']
      ↔ Legible [a, b] ∧ (epsilonName ∈ [a, b] → ∀ s ∈ [a, b], s ∉ g.terminals) := by
  simp only [legible_pair_iff, ha.eq_sign_iff, hb.eq_sign_iff, ha.length_eq_one_iff,
    hb.length_eq_one_iff, List.mem_pair, forall_eq_or_imp, forall_eq]
  grind

/-- Lifting one symbol of a pair gives a legible production unless the symbol is a terminal `ε`. -/
theorem liftSymbol_legible_iff {st : Lifting} (hst : Clear st) :
    ((∀ q ∈ (liftSymbol g st a).2.2, Legible q.body) ↔ (a ∈ g.terminals → a ≠ epsilonName))
      ∧ ((a ∈ g.terminals → a ≠ epsilonName) → Clear (liftSymbol g st a).1)
      ∧ g.StandsFor (liftSymbol g st a).2.1 a := by
  fun_cases liftSymbol g st a
  case case1 hterm name hlookup =>
    have ha : a ∈ g.terminals := by simpa [isTerminal] using hterm
    -- lifted before, and that was no `ε`
    obtain ⟨hsign, hname⟩ := hst _ (mem_of_lookup hlookup)
    exact ⟨iff_of_true (List.forall_mem_nil _) fun _ => hsign, fun _ => hst,
      (if_pos ha).mpr hname⟩
  case case2 hterm hlookup name =>
    have ha : a ∈ g.terminals := by simpa [isTerminal] using hterm
    have hname : 1 < name.length := one_lt_length_liftedName a _
    refine ⟨?_, fun hsign => List.forall_mem_cons.2 ⟨⟨hsign ha, hname⟩, hst⟩,
      (if_pos ha).mpr hname⟩
    -- lifted now, by a production whose body is the terminal alone
    rw [List.forall_mem_singleton, legible_singleton_iff]
    exact ⟨fun hsign _ => hsign, fun hsign => hsign ha⟩
  case case3 hterm =>
    have ha : a ∉ g.terminals := by simpa [isTerminal] using hterm
    exact ⟨iff_of_true (List.forall_mem_nil _) fun h => absurd h ha, fun _ => hst,
      (if_neg ha).mpr rfl⟩

theorem liftProduction_legible_iff {st : Lifting} {p : Production} (hst : Clear st)
    (hlen : p.body.length ≤ 2) :
    ((∀ q ∈ (liftProduction g st p).2, Legible q.body) ↔ Legible p.body ∧ g.SignKept p.body)
      ∧ (Legible p.body ∧ g.SignKept p.body → Clear (liftProduction g st p).1) := by
  rw [signKept_of_length_le hlen]
  fun_cases liftProduction g st p
  case case1 a b hbody ra rb =>
    obtain ⟨ha, hst₁, hra⟩ := liftSymbol_legible_iff (g := g) (a := a) hst
    rw [hbody]
    by_cases hsign : a ∈ g.terminals → a ≠ epsilonName
    · -- the second symbol is lifted in the state after the first, where no `ε` has been lifted
      -- either
      obtain ⟨hb, hst₂, hrb⟩ := liftSymbol_legible_iff (g := g) (a := b) (hst₁ hsign)
      rw [← legible_replaced_iff hra hrb, List.forall_mem_append, List.forall_mem_append, ha, hb,
        List.forall_mem_singleton]
      exact ⟨Iff.rfl, fun h => hst₂ h.1.2⟩
    · -- the first symbol is a terminal `ε`
      have hnot : ¬(Legible [a, b] ∧ (epsilonName ∈ [a, b] → ∀ s ∈ [a, b], s ∉ g.terminals)) := by
        rintro ⟨-, hlast⟩
        refine hsign fun hterm heq => ?_
        exact hlast (heq ▸ List.mem_cons_self) a List.mem_cons_self hterm
      refine ⟨iff_of_false (fun hall => hsign (ha.1 ?_)) hnot, fun h => absurd h hnot⟩
      exact (List.forall_mem_append.1 (List.forall_mem_append.1 hall).1).1
  case case2 hother =>
    refine ⟨?_, fun _ => hst⟩
    rw [List.forall_mem_singleton]
    -- of fewer than two symbols none is `ε`, if they are legible
    refine (and_iff_left_of_imp fun hp hmem => absurd ?_ (hp hmem).1).symm
    have htwo : p.body.length ≠ 2 := fun h => by
      obtain ⟨a, b, hbody⟩ := List.length_eq_two.1 h
      exact hother a b hbody
    have hpos := List.length_pos_of_mem hmem
    obtain ⟨c, hbody⟩ := List.length_eq_one_iff.1 (show p.body.length = 1 by omega)
    rw [hbody, List.mem_singleton] at hmem
    rw [hbody, hmem]

theorem liftAll_legible_iff {st : Lifting} (hst : Clear st)
    (hlen : ∀ p ∈ productions, p.body.length ≤ 2) :
    (∀ q ∈ (liftAll g st productions).2, Legible q.body)
      ↔ ∀ p ∈ productions, Legible p.body ∧ g.SignKept p.body := by
  induction productions generalizing st with
  | nil => exact iff_of_true (List.forall_mem_nil _) (List.forall_mem_nil _)
  | cons p rest ih =>
    obtain ⟨hp, hrest⟩ := List.forall_mem_cons.1 hlen
    obtain ⟨hiff, hclear⟩ := liftProduction_legible_iff (g := g) hst hp
    rw [List.forall_mem_cons]
    refine List.forall_mem_append.trans ((and_congr_left' hiff).trans ?_)
    -- if the first production is legible then lifting it was harmless, and the others can be judged
    exact and_congr_right fun h => ih (hclear h) hrest

/-! ## Converting -/

/-- **The conversion of legible bodies gives legible bodies exactly if no sign gets in its way.** -/
theorem legible_toNormalForm_iff (hg : ∀ p ∈ g.productions, Legible p.body) :
    (∀ q ∈ g.toNormalForm.productions, Legible q.body)
      ↔ ∀ p ∈ g.productions, g.SignKept p.body := by
  have hfull : ∀ p ∈ g.withoutEpsilon.productions, p.body ≠ [] ∧ Legible p.body := by
    intro p hp
    obtain ⟨hmem, hbody⟩ := List.mem_filter.1 hp
    exact ⟨by simpa [Production.isEpsilon] using hbody, hg p hmem⟩
  -- productions of the empty word are dropped, and they have no `ε` to lose
  have hempty : ∀ p : Production, p.isEpsilon = true → g.SignKept p.body := fun p hp =>
    signKept_of_notMem (by simp_all [Production.isEpsilon])
  have hlen : ∀ q ∈ (splitAll g ⟨g.nonterminals, 1⟩ g.withoutEpsilon.productions).2,
      q.body.length ≤ 2 := by
    intro q hq
    rcases splitAll_shape (fun p hp => (hfull p hp).1) q hq with htwo | ⟨-, hone⟩ <;> omega
  have hlift : (∀ q ∈ g.toNormalForm.productions, Legible q.body)
      ↔ ∀ p ∈ g.withoutEpsilon.productions, g.SignKept p.body :=
    (liftAll_legible_iff (fun _ hx => absurd hx List.not_mem_nil) hlen).trans
      (splitAll_legible_iff fun p hp => (hfull p hp).2)
  refine hlift.trans ⟨fun h p hp => ?_, fun h p hp => h p (List.mem_of_mem_filter hp)⟩
  cases hbody : p.isEpsilon with
  | true => exact hempty p hbody
  | false => exact h p (List.mem_filter.2 ⟨hp, by simp [hbody]⟩)

end

/--
**A converted grammar comes back exactly if no sign `ε` gets in the way of the conversion.**

For a grammar that was read and is valid this means that `ε` stands at most in the last two places
of a body, and there beside no terminal and not as one. It is so if `ε` is not declared. In any case
the converted grammar can be read, and what is read differs at most in bodies that are not legible.
-/
theorem toNormalForm_reload {text : String} {g : Grammar} (hload : ofText text = .ok g)
    (hv : g.validate = .ok ()) :
    (ofText g.toNormalForm.toJson.pretty = .ok g.toNormalForm
        ↔ ∀ p ∈ g.productions, g.SignKept p.body)
      ∧ (ofJson g.toNormalForm.toJson = .ok g.toNormalForm
        ↔ ∀ p ∈ g.productions, g.SignKept p.body)
      ∧ (epsilonName ∉ g.nonterminals → epsilonName ∉ g.terminals →
        ofText g.toNormalForm.toJson.pretty = .ok g.toNormalForm
          ∧ ofJson g.toNormalForm.toJson = .ok g.toNormalForm)
      ∧ ofText g.toNormalForm.toJson.pretty = .ok g.toNormalForm.readBack
      ∧ ofJson g.toNormalForm.toJson = .ok g.toNormalForm.readBack := by
  have htext : ofText g.toNormalForm.toJson.pretty = .ok g.toNormalForm.readBack := readText_toJson
  have hjson : ofJson g.toNormalForm.toJson = .ok g.toNormalForm.readBack := decode_toJson
  have hg := legible_of_decoder (Decoder.decode_of_readText hload)
  have hkept := readBack_eq_self_iff.trans (legible_toNormalForm_iff hg)
  have hiff : (.ok g.toNormalForm.readBack : Except LoadError Grammar) = .ok g.toNormalForm
      ↔ ∀ p ∈ g.productions, g.SignKept p.body := by
    rw [Except.ok.injEq]
    exact hkept
  refine ⟨htext ▸ hiff, hjson ▸ hiff, fun hn ht => ?_, htext, hjson⟩
  -- what is not declared is in no body
  have hnone : ∀ p ∈ g.productions, g.SignKept p.body := fun p hp =>
    signKept_of_notMem fun hmem => ((valid_of_validate hv).body p hp _ hmem).elim hn ht
  exact ⟨htext.trans (hiff.2 hnone), hjson.trans (hiff.2 hnone)⟩

/-- The sign is a non-terminal, in the second place from the end. -/
def signed : Grammar where
  nonterminals := ["S", "ε", "B"]
  terminals := ["a", "b"]
  productions := [⟨"S", ["a", "b", "ε", "B"]⟩, ⟨"ε", ["b"]⟩, ⟨"B", []⟩, ⟨"B", ["ε", "ε"]⟩]
  start := "S"

theorem signed_toNormalForm_reload :
    ofText signed.toJson.pretty = .ok signed ∧ signed.validate = .ok ()
      ∧ (∀ p ∈ signed.productions, signed.SignKept p.body)
      ∧ ofText signed.toNormalForm.toJson.pretty = .ok signed.toNormalForm
      ∧ ofJson signed.toNormalForm.toJson = .ok signed.toNormalForm
      ∧ signed.toNormalForm.productions
        = [⟨"T_a", ["a"]⟩, ⟨"S", ["T_a", "Y1"]⟩, ⟨"T_b", ["b"]⟩, ⟨"Y1", ["T_b", "Y2"]⟩,
          ⟨"Y2", ["ε", "B"]⟩, ⟨"ε", ["b"]⟩, ⟨"B", ["ε", "ε"]⟩] := by
  have hload := (reload_of_legible (g := signed) (by decide)).2
  have hv : signed.validate = .ok () := rfl
  have hkept : ∀ p ∈ signed.productions, signed.SignKept p.body := by decide
  obtain ⟨htext, hjson, -, -, -⟩ := toNormalForm_reload hload hv
  exact ⟨hload, hv, hkept, htext.2 hkept, hjson.2 hkept, by decide +kernel⟩

/-- The sign is a terminal beside another. -/
def signedEnd : Grammar where
  nonterminals := ["S"]
  terminals := ["a", "ε"]
  productions := [⟨"S", ["a", "ε"]⟩]
  start := "S"

/-- The production that the conversion makes for a terminal `ε` is read as one of the empty word. -/
theorem signedEnd_lost :
    ofText signedEnd.toJson.pretty = .ok signedEnd ∧ signedEnd.validate = .ok ()
      ∧ signedEnd.toNormalForm.productions
        = [⟨"T_a", ["a"]⟩, ⟨"T_ε", ["ε"]⟩, ⟨"S", ["T_a", "T_ε"]⟩]
      ∧ ofText signedEnd.toNormalForm.toJson.pretty = .ok { signedEnd.toNormalForm with
          productions := [⟨"T_a", ["a"]⟩, ⟨"T_ε", []⟩, ⟨"S", ["T_a", "T_ε"]⟩] }
      ∧ ofText signedEnd.toNormalForm.toJson.pretty ≠ .ok signedEnd.toNormalForm := by
  have hload := (reload_of_legible (g := signedEnd) (by decide)).2
  have hread : signedEnd.toNormalForm.readBack = { signedEnd.toNormalForm with
      productions := [⟨"T_a", ["a"]⟩, ⟨"T_ε", []⟩, ⟨"S", ["T_a", "T_ε"]⟩] } := by decide +kernel
  have htext : ofText signedEnd.toNormalForm.toJson.pretty = .ok signedEnd.toNormalForm.readBack :=
    readText_toJson
  rw [hread] at htext
  refine ⟨hload, rfl, by decide +kernel, htext, fun hsame => ?_⟩
  have hne : signedEnd.toNormalForm.readBack ≠ signedEnd.toNormalForm := by decide +kernel
  exact hne (hread.trans (Except.ok.inj (htext.symm.trans hsame)))

end AutomataLab.Grammar
