import Mathlib.Computability.ContextFreeGrammar
import AutomataLab.Grammar.Validation
import AutomataLab.Proofs.Checks

/-!
# The words of a grammar

A grammar is read as a context-free grammar in the sense of the theory of formal languages
(`contextFree`): a name in a body is a non-terminal if it is declared as one and a terminal
otherwise. `Derives g A w` says that rewriting `A` step by step can end in the row of terminals
`w`. The order of the steps is free, which makes derivations hard to take apart. `Spells` replaces
the non-terminals from the left, each by a whole word at once, and comes to the same
(`derives_iff_spells`); everything about words is proved for it.
-/

namespace AutomataLab.Grammar

/-! ## Valid grammars -/

/-- Every name that is used is declared, and no name is declared in both ways. -/
structure Valid (g : Grammar) : Prop where
  /-- Words are derived from a declared non-terminal. -/
  start : g.start ∈ g.nonterminals
  /-- A name tells by itself which of the two it is. -/
  disjoint : ∀ a ∈ g.terminals, a ∉ g.nonterminals
  /-- Only non-terminals are replaced. -/
  head : ∀ p ∈ g.productions, p.head ∈ g.nonterminals
  /-- They are replaced by declared names. -/
  body : ∀ p ∈ g.productions, ∀ s ∈ p.body, s ∈ g.nonterminals ∨ s ∈ g.terminals

theorem checkStart_eq_ok_iff {g : Grammar} :
    g.checkStart = .ok () ↔ g.start ≠ "" ∧ g.start ∈ g.nonterminals := by
  by_cases h : g.start = "" <;> simp [checkStart, isNonterminal, h]

theorem checkTerminals_eq_ok_iff {g : Grammar} :
    g.checkTerminals = .ok () ↔ ∀ a ∈ g.terminals, a ∉ g.nonterminals := by
  unfold checkTerminals
  split
  · next s hfind =>
    refine iff_of_false (by simp) fun h => ?_
    exact h s (List.mem_of_find?_eq_some hfind) (by simpa [isNonterminal] using List.find?_some hfind)
  · next hfind => simpa [isNonterminal] using hfind

theorem checkProduction_eq_ok_iff {g : Grammar} {p : Production} :
    g.checkProduction p = .ok () ↔ p.head ≠ "" ∧ p.head ∈ g.nonterminals
      ∧ ∀ s ∈ p.body, s ∈ g.nonterminals ∨ s ∈ g.terminals := by
  have hdeclared : ∀ s, (!g.isNonterminal s && !g.isTerminal s) = true
      ↔ ¬(s ∈ g.nonterminals ∨ s ∈ g.terminals) := by simp [isNonterminal, isTerminal]
  by_cases hempty : p.head = ""
  · simp [checkProduction, hempty]
  by_cases hhead : p.head ∈ g.nonterminals
  · rw [checkProduction, if_neg hempty, if_neg (by simpa [isNonterminal] using hhead)]
    split
    · next s hfind =>
      have hs := List.find?_some hfind
      refine iff_of_false (by simp) fun h => ?_
      exact (hdeclared s).1 hs (h.2.2 s (List.mem_of_find?_eq_some hfind))
    · next hfind =>
      refine iff_of_true rfl ⟨hempty, hhead, fun s hs => ?_⟩
      exact not_not.1 fun hnot => List.find?_eq_none.1 hfind s hs ((hdeclared s).2 hnot)
  · simp [checkProduction, isNonterminal, hempty, hhead]

/-- Validation also asks for names that are not empty, where a name cannot be missing. -/
theorem validate_eq_ok_iff {g : Grammar} :
    g.validate = .ok () ↔ g.Valid ∧ g.start ≠ "" ∧ ∀ p ∈ g.productions, p.head ≠ "" := by
  rw [validate, check_bind_eq_ok_iff, check_bind_eq_ok_iff, forM_eq_ok_iff, checkStart_eq_ok_iff,
    checkTerminals_eq_ok_iff]
  simp only [checkProduction_eq_ok_iff]
  constructor
  · rintro ⟨⟨hnamed, hstart⟩, hdisjoint, hproductions⟩
    have hhead := fun p hp => (hproductions p hp).2.1
    have hbody := fun p hp => (hproductions p hp).2.2
    exact ⟨⟨hstart, hdisjoint, hhead, hbody⟩, hnamed, fun p hp => (hproductions p hp).1⟩
  · -- the checks look at heads and bodies one production at a time
    rintro ⟨hv, hnamed, hheads⟩
    exact ⟨⟨hnamed, hv.start⟩, hv.disjoint, fun p hp => ⟨hheads p hp, hv.head p hp, hv.body p hp⟩⟩

theorem valid_of_validate {g : Grammar} (h : g.validate = .ok ()) : g.Valid :=
  (validate_eq_ok_iff.1 h).1

/-! ## The grammar of the theory -/

/-- What a name stands for in a sentential form. -/
def letter (g : Grammar) (s : String) :=
  if s ∈ g.nonterminals then Symbol.nonterminal (T := String) s else Symbol.terminal s

/-- A production, with the names in its body told apart. -/
def rule (g : Grammar) (p : Production) : ContextFreeRule String String :=
  ⟨p.head, p.body.map g.letter⟩

/-- The grammar as one of the theory of formal languages. -/
abbrev contextFree (g : Grammar) : ContextFreeGrammar String where
  NT := String
  initial := g.start
  rules := (g.productions.map g.rule).toFinset

/-- Some derivation leads from a non-terminal to a row of terminals. -/
def Derives (g : Grammar) (A : String) (w : List String) : Prop :=
  g.contextFree.Derives [Symbol.nonterminal A] (w.map Symbol.terminal)

/-- Replacing the non-terminals of a body one after the other, from the left, by words of theirs
gives the row of terminals. -/
inductive Spells (g : Grammar) : List String → List String → Prop
  | nil : Spells g [] []
  | terminal {a : String} {body w : List String} :
      a ∉ g.nonterminals → Spells g body w → Spells g (a :: body) (a :: w)
  | nonterminal {p : Production} {body u w : List String} :
      p ∈ g.productions → p.head ∈ g.nonterminals → Spells g p.body u → Spells g body w →
      Spells g (p.head :: body) (u ++ w)

theorem spells_append {g : Grammar} {x y u v : List String} (hx : g.Spells x u)
    (hy : g.Spells y v) : g.Spells (x ++ y) (u ++ v) := by
  induction hx with
  | nil => exact hy
  | terminal ha _ ih => exact .terminal ha ih
  -- the first word has come about in front of the second already
  | nonterminal hp hhead hbody _ _ ih =>
    rw [List.append_assoc]
    exact .nonterminal hp hhead hbody ih

/-- A word of two rows in a row is a word of the first followed by a word of the second. -/
theorem spells_append_iff {g : Grammar} {x y w : List String} :
    g.Spells (x ++ y) w ↔ ∃ u v, w = u ++ v ∧ g.Spells x u ∧ g.Spells y v := by
  refine ⟨fun h => ?_, fun ⟨u, v, hw, hx, hy⟩ => hw ▸ spells_append hx hy⟩
  induction x generalizing w with
  | nil => exact ⟨[], w, rfl, .nil, h⟩
  | cons a x ih =>
    cases h with
    | @terminal _ _ w ha h =>
      obtain ⟨u, v, rfl, hu, hv⟩ := ih h
      exact ⟨a :: u, v, rfl, .terminal ha hu, hv⟩
    -- the word of the first symbol goes to the first row as a whole
    | @nonterminal p _ u' w hp hhead hbody h =>
      obtain ⟨u, v, rfl, hu, hv⟩ := ih h
      exact ⟨u' ++ u, v, (List.append_assoc u' u v).symm, .nonterminal hp hhead hbody hu, hv⟩

theorem spells_nil_iff {g : Grammar} {w : List String} : g.Spells [] w ↔ w = [] := by
  constructor
  · intro h
    cases h
    rfl
  · rintro rfl
    exact .nil

theorem spells_pair_iff {g : Grammar} {a b : String} {w : List String} :
    g.Spells [a, b] w ↔ ∃ u v, w = u ++ v ∧ g.Spells [a] u ∧ g.Spells [b] v :=
  spells_append_iff (x := [a]) (y := [b])

/-- The only word of a terminal is the terminal. -/
theorem spells_terminal_iff {g : Grammar} {a : String} {w : List String}
    (ha : a ∉ g.nonterminals) : g.Spells [a] w ↔ w = [a] := by
  constructor
  · intro h
    cases h with
    | terminal _ h => rw [spells_nil_iff.1 h]
    | nonterminal _ hhead _ _ => exact absurd hhead ha
  · rintro rfl
    exact .terminal ha .nil

/-- The words of a non-terminal are those of its bodies. -/
theorem spells_nonterminal_iff {g : Grammar} {A : String} {w : List String}
    (hA : A ∈ g.nonterminals) :
    g.Spells [A] w ↔ ∃ p ∈ g.productions, p.head = A ∧ g.Spells p.body w := by
  constructor
  · intro h
    cases h with
    | terminal ha _ => exact absurd hA ha
    | nonterminal hp _ hbody h =>
      obtain rfl := spells_nil_iff.1 h
      exact ⟨_, hp, rfl, by rwa [List.append_nil]⟩
  · rintro ⟨p, hp, rfl, hbody⟩
    have h := Spells.nonterminal hp hA hbody .nil
    rwa [List.append_nil] at h

/-- Only terminals are left in the end, and all of them are declared. -/
theorem mem_terminals_of_spells {g : Grammar} (hv : g.Valid) {body w : List String}
    (h : g.Spells body w) (hbody : ∀ s ∈ body, s ∈ g.nonterminals ∨ s ∈ g.terminals) :
    ∀ a ∈ w, a ∈ g.terminals := by
  induction h with
  | nil => exact fun a ha => absurd ha List.not_mem_nil
  -- what stands for itself is no non-terminal, so it is declared as a terminal
  | terminal hb _ ih =>
    obtain ⟨hhead, hrest⟩ := List.forall_mem_cons.1 hbody
    exact List.forall_mem_cons.2 ⟨hhead.resolve_left hb, ih hrest⟩
  | @nonterminal p body u w hp _ _ _ ih₁ ih₂ =>
    intro a ha
    rcases List.mem_append.1 ha with ha | ha
    · exact ih₁ (hv.body p hp) a ha
    · exact ih₂ (List.forall_mem_cons.1 hbody).2 a ha

/-! ## Both ways of deriving lead to the same words -/

theorem letter_eq_terminal {g : Grammar} {s a : String} (h : g.letter s = Symbol.terminal a) :
    s = a ∧ s ∉ g.nonterminals := by
  unfold letter at h
  split at h
  · exact absurd h (by simp)
  · next hs => exact ⟨Symbol.terminal.inj h, hs⟩

theorem letter_eq_nonterminal {g : Grammar} {s A : String}
    (h : g.letter s = Symbol.nonterminal A) : s = A ∧ s ∈ g.nonterminals := by
  unfold letter at h
  split at h
  · next hs => exact ⟨Symbol.nonterminal.inj h, hs⟩
  · exact absurd h (by simp)

theorem letter_of_mem {g : Grammar} {A : String} (hA : A ∈ g.nonterminals) :
    g.letter A = Symbol.nonterminal A := if_pos hA

/-- A row of letters that are all terminals spells itself. -/
theorem spells_of_map_letter {g : Grammar} {body w : List String}
    (h : body.map g.letter = w.map Symbol.terminal) : g.Spells body w := by
  induction body generalizing w with
  | nil =>
    obtain rfl := List.map_eq_nil_iff.1 h.symm
    exact .nil
  | cons s body ih =>
    cases w with
    | nil => exact absurd h (by simp)
    | cons a w =>
      rw [List.map_cons, List.map_cons] at h
      obtain ⟨hhead, hrest⟩ := List.cons.inj h
      obtain ⟨rfl, hs⟩ := letter_eq_terminal hhead
      exact .terminal hs (ih hrest)

/-- A step replaces one non-terminal of a body by a body of it. -/
theorem exists_of_produces {g : Grammar} {body : List String} {v}
    (hp : g.contextFree.Produces (body.map g.letter) v) :
    ∃ p ∈ g.productions, ∃ x y, p.head ∈ g.nonterminals ∧ body = x ++ [p.head] ++ y
      ∧ v = (x ++ p.body ++ y).map g.letter := by
  obtain ⟨r, hr, hrew⟩ := hp
  obtain ⟨p, hmem, rfl⟩ := List.mem_map.1 (List.mem_toFinset.1 hr)
  obtain ⟨pre, post, hbody, rfl⟩ := hrew.exists_parts
  obtain ⟨x, y, rfl, hx, rfl⟩ := List.map_eq_append_iff.1 hbody
  obtain ⟨x₁, x₂, rfl, rfl, hx₂⟩ := List.map_eq_append_iff.1 hx
  -- the replaced letter is that of one name of the body
  have hlen : x₂.length = 1 := by simpa using congrArg List.length hx₂
  obtain ⟨A, rfl⟩ := List.length_eq_one_iff.1 hlen
  obtain ⟨rfl, hA⟩ := letter_eq_nonterminal (List.cons.inj hx₂).1
  exact ⟨p, hmem, x₁, y, hA, rfl, by simp [rule]⟩

/-- What a body spells after one step it spells before the step. -/
theorem spells_of_produces {g : Grammar} {body : List String} {v w}
    (hp : g.contextFree.Produces (body.map g.letter) v)
    (ih : ∀ body', v = body'.map g.letter → g.Spells body' w) : g.Spells body w := by
  obtain ⟨p, hmem, x, y, hA, rfl, rfl⟩ := exists_of_produces hp
  -- the words of the replaced symbol are those of its body, wherever it stands
  obtain ⟨_, w₃, rfl, h, h₃⟩ := spells_append_iff.1 (ih (x ++ p.body ++ y) rfl)
  obtain ⟨w₁, w₂, rfl, h₁, h₂⟩ := spells_append_iff.1 h
  have hhead : g.Spells [p.head] w₂ := (spells_nonterminal_iff hA).2 ⟨p, hmem, rfl, h₂⟩
  exact spells_append (spells_append h₁ hhead) h₃

theorem spells_of_derives {g : Grammar} {body w : List String}
    (h : g.contextFree.Derives (body.map g.letter) (w.map Symbol.terminal)) :
    g.Spells body w := by
  generalize hu : body.map g.letter = u at h
  generalize hv : w.map Symbol.terminal = v at h
  -- from the last step back to the first, as each step is undone from what comes after it
  induction h using Relation.ReflTransGen.head_induction_on generalizing body with
  | refl => exact spells_of_map_letter (hu.trans hv.symm)
  | head hstep _ ih =>
    subst hu
    exact spells_of_produces hstep fun body' hbody => ih hbody.symm

theorem produces_of_mem {g : Grammar} {p : Production} (hp : p ∈ g.productions) :
    g.contextFree.Produces [Symbol.nonterminal p.head] (p.body.map g.letter) :=
  ⟨g.rule p, List.mem_toFinset.2 (List.mem_map_of_mem hp), ContextFreeRule.Rewrites.input_output⟩

theorem derives_of_spells {g : Grammar} {body w : List String} (h : g.Spells body w) :
    g.contextFree.Derives (body.map g.letter) (w.map Symbol.terminal) := by
  induction h with
  | nil => exact .refl _
  | @terminal a body w ha _ ih =>
    have h := ih.append_left [Symbol.terminal a]
    simpa [letter, ha] using h
  | @nonterminal p body u w hp hhead _ _ ih₁ ih₂ =>
    -- first the head all the way to its word, next to a body that waits
    have hfirst := ((produces_of_mem hp).trans_derives ih₁).append_right (body.map g.letter)
    have hrest := ih₂.append_left (u.map Symbol.terminal)
    have h := hfirst.trans hrest
    simpa [letter, hhead] using h

/-- **Replacing from the left, a word at a time, loses nothing.** -/
theorem derives_iff_spells {g : Grammar} {A : String} {w : List String}
    (hA : A ∈ g.nonterminals) : g.Derives A w ↔ g.Spells [A] w := by
  have h : [A].map g.letter = [Symbol.nonterminal A] := by
    rw [List.map_singleton, letter_of_mem hA]
  unfold Derives
  rw [← h]
  exact ⟨spells_of_derives, derives_of_spells⟩

end AutomataLab.Grammar
