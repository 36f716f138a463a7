import AutomataLab.Grammar.Derivation
import AutomataLab.Proofs.Grammar.Chart

/-!
# What can be grown is what is derived

A tree is grown from answers: at each non-terminal one production is chosen out of those that there
are. `Grows g d s t` says which trees can come of it, without saying who answers. A chooser of any
kind grows such a tree (`grow_grows`), and each such tree is grown by one that has the answers
written down (`grows_iff`); so choosers are not mentioned again.

If no leaf of a tree is a non-terminal, its leaves in a row are a word of its root
(`spells_of_grows`). The other way round, every word has a tree, which is found as soon as the depth
suffices for all parts of the derivation (`exists_grows_of_spells`). For a grammar in normal form
the words of the start symbol are those that the chart accepts, so generator and recogniser agree
(`accepted_iff_grown`).
-/

namespace AutomataLab

/-! ## Leaves -/

namespace DerivationTree

mutual

/-- The symbols of the leaves, left to right. -/
def leaves : DerivationTree → List String
  | node s [] => [s]
  | node _ (t :: rest) => leaves t ++ leavesOf rest

/-- The symbols of the leaves of several trees in a row. -/
def leavesOf : List DerivationTree → List String
  | [] => []
  | t :: rest => leaves t ++ leavesOf rest

end

/-- The symbols of the leaves, without those of the empty word. -/
def yield (t : DerivationTree) : List String := t.leaves.filter (· ≠ epsilonName)

/-- The yields of several trees in a row. -/
def yieldOf (ts : List DerivationTree) : List String := (leavesOf ts).filter (· ≠ epsilonName)

theorem leaves_leaf (s : String) : (leaf s).leaves = [s] := by
  rw [leaf, leaves]

theorem leaves_node {s : String} {ts : List DerivationTree} (hts : ts ≠ []) :
    (node s ts).leaves = leavesOf ts := by
  cases ts with
  | nil => exact absurd rfl hts
  | cons t rest => rw [leaves, leavesOf]

theorem yieldOf_cons (t : DerivationTree) (rest : List DerivationTree) :
    yieldOf (t :: rest) = t.yield ++ yieldOf rest := by
  rw [yieldOf, leavesOf, List.filter_append]
  rfl

theorem yield_leaf_epsilon : (leaf epsilonName).yield = [] := by
  rw [yield, leaves_leaf]
  rfl

theorem yield_leaf {s : String} (hs : s ≠ epsilonName) : (leaf s).yield = [s] := by
  rw [yield, leaves_leaf]
  exact List.filter_eq_self.2 (by simpa using hs)

mutual

/-- The frontier is the yield in one piece. -/
theorem frontier_eq : ∀ t : DerivationTree, t.frontier = String.join t.yield
  | node s [] => by
    rw [frontier]
    by_cases hs : s = epsilonName
    · subst hs
      rw [if_pos rfl]
      exact (congrArg String.join yield_leaf_epsilon).symm
    · rw [if_neg hs]
      exact ((congrArg String.join (yield_leaf hs)).trans (by simp [String.join])).symm
  | node s (t :: rest) => by
    rw [frontier, frontier_eq t, frontiers_eq rest, ← String.join_append, ← yieldOf_cons]
    rfl

theorem frontiers_eq : ∀ ts : List DerivationTree, frontiers ts = String.join (yieldOf ts)
  | [] => rfl
  | t :: rest => by
    rw [frontiers, frontier_eq t, frontiers_eq rest, ← String.join_append, ← yieldOf_cons]

end

end DerivationTree

/-! ## Answers -/

/-- Answers that were written down beforehand are given in turn. Nothing is left of them once one
was missing or out of range. -/
def scripted : Chooser (Option (List Nat)) := fun n h script =>
  match script with
  | some (k :: rest) => if hk : k < n then (⟨k, hk⟩, some rest) else (⟨0, h⟩, none)
  | _ => (⟨0, h⟩, none)

theorem scripted_cons {n k : Nat} (h : 0 < n) (hk : k < n) (rest : List Nat) :
    scripted n h (some (k :: rest)) = (⟨k, hk⟩, some rest) := by
  rw [scripted, dif_pos hk]

namespace Grammar

/-! ## The trees that can be grown -/

/-- The trees that can be grown from a symbol down to a depth, whatever is chosen. -/
def Grows (g : Grammar) : Nat → String → DerivationTree → Prop
  | 0, s, t => t = .leaf s
  | d + 1, s, t =>
    ((g.isTerminal s = true ∨ g.candidates s = []) ∧ t = .leaf s)
      ∨ g.isTerminal s = false ∧ ∃ p ∈ g.candidates s,
        (p.body = [] ∧ t = .node s [.leaf epsilonName])
          ∨ (p.body ≠ [] ∧ ∃ ts, List.Forall₂ (Grows g d) p.body ts ∧ t = .node s ts)

variable {g : Grammar} {s : String} {t : DerivationTree} {d : Nat}

theorem mem_candidates {p : Production} :
    p ∈ g.candidates s ↔ p ∈ g.productions ∧ p.head = s := by
  rw [candidates, List.mem_filter, decide_eq_true_eq]

theorem isEpsilon_iff {p : Production} : p.isEpsilon = true ↔ p.body = [] := List.isEmpty_iff

/-- A tree that is grown from a chosen production. -/
theorem grow_of_choice {σ : Type} {choose : Chooser σ} (hs : g.isTerminal s = false)
    {h : 0 < (g.candidates s).length} {st st' : σ} {k : Fin (g.candidates s).length}
    (hk : choose _ h st = (k, st')) :
    g.grow choose (d + 1) s st
      = if (g.candidates s)[k].isEpsilon = true then (.node s [.leaf epsilonName], st')
        else
          let below := growRow (g.grow choose d) (g.candidates s)[k].body st'
          (.node s below.1, below.2) := by
  have hk₁ := congrArg Prod.fst hk
  have hk₂ := congrArg Prod.snd hk
  subst hk₁
  subst hk₂
  rw [grow, if_neg (by simp [hs]), dif_pos h]

/-- A symbol from which nothing can be chosen stays a leaf. -/
theorem grow_of_leaf {σ : Type} (choose : Chooser σ)
    (h : g.isTerminal s = true ∨ g.candidates s = []) (st : σ) :
    g.grow choose (d + 1) s st = (.leaf s, st) := by
  rw [grow]
  by_cases hs : g.isTerminal s = true
  · rw [if_pos hs]
  · rw [if_neg hs, dif_neg]
    rw [h.resolve_left hs]
    exact Nat.lt_irrefl 0

theorem grows_leaf (hs : s ∈ g.terminals) (d : Nat) : g.Grows d s (.leaf s) := by
  cases d with
  | zero => rfl
  | succ d => exact Or.inl ⟨Or.inl (by simpa [isTerminal] using hs), rfl⟩

theorem growRow_grows {σ : Type} {grow : String → σ → DerivationTree × σ}
    {R : String → DerivationTree → Prop} (IH : ∀ s st, R s (grow s st).1) :
    ∀ (body : List String) (st : σ), List.Forall₂ R body (growRow grow body st).1
  | [], _ => .nil
  | s :: rest, st => .cons (IH s st) (growRow_grows IH rest (grow s st).2)

/-- **Whoever chooses, a tree is grown that can be.** -/
theorem grow_grows {σ : Type} (choose : Chooser σ) (d : Nat) (s : String) (st : σ) :
    g.Grows d s (g.grow choose d s st).1 := by
  induction d generalizing s st with
  | zero => rfl
  | succ d ih =>
    by_cases hleaf : g.isTerminal s = true ∨ g.candidates s = []
    · rw [grow_of_leaf choose hleaf]
      exact Or.inl ⟨hleaf, rfl⟩
    · -- the chosen production is one of the candidates, whoever chose it
      obtain ⟨hs, hne⟩ := not_or.1 hleaf
      have hs' : g.isTerminal s = false := Bool.eq_false_iff.2 hs
      have h : 0 < (g.candidates s).length := List.length_pos_iff.2 hne
      refine Or.inr ⟨hs', _, List.getElem_mem (choose _ h st).1.isLt, ?_⟩
      rw [grow_of_choice (h := h) hs' rfl]
      split
      · next hp => exact Or.inl ⟨isEpsilon_iff.1 hp, rfl⟩
      · next hp =>
        exact Or.inr ⟨fun hbody => hp (isEpsilon_iff.2 hbody), _, growRow_grows ih _ _, rfl⟩

/-- A row of trees is grown from the answers for its trees in a row. -/
theorem exists_answers_of_row
    {grow : String → Option (List Nat) → DerivationTree × Option (List Nat)}
    {R : String → DerivationTree → Prop}
    (IH : ∀ s t, R s t → ∃ answers, ∀ rest, grow s (some (answers ++ rest)) = (t, some rest))
    {body : List String} {ts : List DerivationTree} (h : List.Forall₂ R body ts) :
    ∃ answers, ∀ rest, growRow grow body (some (answers ++ rest)) = (ts, some rest) := by
  induction h with
  | nil => exact ⟨[], fun _ => rfl⟩
  -- each tree uses up its own answers and leaves the others to those after it
  | cons ht _ ih =>
    obtain ⟨first, hfirst⟩ := IH _ _ ht
    obtain ⟨later, hlater⟩ := ih
    refine ⟨first ++ later, fun rest => ?_⟩
    rw [growRow, List.append_assoc, hfirst, hlater]

/-- What can be grown is grown from some answers, and no more of them are used. -/
theorem exists_answers_of_grows (h : g.Grows d s t) :
    ∃ answers, ∀ rest, g.grow scripted d s (some (answers ++ rest)) = (t, some rest) := by
  induction d generalizing s t with
  | zero =>
    obtain rfl : t = .leaf s := h
    exact ⟨[], fun _ => rfl⟩
  | succ d ih =>
    rcases h with ⟨hleaf, rfl⟩ | ⟨hs, p, hp, hbody⟩
    · exact ⟨[], fun rest => grow_of_leaf scripted hleaf _⟩
    · -- the answer is the place of the production among the candidates
      obtain ⟨k, hk, rfl⟩ := List.getElem_of_mem hp
      have hpos : 0 < (g.candidates s).length := Nat.zero_lt_of_lt hk
      rcases hbody with ⟨hbody, rfl⟩ | ⟨hbody, ts, hts, rfl⟩
      · refine ⟨[k], fun rest => ?_⟩
        rw [List.cons_append, grow_of_choice hs (scripted_cons hpos hk _)]
        exact if_pos (isEpsilon_iff.2 hbody)
      · obtain ⟨answers, hanswers⟩ := exists_answers_of_row (fun s t ht => ih ht) hts
        refine ⟨k :: answers, fun rest => ?_⟩
        have hfull : ¬(g.candidates s)[k].isEpsilon = true := fun h => hbody (isEpsilon_iff.1 h)
        rw [List.cons_append, grow_of_choice hs (scripted_cons hpos hk _)]
        refine (if_neg hfull).trans ?_
        exact congrArg (fun r => (DerivationTree.node s r.1, r.2)) (hanswers rest)

/-- **What can be grown is what is grown from answers that are in range.** -/
theorem grows_iff :
    g.Grows d s t ↔ ∃ answers, g.grow scripted d s (some answers) = (t, some []) := by
  constructor
  · intro h
    obtain ⟨answers, hanswers⟩ := exists_answers_of_grows h
    refine ⟨answers, ?_⟩
    rw [← hanswers [], List.append_nil]
  · rintro ⟨answers, hanswers⟩
    have h := grow_grows (g := g) scripted d s (some answers)
    rwa [hanswers] at h

/-! ## Trees without non-terminal leaves -/

/-- No leaf is a non-terminal: the tree was not cut off, and always something could be chosen. -/
def Finished (g : Grammar) (t : DerivationTree) : Prop := ∀ s ∈ t.leaves, s ∉ g.nonterminals

theorem forall₂_ne_nil {R : String → DerivationTree → Prop} {body : List String}
    {ts : List DerivationTree} (h : List.Forall₂ R body ts) (hbody : body ≠ []) : ts ≠ [] := by
  rintro rfl
  exact hbody (List.forall₂_nil_right_iff.1 h)

/-- A finished tree that is a leaf is a terminal. -/
theorem terminal_of_finished (hplain : epsilonName ∉ g.terminals)
    (hs : s ∈ g.nonterminals ∨ s ∈ g.terminals) (hdone : g.Finished (.leaf s)) :
    s ∈ g.terminals ∧ (DerivationTree.leaf s).yield = [s] := by
  have hterm : s ∈ g.terminals := hs.resolve_left (hdone s (by simp [DerivationTree.leaves_leaf]))
  have hne : s ≠ epsilonName := fun he => hplain (he ▸ hterm)
  exact ⟨hterm, DerivationTree.yield_leaf hne⟩

/-- The row of the yields is spelled by the row of the roots. -/
theorem spells_of_row {R : String → DerivationTree → Prop}
    (IH : ∀ s t, s ∈ g.nonterminals ∨ s ∈ g.terminals → R s t → g.Finished t →
      g.Spells [s] t.yield)
    {body : List String} {ts : List DerivationTree} (h : List.Forall₂ R body ts)
    (hbody : ∀ s ∈ body, s ∈ g.nonterminals ∨ s ∈ g.terminals)
    (hdone : ∀ s ∈ DerivationTree.leavesOf ts, s ∉ g.nonterminals) :
    g.Spells body (DerivationTree.yieldOf ts) := by
  induction h with
  | nil => exact .nil
  | cons ht _ ih =>
    obtain ⟨hhead, hbody⟩ := List.forall_mem_cons.1 hbody
    rw [DerivationTree.leavesOf] at hdone
    obtain ⟨hdone₁, hdone₂⟩ := List.forall_mem_append.1 hdone
    rw [DerivationTree.yieldOf_cons]
    exact spells_append (x := [_]) (IH _ _ hhead ht hdone₁) (ih hbody hdone₂)

section

variable (hv : g.Valid) (hplain : epsilonName ∉ g.terminals)

include hv hplain

/-- **The leaves of a finished tree are a word of its root.** -/
theorem spells_of_grows (hs : s ∈ g.nonterminals ∨ s ∈ g.terminals) (h : g.Grows d s t)
    (hdone : g.Finished t) : g.Spells [s] t.yield := by
  -- a leaf that is left in a finished tree is a terminal
  have hleaf : ∀ s, s ∈ g.nonterminals ∨ s ∈ g.terminals → g.Finished (.leaf s) →
      g.Spells [s] (DerivationTree.leaf s).yield := by
    intro s hs hdone
    obtain ⟨hterm, hyield⟩ := terminal_of_finished hplain hs hdone
    rw [hyield]
    exact .terminal (hv.disjoint s hterm) .nil
  induction d generalizing s t with
  | zero =>
    obtain rfl : t = .leaf s := h
    exact hleaf s hs hdone
  | succ d ih =>
    rcases h with ⟨-, rfl⟩ | ⟨-, p, hp, hbody⟩
    · exact hleaf s hs hdone
    · obtain ⟨hmem, rfl⟩ := mem_candidates.1 hp
      refine (spells_nonterminal_iff (hv.head p hmem)).2 ⟨p, hmem, rfl, ?_⟩
      rcases hbody with ⟨hbody, rfl⟩ | ⟨hbody, ts, hts, rfl⟩
      · -- an empty body spells nothing, and its leaf is not part of the yield
        rw [hbody]
        exact .nil
      · have hleaves := DerivationTree.leaves_node (s := p.head) (forall₂_ne_nil hts hbody)
        rw [Finished, hleaves] at hdone
        rw [DerivationTree.yield, hleaves]
        exact spells_of_row (fun _ _ => ih) hts (hv.body p hmem) hdone

variable (hempty : ∀ p ∈ g.productions, p.body = [] → epsilonName ∉ g.nonterminals)

omit hplain in
include hempty in
/-- Trees for the symbols of a body are put together to one for the head. -/
theorem exists_grows_of_body {p : Production} (hp : p ∈ g.productions) {ts : List DerivationTree}
    (hts : List.Forall₂ (g.Grows d) p.body ts)
    (hdone : ∀ s ∈ DerivationTree.leavesOf ts, s ∉ g.nonterminals) :
    ∃ t, g.Grows (d + 1) p.head t ∧ g.Finished t ∧ t.yield = DerivationTree.yieldOf ts := by
  have hnot : g.isTerminal p.head = false := by
    simpa [isTerminal] using fun hterm => hv.disjoint p.head hterm (hv.head p hp)
  have hcand : p ∈ g.candidates p.head := mem_candidates.2 ⟨hp, rfl⟩
  by_cases hbody : p.body = []
  · -- an empty body makes a leaf of its own, which counts for nothing
    rw [hbody] at hts
    obtain rfl := List.forall₂_nil_left_iff.1 hts
    refine ⟨.node p.head [.leaf epsilonName], Or.inr ⟨hnot, p, hcand, Or.inl ⟨hbody, rfl⟩⟩,
      ?_, rfl⟩
    exact List.forall_mem_singleton.2 (hempty p hp hbody)
  · have hleaves := DerivationTree.leaves_node (s := p.head) (forall₂_ne_nil hts hbody)
    refine ⟨.node p.head ts, Or.inr ⟨hnot, p, hcand, Or.inr ⟨hbody, ts, hts, rfl⟩⟩, ?_, ?_⟩
    · rw [Finished, hleaves]
      exact hdone
    · rw [DerivationTree.yield, hleaves]
      rfl

include hempty in
/-- **Every word has finished trees, down to any depth that suffices for it.** -/
theorem exists_grows_of_spells {body w : List String} (h : g.Spells body w)
    (hbody : ∀ s ∈ body, s ∈ g.nonterminals ∨ s ∈ g.terminals) :
    ∃ n, ∀ d ≥ n, ∃ ts, List.Forall₂ (g.Grows d) body ts
      ∧ (∀ s ∈ DerivationTree.leavesOf ts, s ∉ g.nonterminals)
      ∧ DerivationTree.yieldOf ts = w := by
  induction h with
  | nil => exact ⟨0, fun d _ => ⟨[], .nil, fun s hs => absurd hs List.not_mem_nil, rfl⟩⟩
  | @terminal a body w ha _ ih =>
    obtain ⟨hhead, hbody⟩ := List.forall_mem_cons.1 hbody
    have hterm : a ∈ g.terminals := hhead.resolve_left ha
    have hne : a ≠ epsilonName := fun he => hplain (he ▸ hterm)
    obtain ⟨n, hn⟩ := ih hbody
    refine ⟨n, fun d hd => ?_⟩
    obtain ⟨ts, hts, hdone, hyield⟩ := hn d hd
    refine ⟨.leaf a :: ts, .cons (grows_leaf hterm d) hts, List.forall_mem_cons.2 ⟨ha, hdone⟩, ?_⟩
    rw [DerivationTree.yieldOf_cons, DerivationTree.yield_leaf hne, hyield]
    rfl
  | @nonterminal p body u w hp _ _ _ ih₁ ih₂ =>
    obtain ⟨n₁, hn₁⟩ := ih₁ (hv.body p hp)
    obtain ⟨n₂, hn₂⟩ := ih₂ (List.forall_mem_cons.1 hbody).2
    -- the tree of the head has one level more than those of its body
    refine ⟨max (n₁ + 1) n₂, fun d hd => ?_⟩
    obtain ⟨d, rfl⟩ : ∃ d', d = d' + 1 := ⟨d - 1, by omega⟩
    obtain ⟨ts₁, hts₁, hdone₁, rfl⟩ := hn₁ d (by omega)
    obtain ⟨ts₂, hts₂, hdone₂, rfl⟩ := hn₂ (d + 1) (by omega)
    obtain ⟨t, ht, hdone, hyield⟩ := exists_grows_of_body hv hempty hp hts₁ hdone₁
    refine ⟨t :: ts₂, .cons ht hts₂, List.forall_mem_append.2 ⟨hdone, hdone₂⟩, ?_⟩
    rw [DerivationTree.yieldOf_cons, hyield]

include hempty in
/-- **A row of terminals is derived exactly if it is the yield of a finished tree.** -/
theorem derives_iff_grows {A : String} {w : List String} (hA : A ∈ g.nonterminals) :
    g.Derives A w ↔ ∃ d t, g.Grows d A t ∧ g.Finished t ∧ t.yield = w := by
  rw [derives_iff_spells hA]
  constructor
  · intro h
    obtain ⟨n, hn⟩ := exists_grows_of_spells hv hplain hempty h
      (List.forall_mem_singleton.2 (Or.inl hA))
    obtain ⟨ts, hts, hdone, hyield⟩ := hn n (Nat.le_refl n)
    -- a row of one symbol is grown as one tree
    cases hts with
    | cons ht hrest =>
      cases hrest
      rw [DerivationTree.leavesOf, DerivationTree.leavesOf, List.append_nil] at hdone
      rw [DerivationTree.yieldOf_cons] at hyield
      exact ⟨n, _, ht, hdone, (List.append_nil _).symm.trans hyield⟩
  · rintro ⟨d, t, ht, hdone, rfl⟩
    exact spells_of_grows hv hplain (Or.inl hA) ht hdone

end

/-! ## Generator and recogniser -/

theorem exists_terminalsOf {l : List String} (h : ∀ a ∈ l, a.length = 1) :
    ∃ u, l = terminalsOf u := by
  induction l with
  | nil => exact ⟨[], rfl⟩
  | cons a l ih =>
    obtain ⟨ha, hl⟩ := List.forall_mem_cons.1 h
    obtain ⟨u, rfl⟩ := ih hl
    rw [← String.length_toList, List.length_eq_one_iff] at ha
    obtain ⟨c, hc⟩ := ha
    refine ⟨c :: u, congrArg (· :: terminalsOf u) ?_⟩
    rw [← String.toList_inj, hc]
    exact (String.toList_singleton c).symm

theorem join_terminalsOf (u : List Char) : String.join (terminalsOf u) = String.ofList u := by
  rw [← String.toList_inj, String.toList_join, String.toList_ofList, terminalsOf,
    List.flatMap_map]
  simp [Char.toString]

/-- Where terminals are characters, a frontier is read in one way only. -/
theorem join_eq_ofList_iff {l : List String} (h : ∀ a ∈ l, a.length = 1) {w : List Char} :
    String.join l = String.ofList w ↔ l = terminalsOf w := by
  obtain ⟨u, rfl⟩ := exists_terminalsOf h
  rw [join_terminalsOf]
  constructor
  · intro heq
    rw [String.ofList_injective heq]
  · intro heq
    rw [← join_terminalsOf, heq, join_terminalsOf]

/-- In a grammar in normal form whose terminals are characters, words are what trees can be grown
to. -/
theorem accepted_iff_grows (h : g.InNormalForm)
    (hterm : ∀ a ∈ g.terminals, a.length = 1 ∧ a ≠ epsilonName) (w : List Char) :
    (g.parse w).accepted = true
      ↔ ∃ d t, g.Grows d g.start t ∧ g.Finished t ∧ t.frontier = String.ofList w := by
  have hplain : epsilonName ∉ g.terminals := fun he => (hterm _ he).2 rfl
  -- no body is empty in normal form
  have hempty : ∀ p ∈ g.productions, p.body = [] → epsilonName ∉ g.nonterminals := by
    intro p hp hbody
    rcases h.shape p hp with ⟨a, -, heq⟩ | ⟨b, -, c, -, heq⟩ <;> simp [heq] at hbody
  rw [accepted_iff h, derives_iff_grows h.toValid hplain hempty h.start]
  refine exists_congr fun d => exists_congr fun t => and_congr_right fun ht =>
    and_congr_right fun hdone => ?_
  have hs := spells_of_grows h.toValid hplain (Or.inl h.start) ht hdone
  -- the yield consists of terminals, and these are characters
  have hyield : ∀ a ∈ t.yield, a.length = 1 := fun a ha =>
    (hterm a (mem_terminals_of_spells h.toValid hs
      (List.forall_mem_singleton.2 (Or.inl h.start)) a ha)).1
  rw [DerivationTree.frontier_eq, join_eq_ofList_iff hyield]

/--
**Generator and recogniser agree.**

In a grammar in normal form whose terminals are characters, a word is accepted exactly if for some
depth some answers, all of them in range and all of them used, grow a tree without non-terminal
leaves that has the word for its frontier. Whoever gives the answers, if such a tree is grown then
its frontier is accepted.
-/
theorem accepted_iff_grown (hv : g.validate = .ok ()) (hn : g.isChomskyNormalForm = true)
    (hterm : ∀ a ∈ g.terminals, a.length = 1 ∧ a ≠ epsilonName) (w : List Char) :
    ((g.parse w).accepted = true ↔ ∃ d answers t,
        g.grow scripted d g.start (some answers) = (t, some []) ∧ g.Finished t
          ∧ t.frontier = String.ofList w)
      ∧ ∀ {σ : Type} (choose : Chooser σ) (d : Nat) (st : σ),
        g.Finished (g.grow choose d g.start st).1 →
          (g.grow choose d g.start st).1.frontier = String.ofList w →
            (g.parse w).accepted = true := by
  have h := inNormalForm_of_valid (valid_of_validate hv) hn
  constructor
  · rw [accepted_iff_grows h hterm]
    constructor
    · rintro ⟨d, t, ht, hdone, hw⟩
      obtain ⟨answers, hanswers⟩ := grows_iff.1 ht
      exact ⟨d, answers, t, hanswers, hdone, hw⟩
    · rintro ⟨d, answers, t, hanswers, hdone, hw⟩
      exact ⟨d, t, grows_iff.2 ⟨answers, hanswers⟩, hdone, hw⟩
  · intro σ choose d st hdone hw
    exact (accepted_iff_grows h hterm w).2 ⟨d, _, grow_grows choose d g.start st, hdone, hw⟩

/-- Some answers grow `aabb`, and no answers grow `abab`. -/
theorem nested_accepted_iff_grown :
    nested.validate = .ok () ∧ nested.isChomskyNormalForm = true
      ∧ (∀ a ∈ nested.terminals, a.length = 1 ∧ a ≠ epsilonName)
      ∧ (∃ d answers t, nested.grow scripted d "S" (some answers) = (t, some [])
          ∧ nested.Finished t ∧ t.frontier = "aabb")
      ∧ ¬∃ d answers t, nested.grow scripted d "S" (some answers) = (t, some [])
          ∧ nested.Finished t ∧ t.frontier = "abab" := by
  have hv : nested.validate = .ok () := rfl
  have hn : nested.isChomskyNormalForm = true := by decide
  have hterm : ∀ a ∈ nested.terminals, a.length = 1 ∧ a ≠ epsilonName := by decide
  have hyes := (accepted_iff_grown hv hn hterm ['a', 'a', 'b', 'b']).1
  have hno := (accepted_iff_grown hv hn hterm ['a', 'b', 'a', 'b']).1
  exact ⟨hv, hn, hterm, hyes.1 (by decide +kernel), fun h => by
    exact absurd (hno.2 h) (by decide +kernel)⟩

end Grammar

end AutomataLab
