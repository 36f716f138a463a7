import AutomataLab.Proofs.Grammar.Growing

/-!
# What is grown down to a depth

A tree that is grown down to a depth is cut off there, and apart from that it follows the grammar.
Each tree in it is grown from its own symbol down to what is left of the depth (`grows_of_occursAt`),
so it is enough to look at roots: what has trees below it stands for a production, and what has none
is a terminal, an empty word, or a non-terminal that could not be replaced.

The trees of a grammar are defined without growing (`IsTree`): a terminal, or a production with a
tree for each symbol of its body. An empty body has no tree below it but counts as a level. If no leaf
of a grown tree is a non-terminal then a tree of the grammar has the same yield and is no higher than
the depth (`exists_isTree_of_grows`), and every tree of the grammar that is no higher than the depth
is met in this way (`exists_grows_of_isTree`).
-/

namespace AutomataLab

/-! ## Trees of a grammar -/

/-- A terminal, or a production with trees for its body. -/
inductive ParseTree where
  | terminal (a : String)
  | production (p : Production) (below : List ParseTree)

namespace ParseTree

/-- The symbol that a tree replaces. -/
def root : ParseTree → String
  | terminal a => a
  | production p _ => p.head

mutual

/-- The number of productions on the longest way down. -/
def height : ParseTree → Nat
  | terminal _ => 0
  | production _ below => heightOf below + 1

/-- The height of the highest of several trees. -/
def heightOf : List ParseTree → Nat
  | [] => 0
  | u :: rest => max (height u) (heightOf rest)

end

mutual

/-- The terminals from left to right. -/
def yield : ParseTree → List String
  | terminal a => [a]
  | production _ below => yieldOf below

/-- The yields of several trees in a row. -/
def yieldOf : List ParseTree → List String
  | [] => []
  | u :: rest => yield u ++ yieldOf rest

end

end ParseTree

/-- The trees of a grammar. -/
inductive Grammar.IsTree (g : Grammar) : ParseTree → Prop
  | terminal {a : String} : a ∈ g.terminals → IsTree g (.terminal a)
  | production {p : Production} {below : List ParseTree} : p ∈ g.productions →
      below.map ParseTree.root = p.body → (∀ u ∈ below, IsTree g u) →
        IsTree g (.production p below)

/-! ## Trees inside a tree -/

namespace DerivationTree

/-- A tree is met in another one, so many steps below the root. -/
inductive OccursAt : Nat → DerivationTree → DerivationTree → Prop
  | root (t : DerivationTree) : OccursAt 0 t t
  | inside {k : Nat} {u t : DerivationTree} {s : String} {ts : List DerivationTree} :
      t ∈ ts → OccursAt k u t → OccursAt (k + 1) u (.node s ts)

theorem occursAt_leaf {k : Nat} {u : DerivationTree} {s : String} (h : OccursAt k u (leaf s)) :
    u = leaf s := by
  cases h with
  | root => rfl
  | inside ht _ => exact absurd ht List.not_mem_nil

theorem depthBelow_le {ts : List DerivationTree} {n : Nat} (h : ∀ t ∈ ts, t.depth + 1 ≤ n) :
    depthBelow ts ≤ n := by
  induction ts with
  | nil => exact Nat.zero_le n
  | cons t rest ih =>
    obtain ⟨ht, hrest⟩ := List.forall_mem_cons.1 h
    rw [depthBelow]
    exact Nat.max_le.2 ⟨ht, ih hrest⟩

end DerivationTree

namespace Grammar

open DerivationTree

/-- A root with trees below it stands for a production of its symbol. An empty body is a single leaf
for the empty word. -/
def Expanded (g : Grammar) (t : DerivationTree) : Prop :=
  t.symbol ∈ g.nonterminals ∧ ∃ p ∈ g.productions, p.head = t.symbol
    ∧ ((p.body = [] ∧ t.children = [.leaf epsilonName])
      ∨ (p.body ≠ [] ∧ t.children.map symbol = p.body))

/-! ## Grown trees follow the grammar -/

section

variable {g : Grammar} {d k : Nat} {s : String} {t u : DerivationTree}

theorem symbol_of_grows (h : g.Grows d s t) : t.symbol = s := by
  cases d with
  | zero =>
    obtain rfl : t = .leaf s := h
    rfl
  | succ d => rcases h with ⟨-, rfl⟩ | ⟨-, p, -, ⟨-, rfl⟩ | ⟨-, ts, -, rfl⟩⟩ <;> rfl

/-- A row of grown trees shows the body, and each is grown from its own symbol. -/
theorem row_of_grows {body : List String} {ts : List DerivationTree}
    (h : List.Forall₂ (g.Grows d) body ts) :
    ts.map symbol = body ∧ ∀ t ∈ ts, g.Grows d t.symbol t := by
  induction h with
  | nil => exact ⟨rfl, fun t ht => absurd ht List.not_mem_nil⟩
  | cons ht _ ih =>
    have hsymbol := symbol_of_grows ht
    refine ⟨?_, List.forall_mem_cons.2 ⟨hsymbol.symm ▸ ht, ih.2⟩⟩
    rw [List.map_cons, hsymbol, ih.1]

/-- **A grown tree is no deeper than it was allowed to be.** -/
theorem depth_le_of_grows (h : g.Grows d s t) : t.depth ≤ d := by
  induction d generalizing s t with
  | zero =>
    obtain rfl : t = .leaf s := h
    exact Nat.le_refl 0
  | succ d ih =>
    rcases h with ⟨-, rfl⟩ | ⟨-, p, -, ⟨-, rfl⟩ | ⟨-, ts, hts, rfl⟩⟩
    · exact Nat.zero_le _
    · exact Nat.succ_le_succ (Nat.zero_le d)
    · exact depthBelow_le fun t ht => Nat.succ_le_succ (ih ((row_of_grows hts).2 t ht))

variable (hv : g.Valid)

include hv

theorem expanded_of_grows (h : g.Grows d s t) (hinner : t.children ≠ []) : g.Expanded t := by
  cases d with
  | zero =>
    obtain rfl : t = .leaf s := h
    exact absurd rfl hinner
  | succ d =>
    rcases h with ⟨-, rfl⟩ | ⟨-, p, hp, hbody⟩
    · exact absurd rfl hinner
    · obtain ⟨hmem, rfl⟩ := mem_candidates.1 hp
      rcases hbody with ⟨hbody, rfl⟩ | ⟨hbody, ts, hts, rfl⟩
      · exact ⟨hv.head p hmem, p, hmem, rfl, Or.inl ⟨hbody, rfl⟩⟩
      · exact ⟨hv.head p hmem, p, hmem, rfl, Or.inr ⟨hbody, (row_of_grows hts).1⟩⟩

omit hv in
theorem final_of_grows (hs : s ∈ g.nonterminals ∨ s ∈ g.terminals) (h : g.Grows d s t)
    (hleaf : t.children = []) :
    s ∈ g.terminals ∨ s ∈ g.nonterminals ∧ (d = 0 ∨ ∀ p ∈ g.productions, p.head ≠ s) := by
  rcases hs with hs | hs
  · refine (em (s ∈ g.terminals)).imp_right fun hnot => ⟨hs, ?_⟩
    cases d with
    | zero => exact Or.inl rfl
    | succ d =>
      rcases h with ⟨hend, -⟩ | ⟨-, p, -, ⟨-, rfl⟩ | ⟨hbody, ts, hts, rfl⟩⟩
      · -- growing stopped here: no production has this head
        have hnone : g.candidates s = [] := hend.resolve_left (by simpa [isTerminal] using hnot)
        exact Or.inr fun p hp hhead =>
          List.not_mem_nil (hnone ▸ mem_candidates.2 ⟨hp, hhead⟩)
      · -- an empty body shows the empty word below it
        exact absurd hleaf (List.cons_ne_nil _ _)
      · exact absurd hleaf (forall₂_ne_nil hts hbody)
  · exact Or.inl hs

/-- **Each tree in a grown one is grown itself,** down to what is left of the depth, but for the
leaves of empty bodies. -/
theorem grows_of_occursAt (hs : s ∈ g.nonterminals ∨ s ∈ g.terminals) (h : g.Grows d s t)
    (hu : OccursAt k u t) :
    u = .leaf epsilonName ∨ ∃ left, k + left = d
      ∧ (u.symbol ∈ g.nonterminals ∨ u.symbol ∈ g.terminals) ∧ g.Grows left u.symbol u := by
  induction hu generalizing d s with
  | root t =>
    obtain rfl := symbol_of_grows h
    exact Or.inr ⟨d, Nat.zero_add d, hs, h⟩
  | @inside k u t r ts ht hu ih =>
    -- with a tree in it this is not a leaf, so a production was chosen here
    have hne : ∀ s, DerivationTree.node r ts ≠ .leaf s := by
      rintro s heq
      obtain ⟨-, rfl⟩ := DerivationTree.node.inj heq
      exact List.not_mem_nil ht
    cases d with
    | zero => exact absurd h (hne s)
    | succ d =>
      rcases h with ⟨-, heq⟩ | ⟨-, p, hp, ⟨-, heq⟩ | ⟨-, ts', hts, heq⟩⟩
      · exact absurd heq (hne s)
      · obtain ⟨-, rfl⟩ := DerivationTree.node.inj heq
        obtain rfl := List.mem_singleton.1 ht
        -- the only tree below an empty body is the leaf for the empty word
        exact Or.inl (occursAt_leaf hu)
      · obtain ⟨-, rfl⟩ := DerivationTree.node.inj heq
        obtain ⟨hsymbols, hgrows⟩ := row_of_grows hts
        have hbody : t.symbol ∈ p.body := hsymbols ▸ List.mem_map_of_mem ht
        have hdeclared := hv.body p (mem_candidates.1 hp).1 _ hbody
        refine (ih hdeclared (hgrows t ht)).imp_right ?_
        rintro ⟨left, rfl, hu⟩
        exact ⟨left, Nat.add_right_comm k 1 left, hu⟩

end

/-! ## Grown trees and trees of the grammar -/

section

variable {g : Grammar} {d : Nat} {s : String} {t : DerivationTree} {u : ParseTree}

theorem exists_isTree_of_row {R : String → DerivationTree → Prop}
    (IH : ∀ s t, s ∈ g.nonterminals ∨ s ∈ g.terminals → R s t → g.Finished t →
      ∃ u, g.IsTree u ∧ u.root = s ∧ u.height ≤ d ∧ u.yield = t.yield)
    {body : List String} {ts : List DerivationTree} (h : List.Forall₂ R body ts)
    (hbody : ∀ s ∈ body, s ∈ g.nonterminals ∨ s ∈ g.terminals)
    (hdone : ∀ s ∈ leavesOf ts, s ∉ g.nonterminals) :
    ∃ us, (∀ u ∈ us, g.IsTree u) ∧ us.map ParseTree.root = body ∧ ParseTree.heightOf us ≤ d
      ∧ ParseTree.yieldOf us = DerivationTree.yieldOf ts := by
  induction h with
  | nil => exact ⟨[], fun u hu => absurd hu List.not_mem_nil, rfl, Nat.zero_le d, rfl⟩
  -- the trees that stand in the row are found one by one, and the highest of them decides
  | cons ht _ ih =>
    obtain ⟨hhead, hbody⟩ := List.forall_mem_cons.1 hbody
    rw [leavesOf] at hdone
    obtain ⟨hdone₁, hdone₂⟩ := List.forall_mem_append.1 hdone
    obtain ⟨u, hu, hroot, hheight, hyield⟩ := IH _ _ hhead ht hdone₁
    obtain ⟨us, hus, hroots, hheights, hyields⟩ := ih hbody hdone₂
    refine ⟨u :: us, List.forall_mem_cons.2 ⟨hu, hus⟩, ?_, Nat.max_le.2 ⟨hheight, hheights⟩, ?_⟩
    · rw [List.map_cons, hroot, hroots]
    · rw [ParseTree.yieldOf, DerivationTree.yieldOf_cons, hyield, hyields]

variable (hv : g.Valid) (hplain : epsilonName ∉ g.terminals)

include hv hplain

/-- **A finished tree shows a tree of the grammar** that is no higher than the depth. -/
theorem exists_isTree_of_grows (hs : s ∈ g.nonterminals ∨ s ∈ g.terminals) (h : g.Grows d s t)
    (hdone : g.Finished t) :
    ∃ u, g.IsTree u ∧ u.root = s ∧ u.height ≤ d ∧ u.yield = t.yield := by
  -- a leaf that is no non-terminal is a terminal or the sign of the empty word
  have hleaf : ∀ s d, s ∈ g.nonterminals ∨ s ∈ g.terminals → g.Finished (.leaf s) →
      ∃ u, g.IsTree u ∧ u.root = s ∧ u.height ≤ d ∧ u.yield = (DerivationTree.leaf s).yield := by
    intro s d hs hdone
    obtain ⟨hterm, hyield⟩ := terminal_of_finished hplain hs hdone
    exact ⟨.terminal s, .terminal hterm, rfl, Nat.zero_le d, hyield.symm⟩
  induction d generalizing s t with
  | zero =>
    obtain rfl : t = .leaf s := h
    exact hleaf s 0 hs hdone
  | succ d ih =>
    rcases h with ⟨-, rfl⟩ | ⟨-, p, hp, hbody⟩
    · exact hleaf s _ hs hdone
    · obtain ⟨hmem, rfl⟩ := mem_candidates.1 hp
      rcases hbody with ⟨hbody, rfl⟩ | ⟨hbody, ts, hts, rfl⟩
      · -- an empty body is a tree with nothing below it
        have htree : g.IsTree (.production p []) := .production hmem hbody.symm (by simp)
        exact ⟨.production p [], htree, rfl, Nat.succ_le_succ (Nat.zero_le d), rfl⟩
      · have hleaves := leaves_node (s := p.head) (forall₂_ne_nil hts hbody)
        rw [Finished, hleaves] at hdone
        obtain ⟨us, hus, hroots, hheights, hyields⟩ :=
          exists_isTree_of_row (fun _ _ => ih) hts (hv.body p hmem) hdone
        refine ⟨.production p us, .production hmem hroots hus, rfl, Nat.succ_le_succ hheights, ?_⟩
        rw [DerivationTree.yield, hleaves]
        exact hyields

omit hv hplain in
/-- Trees that are grown for each of several trees stand in a row. -/
theorem exists_row_of_trees {us : List ParseTree}
    (IH : ∀ u ∈ us, ∀ d ≥ u.height, ∃ t, g.Grows d u.root t ∧ g.Finished t ∧ t.yield = u.yield)
    (hd : ParseTree.heightOf us ≤ d) :
    ∃ ts, List.Forall₂ (g.Grows d) (us.map ParseTree.root) ts
      ∧ (∀ s ∈ leavesOf ts, s ∉ g.nonterminals)
      ∧ DerivationTree.yieldOf ts = ParseTree.yieldOf us := by
  induction us with
  | nil => exact ⟨[], .nil, fun s hs => absurd hs List.not_mem_nil, rfl⟩
  | cons u us ih =>
    obtain ⟨hhead, htail⟩ := List.forall_mem_cons.1 IH
    obtain ⟨hheight, hheights⟩ := Nat.max_le.1 hd
    obtain ⟨t, ht, hdone, hyield⟩ := hhead d hheight
    obtain ⟨ts, hts, hdones, hyields⟩ := ih htail hheights
    refine ⟨t :: ts, .cons ht hts, List.forall_mem_append.2 ⟨hdone, hdones⟩, ?_⟩
    rw [DerivationTree.yieldOf_cons, ParseTree.yieldOf, hyield, hyields]

/-- **Every tree of the grammar is met,** down to any depth that it fits in. -/
theorem exists_grows_of_isTree
    (hempty : ∀ p ∈ g.productions, p.body = [] → epsilonName ∉ g.nonterminals)
    (h : g.IsTree u) (d : Nat) (hd : u.height ≤ d) :
    ∃ t, g.Grows d u.root t ∧ g.Finished t ∧ t.yield = u.yield := by
  induction h generalizing d with
  | @terminal a ha =>
    -- a terminal of that name would be read as the empty word
    have hne : a ≠ epsilonName := fun he => hplain (he ▸ ha)
    have hdone : g.Finished (.leaf a) := by
      rw [Finished, leaves_leaf]
      exact List.forall_mem_singleton.2 (hv.disjoint a ha)
    exact ⟨.leaf a, grows_leaf ha d, hdone, yield_leaf hne⟩
  | @production p us hp hroots _ ih =>
    -- the production takes a level, also if nothing is below it
    obtain ⟨d, rfl⟩ : ∃ d', d = d' + 1 := ⟨d - 1, by rw [ParseTree.height] at hd; omega⟩
    obtain ⟨ts, hts, hdone, hyields⟩ := exists_row_of_trees ih (Nat.le_of_succ_le_succ hd)
    rw [hroots] at hts
    obtain ⟨t, ht, hdone, hyield⟩ := exists_grows_of_body hv hempty hp hts hdone
    exact ⟨t, ht, hdone, hyield.trans hyields⟩

end

/-! ## Depth and trees -/

/--
**What is grown down to a depth are the trees of that height, cut off where they are higher.**

Whoever chooses, the tree has the symbol for its root and is no deeper than the depth. What has trees
below it in the tree stands for a production. What has none is the empty word, a terminal, or a
non-terminal that lies at the depth or has no productions.

A text is the frontier of a tree without non-terminal leaves, for some answers that are in range and
are all used, exactly if it is the yield of a tree of the grammar that is no higher than the depth.
-/
theorem grown_trees_are_bounded {g : Grammar} (hv : g.validate = .ok ())
    (hterm : epsilonName ∉ g.terminals) (hnon : epsilonName ∉ g.nonterminals) {A : String}
    (hA : A ∈ g.nonterminals) (d : Nat) :
    (∀ {σ : Type} (choose : Chooser σ) (st : σ),
        (g.grow choose d A st).1.symbol = A ∧ (g.grow choose d A st).1.depth ≤ d
          ∧ ∀ k u, OccursAt k u (g.grow choose d A st).1 →
            (u.children ≠ [] → g.Expanded u)
              ∧ (u.children = [] → u.symbol = epsilonName ∨ u.symbol ∈ g.terminals
                ∨ u.symbol ∈ g.nonterminals
                  ∧ (k = d ∨ ∀ p ∈ g.productions, p.head ≠ u.symbol)))
      ∧ ∀ text : String,
        (∃ answers t, g.grow scripted d A (some answers) = (t, some []) ∧ g.Finished t
            ∧ t.frontier = text)
          ↔ ∃ u, g.IsTree u ∧ u.root = A ∧ u.height ≤ d ∧ String.join u.yield = text := by
  have hvalid := valid_of_validate hv
  constructor
  · -- whoever chooses, the tree is one of those that are grown
    intro σ choose st
    have h := grow_grows (g := g) choose d A st
    refine ⟨symbol_of_grows h, depth_le_of_grows h, fun k u hu => ?_⟩
    rcases grows_of_occursAt hvalid (Or.inl hA) h hu with rfl | ⟨left, rfl, hs, hu⟩
    · exact ⟨fun hinner => absurd rfl hinner, fun _ => Or.inl rfl⟩
    · refine ⟨expanded_of_grows hvalid hu, fun hleaf => Or.inr ?_⟩
      refine (final_of_grows hs hu hleaf).imp_right (And.imp_right (Or.imp_left ?_))
      rintro rfl
      rfl
  · -- a grown tree comes with the answers that lead to it, which need not be said any more
    intro text
    constructor
    · rintro ⟨answers, t, hanswers, hdone, rfl⟩
      obtain ⟨u, hu, hroot, hheight, hyield⟩ :=
        exists_isTree_of_grows hvalid hterm (Or.inl hA) (grows_iff.2 ⟨answers, hanswers⟩) hdone
      exact ⟨u, hu, hroot, hheight, hyield ▸ (frontier_eq t).symm⟩
    · rintro ⟨u, hu, rfl, hheight, rfl⟩
      obtain ⟨t, ht, hdone, hyield⟩ :=
        exists_grows_of_isTree hvalid hterm (fun _ _ _ => hnon) hu d hheight
      obtain ⟨answers, hanswers⟩ := grows_iff.1 ht
      exact ⟨answers, t, hanswers, hdone, hyield ▸ frontier_eq t⟩

/-- Two ways to end, one of them with nothing, a way to go on, and a way into a dead end. -/
def bushy : Grammar where
  nonterminals := ["S", "D"]
  terminals := ["a"]
  productions := [⟨"S", ["S", "S"]⟩, ⟨"S", ["a"]⟩, ⟨"S", []⟩, ⟨"S", ["D", "a"]⟩]
  start := "S"

/-- Down to two levels a single `a` beside nothing can be grown, and no tree is deeper. -/
theorem bushy_grown_trees_are_bounded :
    bushy.validate = .ok () ∧ epsilonName ∉ bushy.terminals ∧ epsilonName ∉ bushy.nonterminals
      ∧ "S" ∈ bushy.nonterminals
      ∧ (∀ answers, (bushy.grow scripted 2 "S" answers).1.depth ≤ 2)
      ∧ ∃ answers t, bushy.grow scripted 2 "S" (some answers) = (t, some []) ∧ bushy.Finished t
        ∧ t.frontier = "a" := by
  have hv : bushy.validate = .ok () := rfl
  have hterm : epsilonName ∉ bushy.terminals := by decide
  have hnon : epsilonName ∉ bushy.nonterminals := by decide
  have hA : "S" ∈ bushy.nonterminals := by decide
  have ha : bushy.IsTree (.production ⟨"S", ["a"]⟩ [.terminal "a"]) :=
    .production (by decide) rfl (List.forall_mem_singleton.2 (.terminal (by decide)))
  have hnothing : bushy.IsTree (.production ⟨"S", []⟩ []) :=
    .production (by decide) rfl fun u hu => absurd hu List.not_mem_nil
  have hpair : bushy.IsTree (.production ⟨"S", ["S", "S"]⟩
      [.production ⟨"S", ["a"]⟩ [.terminal "a"], .production ⟨"S", []⟩ []]) :=
    .production (by decide) rfl
      (List.forall_mem_cons.2 ⟨ha, List.forall_mem_singleton.2 hnothing⟩)
  obtain ⟨hgrown, htexts⟩ := grown_trees_are_bounded hv hterm hnon hA 2
  exact ⟨hv, hterm, hnon, hA, fun answers => (hgrown scripted answers).2.1,
    (htexts "a").2 ⟨_, hpair, rfl, by decide, rfl⟩⟩

end Grammar

end AutomataLab
