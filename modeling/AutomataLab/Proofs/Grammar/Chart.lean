import AutomataLab.Grammar.Chart
import AutomataLab.Grammar.NormalForm
import AutomataLab.Proofs.Grammar.Language

/-!
# The chart of a grammar in normal form is exact

In a grammar in normal form a word of one character has the derivations that one production makes,
and a longer word is derived by a production of two non-terminals and a way to cut the word. The
chart follows this rule, so its cells hold what it says. `cells g w m` is the row that the chart
should have for the stretches that begin where `w` does; lengthening a row keeps it so
(`extendRow_cells`), and from the last position of the word to the first all rows are as they
should be (`rows_eq`).
-/

namespace AutomataLab.Grammar

/-! ## Derivations in normal form -/

/-- Every body is a terminal or a pair of non-terminals. -/
structure InNormalForm (g : Grammar) : Prop extends Valid g where
  /-- A body is a single terminal, or it is a pair and its word is cut in two. -/
  shape : ∀ p ∈ g.productions, (∃ a ∈ g.terminals, p.body = [a])
    ∨ ∃ b ∈ g.nonterminals, ∃ c ∈ g.nonterminals, p.body = [b, c]

theorem inNormalForm_of_valid {g : Grammar} (hv : g.Valid)
    (hn : g.isChomskyNormalForm = true) : g.InNormalForm where
  toValid := hv
  shape := fun p hp => by
    have h := List.all_eq_true.1 hn p hp
    simp only [isNormal, Bool.and_eq_true] at h
    have hbody := h.2
    split at hbody
    · next a heq => exact Or.inl ⟨a, by simpa [isTerminal] using hbody, heq⟩
    · next b c heq =>
      simp only [isNonterminal, Bool.and_eq_true, decide_eq_true_eq] at hbody
      exact Or.inr ⟨b, hbody.1, c, hbody.2, heq⟩
    · exact absurd hbody (by simp)

section

variable {g : Grammar} (h : g.InNormalForm)

include h

/-- No symbol is lost on the way to a word. -/
theorem length_le_of_spells {body w : List String} (hs : g.Spells body w) :
    body.length ≤ w.length := by
  induction hs with
  | nil => exact Nat.le_refl _
  | terminal _ _ ih => exact Nat.succ_le_succ ih
  | @nonterminal p body u w hp _ _ _ ih₁ ih₂ =>
    have hpos : 0 < p.body.length := by
      rcases h.shape p hp with ⟨a, _, heq⟩ | ⟨b, _, c, _, heq⟩ <;> simp [heq]
    simp only [List.length_cons, List.length_append]
    omega

theorem ne_nil_of_derives {A : String} {w : List String} (hA : A ∈ g.nonterminals)
    (hd : g.Derives A w) : w ≠ [] :=
  List.length_pos_iff.1 (length_le_of_spells h ((derives_iff_spells hA).1 hd))

theorem derives_singleton_iff {A a : String} (hA : A ∈ g.nonterminals) :
    g.Derives A [a] ↔ ∃ p ∈ g.productions, p.head = A ∧ p.body = [a] := by
  rw [derives_iff_spells hA, spells_nonterminal_iff hA]
  refine exists_congr fun p => and_congr_right fun hp => and_congr_right fun _ => ?_
  rcases h.shape p hp with ⟨b, hb, heq⟩ | ⟨b, _, c, _, heq⟩
  · rw [heq, spells_terminal_iff (h.disjoint b hb), eq_comm]
  · -- a pair derives two terminals at least
    refine iff_of_false (fun hs => ?_) (by simp [heq])
    have hlen := length_le_of_spells h hs
    simp [heq] at hlen

/-- A longer word is derived by a production of two non-terminals and a cut. -/
theorem derives_cut_iff {A : String} {w : List String} (hA : A ∈ g.nonterminals)
    (hw : 2 ≤ w.length) :
    g.Derives A w ↔ ∃ p ∈ g.productions, p.head = A ∧ ∃ b c, p.body = [b, c]
      ∧ ∃ u v, w = u ++ v ∧ g.Derives b u ∧ g.Derives c v := by
  rw [derives_iff_spells hA, spells_nonterminal_iff hA]
  refine exists_congr fun p => and_congr_right fun hp => and_congr_right fun _ => ?_
  rcases h.shape p hp with ⟨a, ha, heq⟩ | ⟨b, hb, c, hc, heq⟩
  · -- a terminal derives one terminal only
    refine iff_of_false (fun hs => ?_) (by simp [heq])
    rw [heq, spells_terminal_iff (h.disjoint a ha)] at hs
    simp [hs] at hw
  · rw [heq, spells_pair_iff]
    constructor
    · rintro ⟨u, v, rfl, hu, hv⟩
      exact ⟨b, c, rfl, u, v, rfl, (derives_iff_spells hb).2 hu, (derives_iff_spells hc).2 hv⟩
    · rintro ⟨b', c', heq', u, v, rfl, hu, hv⟩
      simp only [List.cons.injEq, and_true] at heq'
      obtain ⟨rfl, rfl⟩ := heq'
      exact ⟨u, v, rfl, (derives_iff_spells hb).1 hu, (derives_iff_spells hc).1 hv⟩

end

/-! ## Cells -/

/-- The row of terminals that a word is: each of its characters by itself. -/
def terminalsOf (w : List Char) : List String := w.map Char.toString

theorem terminalsOf_append (u v : List Char) :
    terminalsOf (u ++ v) = terminalsOf u ++ terminalsOf v := List.map_append

theorem length_terminalsOf (w : List Char) : (terminalsOf w).length = w.length := List.length_map _

open Classical in
/-- The non-terminals that derive a word, each once and in the order of their declaration. -/
noncomputable def derivers (g : Grammar) (w : List Char) : Cell :=
  g.nonterminals.eraseDups.filter fun A => decide (g.Derives A (terminalsOf w))

theorem mem_derivers {g : Grammar} {w : List Char} {A : String} :
    A ∈ g.derivers w ↔ A ∈ g.nonterminals ∧ g.Derives A (terminalsOf w) := by
  simp [derivers, List.mem_eraseDups]

/-- A filter that decides derivability finds them. -/
theorem filter_eq_derivers {g : Grammar} {w : List Char} {f : String → Bool}
    (hf : ∀ A ∈ g.nonterminals, f A = true ↔ g.Derives A (terminalsOf w)) :
    g.nonterminals.eraseDups.filter f = g.derivers w := by
  classical
  refine List.filter_congr fun A hA => Bool.eq_iff_iff.2 ?_
  exact (hf A (List.mem_eraseDups.1 hA)).trans decide_eq_true_iff.symm

theorem eraseDups_append_of_subset {l m : List String} (h : ∀ s ∈ m, s ∈ l) :
    (l ++ m).eraseDups = l.eraseDups := by
  have hnone : m.removeAll l = [] := List.filter_eq_nil_iff.2 fun s hs => by simpa using h s hs
  rw [List.eraseDups_append, hnone, List.eraseDups_nil, List.append_nil]

theorem nodup_eraseDups : ∀ l : List String, l.eraseDups.Nodup
  | [] => List.nodup_nil
  | a :: l => by
    rw [List.eraseDups_cons, List.nodup_cons]
    exact ⟨by simp [List.mem_eraseDups], nodup_eraseDups _⟩
termination_by l => l.length
decreasing_by exact Nat.lt_succ_of_le (List.length_filter_le _ l)

/-- The pairs of cells that belong to the cuts of a word into two parts. -/
def CellsOfCuts (g : Grammar) (w : List Char) (cuts : List (Cell × Cell)) : Prop :=
  ∀ cut, cut ∈ cuts ↔ ∃ u v, w = u ++ v ∧ u ≠ [] ∧ v ≠ [] ∧ cut = (g.derivers u, g.derivers v)

section

variable {g : Grammar} (h : g.InNormalForm)

include h

/-- In normal form only declared non-terminals are in use as such. -/
theorem usedNonterminals_eq : g.usedNonterminals = g.nonterminals.eraseDups := by
  refine eraseDups_append_of_subset fun s hs => ?_
  obtain ⟨p, hp, hs⟩ := List.mem_flatMap.1 hs
  have hhead := h.head p hp
  rcases h.shape p hp with ⟨a, _, heq⟩ | ⟨b, hb, c, hc, heq⟩
  · -- a terminal adds nothing to the names in use
    rw [heq] at hs
    exact List.mem_singleton.1 hs ▸ hhead
  · simp only [heq, List.mem_cons, List.not_mem_nil, or_false] at hs
    rcases hs with rfl | rfl | rfl
    · exact hhead
    · exact hb
    · exact hc

theorem unitCell_eq (c : Char) : g.unitCell c = g.derivers [c] := by
  rw [unitCell, usedNonterminals_eq h]
  refine filter_eq_derivers fun A hA => ?_
  simp only [List.any_eq_true, Bool.and_eq_true, decide_eq_true_eq]
  exact (derives_singleton_iff h hA).symm

/-- A pair derives a word if its two symbols are in the cells of the parts, for one of the cuts. -/
theorem joins_iff {w : List Char} {cuts : List (Cell × Cell)} (hcuts : CellsOfCuts g w cuts)
    {p : Production} (hp : p ∈ g.productions) :
    joins cuts p.body = true ↔ ∃ b c, p.body = [b, c]
      ∧ ∃ u v, terminalsOf w = u ++ v ∧ g.Derives b u ∧ g.Derives c v := by
  rcases h.shape p hp with ⟨a, _, heq⟩ | ⟨b, hb, c, hc, heq⟩
  · simp [heq, joins]
  · rw [heq]
    simp only [joins, List.any_eq_true, Bool.and_eq_true, decide_eq_true_eq]
    constructor
    · rintro ⟨cut, hmem, hbcut, hccut⟩
      obtain ⟨u, v, rfl, _, _, rfl⟩ := (hcuts cut).1 hmem
      exact ⟨b, c, rfl, terminalsOf u, terminalsOf v, terminalsOf_append u v,
        (mem_derivers.1 hbcut).2, (mem_derivers.1 hccut).2⟩
    · rintro ⟨b', c', heq', u, v, hw, hu, hv⟩
      simp only [List.cons.injEq, and_true] at heq'
      obtain ⟨rfl, rfl⟩ := heq'
      obtain ⟨x, y, rfl, rfl, rfl⟩ := List.map_eq_append_iff.1 hw
      -- only cuts into two proper parts have cells
      have hx : x ≠ [] := fun hx => ne_nil_of_derives h hb hu (by rw [hx]; rfl)
      have hy : y ≠ [] := fun hy => ne_nil_of_derives h hc hv (by rw [hy]; rfl)
      exact ⟨(g.derivers x, g.derivers y), (hcuts _).2 ⟨x, y, rfl, hx, hy, rfl⟩,
        mem_derivers.2 ⟨hb, hu⟩, mem_derivers.2 ⟨hc, hv⟩⟩

theorem pairCell_eq {w : List Char} {cuts : List (Cell × Cell)} (hw : 2 ≤ w.length)
    (hcuts : CellsOfCuts g w cuts) : g.pairCell cuts = g.derivers w := by
  rw [pairCell, usedNonterminals_eq h]
  refine filter_eq_derivers fun A hA => ?_
  have hlen : 2 ≤ (terminalsOf w).length := by rwa [length_terminalsOf]
  rw [derives_cut_iff h hA hlen]
  simp only [List.any_eq_true, Bool.and_eq_true, decide_eq_true_eq]
  exact exists_congr fun p => and_congr_right fun hp => and_congr_right fun _ =>
    joins_iff h hcuts hp

end

/-! ## Rows -/

/-- The cells of the `m` shortest stretches that begin where a word does. -/
noncomputable def cells (g : Grammar) (w : List Char) (m : Nat) : List Cell :=
  (List.range m).map fun k => g.derivers (w.take (k + 1))

/-- The row of a word: a cell for each stretch that begins where it does. -/
noncomputable def row (g : Grammar) (w : List Char) : List Cell := g.cells w w.length

/-- The rows of all positions of a word. -/
noncomputable def rowsOf (g : Grammar) (w : List Char) : List (List Cell) :=
  (List.range w.length).map fun i => g.row (w.drop i)

theorem length_cells (g : Grammar) (w : List Char) (m : Nat) : (g.cells w m).length = m := by
  simp [cells]

theorem getElem?_cells {g : Grammar} {w : List Char} {m k : Nat} (hk : k < m) :
    (g.cells w m)[k]? = some (g.derivers (w.take (k + 1))) := by
  simp [cells, hk]

theorem cells_succ (g : Grammar) (w : List Char) (m : Nat) :
    g.cells w (m + 1) = g.cells w m ++ [g.derivers (w.take (m + 1))] := by
  simp [cells, List.range_succ]

theorem rowsOf_cons (g : Grammar) (c : Char) (w : List Char) :
    g.rowsOf (c :: w) = g.row (c :: w) :: g.rowsOf w := by
  simp [rowsOf, List.range_succ_eq_map, Function.comp_def]

/-- The cells of the parts for each cut of the next stretch, read off the row so far and the rows
of the later positions. -/
theorem cuts_eq {g : Grammar} {c : Char} {w : List Char} {m : Nat} (hm : m ≤ w.length) :
    cuts (g.cells (c :: w) m) (g.rowsOf w) = (List.range m).map fun k =>
      (g.derivers ((c :: w).take (k + 1)), g.derivers ((w.drop k).take (m - k))) := by
  refine List.ext_getElem (by simp [cuts, rowsOf, length_cells, hm]) fun k hk hk' => ?_
  -- the second part begins `k + 1` characters on, in the row of the position it begins at
  have hkm : k < m := by simpa using hk'
  have hcell : (g.row (w.drop k))[m - 1 - k]? = some (g.derivers ((w.drop k).take (m - k))) := by
    rw [row, getElem?_cells (by rw [List.length_drop]; omega)]
    congr 3
    omega
  simp [cuts, cells, rowsOf, hcell]

theorem cellsOfCuts_cuts {g : Grammar} {c : Char} {w : List Char} {m : Nat} (hm : m ≤ w.length) :
    CellsOfCuts g ((c :: w).take (m + 1)) (cuts (g.cells (c :: w) m) (g.rowsOf w)) := by
  intro cut
  rw [cuts_eq hm, List.mem_map]
  constructor
  · rintro ⟨k, hk, rfl⟩
    have hkm := List.mem_range.1 hk
    refine ⟨(c :: w).take (k + 1), (w.drop k).take (m - k), ?_, by simp, ?_, rfl⟩
    · have hsum : m + 1 = k + 1 + (m - k) := by omega
      rw [hsum, List.take_add]
      rfl
    · refine List.length_pos_iff.1 ?_
      rw [List.length_take, List.length_drop]
      omega
  · rintro ⟨u, v, heq, hu, hv, rfl⟩
    -- a cut into two proper parts is made at one of the places that are gone through
    have hupos := List.length_pos_iff.2 hu
    have hvpos := List.length_pos_iff.2 hv
    have hlen : u.length + v.length = m + 1 := by
      have hlen := congrArg List.length heq
      simp only [List.length_take, List.length_cons, List.length_append] at hlen
      omega
    have hu' : (c :: w).take u.length = u := by
      have htake := congrArg (List.take u.length) heq
      rwa [List.take_take, Nat.min_eq_left (by omega), List.take_left] at htake
    have hv' : ((c :: w).drop u.length).take v.length = v := by
      have hdrop := congrArg (List.drop u.length) heq
      rwa [List.drop_take, List.drop_left, ← hlen, Nat.add_sub_cancel_left] at hdrop
    obtain ⟨k, hk⟩ : ∃ k, u.length = k + 1 := ⟨u.length - 1, by omega⟩
    refine ⟨k, List.mem_range.2 (by omega), ?_⟩
    rw [hk] at hu' hv'
    have hmk : m - k = v.length := by omega
    rw [hu', hmk]
    exact congrArg (fun x => (g.derivers u, g.derivers x)) hv'

/-- **Lengthening a row keeps it as it should be.** -/
theorem extendRow_cells {g : Grammar} (h : g.InNormalForm) {c : Char} {w : List Char} {n m : Nat}
    (hm : 1 ≤ m) (hnm : m + n ≤ w.length + 1) :
    g.extendRow (g.rowsOf w) n (g.cells (c :: w) m) = g.cells (c :: w) (m + n) := by
  -- every cell that is added makes the row that the next one is read off
  induction n generalizing m with
  | zero => rfl
  | succ n ih =>
    have hlen : 2 ≤ ((c :: w).take (m + 1)).length := by
      simp only [List.length_take, List.length_cons]
      omega
    -- all cells for shorter stretches are there, and they are what the next one is made of
    have hpair := pairCell_eq h hlen (cellsOfCuts_cuts (g := g) (c := c) (w := w) (by omega))
    rw [extendRow, hpair, ← cells_succ, ih (by omega) (by omega)]
    congr 1
    omega

/-- **Every row of the chart is as it should be.** -/
theorem rows_eq {g : Grammar} (h : g.InNormalForm) (w : List Char) : g.rows w = g.rowsOf w := by
  induction w with
  | nil => rfl
  | cons c w ih =>
    have hone : [g.unitCell c] = g.cells (c :: w) 1 := by
      rw [unitCell_eq h]
      rfl
    rw [rows, ih, hone, extendRow_cells h (Nat.le_refl 1) (by omega), rowsOf_cons, row,
      Nat.add_comm 1]
    rfl

/-! ## The chart -/

/-- The cell of the stretch from one position to another, both of them included. -/
def Parse.cell? (r : Parse) (i j : Nat) : Option Cell := r.table[i]?.bind (·[j]?)

theorem table_eq {g : Grammar} (h : g.InNormalForm) (w : List Char) :
    (g.parse w).table = (List.range w.length).map fun i =>
      List.replicate i [] ++ g.row (w.drop i) := by
  refine List.ext_getElem (by simp [parse, rows_eq h, rowsOf]) fun i _ _ => ?_
  simp [parse, rows_eq h, rowsOf]

theorem cell?_eq {g : Grammar} (h : g.InNormalForm) {w : List Char} {i j : Nat}
    (hi : i < w.length) (hj : j < w.length) :
    (g.parse w).cell? i j
      = some (if i ≤ j then g.derivers ((w.drop i).take (j + 1 - i)) else []) := by
  simp only [Parse.cell?, table_eq h, List.getElem?_map, List.getElem?_range hi, Option.map_some,
    Option.bind_some, List.getElem?_append, List.length_replicate]
  by_cases hij : i ≤ j
  · rw [if_neg (by omega), if_pos hij, row, getElem?_cells (by rw [List.length_drop]; omega)]
    congr 3
    omega
  · rw [if_pos (by omega), if_neg hij, List.getElem?_replicate, if_pos (by omega)]

theorem accepted_iff {g : Grammar} (h : g.InNormalForm) (w : List Char) :
    (g.parse w).accepted = true ↔ g.Derives g.start (terminalsOf w) := by
  cases w with
  -- the chart has no row to look into, and no empty word is derived
  | nil =>
    have hnot : ¬ g.Derives g.start [] := fun hd => ne_nil_of_derives h h.start hd rfl
    exact iff_of_false (by simp [parse, rows]) hnot
  | cons c w =>
    -- the last cell of the first row is that of the whole word
    have hlast : (g.row (c :: w)).getLast? = some (g.derivers (c :: w)) := by
      simp [row, List.length_cons, cells_succ]
    simp only [parse, rows_eq h, rowsOf_cons, hlast, Option.getD_some, decide_eq_true_eq]
    rw [mem_derivers]
    exact and_iff_right h.start

theorem parseStrict_eq {g : Grammar} (h : g.InNormalForm) (w : List Char) :
    g.parseStrict w = .ok (g.parse w) := by
  have hnone : g.productions.find? (!takesPart ·) = none := by
    refine List.find?_eq_none.2 fun p hp => ?_
    rcases h.shape p hp with ⟨a, _, heq⟩ | ⟨b, _, c, _, heq⟩ <;> simp [takesPart, heq]
  rw [parseStrict, hnone]

/--
**The chart of a grammar in normal form is exact.**

It has a cell for each pair of positions. The cell of a stretch lists the non-terminals that derive
the stretch, each once and in the order of declaration; where there is no stretch the cell is
empty. The word is accepted exactly if the start symbol derives it, which is never so for the empty
word, and the strict test agrees.
-/
theorem parse_exact {g : Grammar} (hv : g.validate = .ok ())
    (hn : g.isChomskyNormalForm = true) (w : List Char) :
    ((g.parse w).table.length = w.length ∧ ∀ row ∈ (g.parse w).table, row.length = w.length)
      ∧ (∀ i j, i ≤ j → j < w.length → ∃ cell, (g.parse w).cell? i j = some cell
        ∧ cell.Nodup ∧ cell.Sublist g.nonterminals.eraseDups
        ∧ ∀ A, A ∈ cell ↔ A ∈ g.nonterminals
          ∧ g.Derives A (terminalsOf ((w.drop i).take (j + 1 - i))))
      ∧ (∀ i j, j < i → i < w.length → (g.parse w).cell? i j = some [])
      ∧ ((g.parse w).accepted = true ↔ g.Derives g.start (terminalsOf w))
      ∧ (w = [] → (g.parse w).accepted = false)
      ∧ g.parseStrict w = .ok (g.parse w) := by
  have h := inNormalForm_of_valid (valid_of_validate hv) hn
  refine ⟨⟨?_, ?_⟩, ?_, ?_, accepted_iff h w, ?_, parseStrict_eq h w⟩
  · simp [table_eq h]
  · intro row hrow
    rw [table_eq h] at hrow
    obtain ⟨i, hi, rfl⟩ := List.mem_map.1 hrow
    have hi' := List.mem_range.1 hi
    simp only [Grammar.row, List.length_append, List.length_replicate, length_cells,
      List.length_drop]
    omega
  · intro i j hij hj
    refine ⟨_, cell?_eq h (by omega) hj, ?_⟩
    rw [if_pos hij]
    exact ⟨(nodup_eraseDups g.nonterminals).filter _, List.filter_sublist, fun A => mem_derivers⟩
  · intro i j hji hi
    rw [cell?_eq h hi (by omega), if_neg (by omega)]
  · rintro rfl
    rfl

/-- As many `a` as `b`, and at least one of each. -/
def nested : Grammar where
  nonterminals := ["S", "T", "A", "B"]
  terminals := ["a", "b"]
  productions := [⟨"S", ["A", "B"]⟩, ⟨"S", ["A", "T"]⟩, ⟨"T", ["S", "B"]⟩, ⟨"A", ["a"]⟩,
    ⟨"B", ["b"]⟩]
  start := "S"

theorem nested_parse_exact :
    nested.validate = .ok () ∧ nested.isChomskyNormalForm = true
      ∧ nested.Derives "S" (terminalsOf ['a', 'a', 'b', 'b'])
      ∧ (∀ A, nested.Derives A (terminalsOf ['a', 'b', 'b']) ∧ A ∈ nested.nonterminals ↔ A = "T")
      ∧ nested.parseStrict ['a', 'a', 'b', 'b'] = .ok (nested.parse ['a', 'a', 'b', 'b']) := by
  have hv : nested.validate = .ok () := rfl
  have hn : nested.isChomskyNormalForm = true := by decide
  obtain ⟨_, hcells, _, haccepted, _, hstrict⟩ := parse_exact hv hn ['a', 'a', 'b', 'b']
  refine ⟨hv, hn, haccepted.1 (by decide +kernel), fun A => ?_, hstrict⟩
  -- the stretch without the first character is not derived by the start symbol
  obtain ⟨cell, hcell, _, _, hmem⟩ := hcells 1 3 (by decide) (by decide)
  have hT : cell = ["T"] := Option.some.inj (hcell.symm.trans (by decide +kernel))
  rw [and_comm, ← List.mem_singleton, ← hT]
  exact (hmem A).symm

end AutomataLab.Grammar
