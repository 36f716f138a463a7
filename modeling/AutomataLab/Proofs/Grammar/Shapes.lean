import AutomataLab.Proofs.Grammar.Chart

/-!
# Productions that are not in normal form

Normal form is about the kinds of the symbols in a body; the chart and the strict test go by their
number. So two shapes lie between them, a body that is a single non-terminal (`IsUnit`) and a pair
with a terminal in it (`IsMixed`).

The strict test refuses neither of them, and finds the first production outside normal form exactly
if that one has another shape (`parseStrict_refuses`). In the chart a mixed pair does no harm: cells
hold heads, heads are non-terminals, and so no cell has a terminal in it. A single non-terminal is
compared with the characters of the word as a terminal is. The chart is that of the part in normal
form exactly if no character meets one (`parse_normalPart`). What is in a cell leads to the stretch
of the cell in any case, if its characters are read as the symbols that they name.
-/

namespace AutomataLab.Grammar

/-! ## Shapes -/

/-- The body is a single non-terminal. -/
def IsUnit (g : Grammar) (p : Production) : Prop := ∃ b ∈ g.nonterminals, p.body = [b]

/-- The body is a pair with a terminal in it. -/
def IsMixed (g : Grammar) (p : Production) : Prop :=
  ∃ a b, p.body = [a, b] ∧ (a ∈ g.terminals ∨ b ∈ g.terminals)

theorem isNormal_single {g : Grammar} (hv : g.Valid) {p : Production} (hp : p ∈ g.productions)
    {a : String} (hbody : p.body = [a]) : g.isNormal p = true ↔ a ∉ g.nonterminals := by
  have ha : a ∈ g.nonterminals ∨ a ∈ g.terminals := hv.body p hp a (by simp [hbody])
  have hnormal : g.isNormal p = true ↔ a ∈ g.terminals := by
    simp [isNormal, isNonterminal, isTerminal, hv.head p hp, hbody]
  exact hnormal.trans ⟨hv.disjoint a, ha.resolve_left⟩

theorem isNormal_pair {g : Grammar} (hv : g.Valid) {p : Production} (hp : p ∈ g.productions)
    {a b : String} (hbody : p.body = [a, b]) :
    g.isNormal p = true ↔ a ∈ g.nonterminals ∧ b ∈ g.nonterminals := by
  simp [isNormal, isNonterminal, hv.head p hp, hbody]

/-- The two shapes are all that lies between taking part in the test and normal form. -/
theorem isNormal_iff {g : Grammar} (hv : g.Valid) {p : Production} (hp : p ∈ g.productions) :
    g.isNormal p = true ↔ takesPart p = true ∧ ¬ g.IsUnit p ∧ ¬ g.IsMixed p := by
  have hdecl := hv.body p hp
  -- by the number of symbols; with none, or more than two, neither side holds
  cases hbody : p.body with
  | nil => simp [isNormal, takesPart, hbody]
  | cons a rest =>
    cases rest with
    | nil => simp [isNormal_single hv hp hbody, takesPart, IsUnit, IsMixed, hbody]
    | cons b rest =>
      cases rest with
      | nil =>
        have ha : a ∈ g.terminals ↔ a ∉ g.nonterminals :=
          ⟨hv.disjoint a, (hdecl a (by simp [hbody])).resolve_left⟩
        have hb : b ∈ g.terminals ↔ b ∉ g.nonterminals :=
          ⟨hv.disjoint b, (hdecl b (by simp [hbody])).resolve_left⟩
        simp [isNormal_pair hv hp hbody, takesPart, IsUnit, IsMixed, hbody, ha, hb]
      | cons c rest => simp [isNormal, takesPart, hbody]

/-! ## The strict test -/

theorem parseStrict_eq_ok_iff {g : Grammar} {w : List Char} {r : Parse} :
    g.parseStrict w = .ok r ↔ r = g.parse w ∧ ∀ p ∈ g.productions, takesPart p = true := by
  unfold parseStrict
  split
  · next p hfind =>
    have hp := List.find?_some hfind
    refine iff_of_false (by simp) fun h => ?_
    simp [h.2 p (List.mem_of_find?_eq_some hfind)] at hp
  · next hfind =>
    have hall : ∀ p ∈ g.productions, takesPart p = true := by simpa using hfind
    exact ⟨fun h => ⟨(Except.ok.inj h).symm, hall⟩, fun h => congrArg _ h.1.symm⟩

theorem parseStrict_eq_error_iff {g : Grammar} {w : List Char} {p : Production} :
    g.parseStrict w = .error p ↔ g.productions.find? (!takesPart ·) = some p := by
  unfold parseStrict
  split
  · next p' hfind => simp [hfind]
  · next hfind => simp [hfind]

/-- If the first production outside normal form has neither of the two shapes, the strict test
finds it. -/
theorem find?_takesPart {g : Grammar} (hv : g.Valid)
    (h : ∀ p, g.productions.find? (!g.isNormal ·) = some p → ¬ g.IsUnit p ∧ ¬ g.IsMixed p) :
    g.productions.find? (!takesPart ·) = g.productions.find? (!g.isNormal ·) := by
  cases hfind : g.productions.find? (!g.isNormal ·) with
  | none =>
    refine List.find?_eq_none.2 fun p hp => ?_
    have hnormal : g.isNormal p = true := by simpa using List.find?_eq_none.1 hfind p hp
    simp [((isNormal_iff hv hp).1 hnormal).1]
  | some p =>
    obtain ⟨hnot, before, after, heq, hbefore⟩ := List.find?_eq_some_iff_append.1 hfind
    refine List.find?_eq_some_iff_append.2 ⟨?_, before, after, heq, fun q hq => ?_⟩
    · -- it is of neither shape, so it does not take part
      have hp : p ∈ g.productions := by simp [heq]
      have hp' : ¬ g.isNormal p = true := by simpa using hnot
      simpa [isNormal_iff hv hp, h p hfind] using hp'
    · -- what comes before it is in normal form and takes part
      have hmem : q ∈ g.productions := by simp [heq, hq]
      have hnormal : g.isNormal q = true := by simpa using hbefore q hq
      simp [((isNormal_iff hv hmem).1 hnormal).1]

/--
**The strict test refuses by the number of symbols.**

It lets a valid grammar pass exactly if every body has one symbol or two. What it refuses is outside
normal form indeed. It agrees with normal form, and names the first production outside of it, exactly
if that production is neither a single non-terminal nor a mixed pair.
-/
theorem parseStrict_refuses {g : Grammar} (hv : g.validate = .ok ()) (w : List Char) :
    (∀ r, g.parseStrict w = .ok r
        ↔ r = g.parse w ∧ ∀ p ∈ g.productions, p.body.length = 1 ∨ p.body.length = 2)
      ∧ (∀ p, g.parseStrict w = .error p → g.isNormal p = false ∧ g.isChomskyNormalForm = false)
      ∧ ((((∃ r, g.parseStrict w = .ok r) ↔ g.isChomskyNormalForm = true)
          ∧ ∀ p, g.parseStrict w = .error p ↔ g.productions.find? (!g.isNormal ·) = some p)
        ↔ ∀ p, g.productions.find? (!g.isNormal ·) = some p → ¬ g.IsUnit p ∧ ¬ g.IsMixed p) := by
  have hvalid := valid_of_validate hv
  refine ⟨fun r => ?_, fun p hp => ?_, fun h p hfind => ?_, fun h => ?_⟩
  · simp [parseStrict_eq_ok_iff, takesPart]
  · -- what is refused has a wrong number of symbols, which normal form does not allow
    have hfind := parseStrict_eq_error_iff.1 hp
    have hmem := List.mem_of_find?_eq_some hfind
    have hout : takesPart p = false := by simpa using List.find?_some hfind
    have hnormal : g.isNormal p = false :=
      Bool.eq_false_iff.2 fun hn => by simp [((isNormal_iff hvalid hmem).1 hn).1] at hout
    exact ⟨hnormal, List.all_eq_false.2 ⟨p, hmem, by simp [hnormal]⟩⟩
  · -- if the test finds the first production outside normal form, this one takes no part
    have hout : takesPart p = false := by
      simpa using List.find?_some (parseStrict_eq_error_iff.1 ((h.2 p).2 hfind))
    constructor
    · rintro ⟨b, _, hbody⟩
      simp [takesPart, hbody] at hout
    · rintro ⟨a, b, hbody, _⟩
      simp [takesPart, hbody] at hout
  · have hsame := find?_takesPart hvalid h
    refine ⟨?_, fun p => by rw [parseStrict_eq_error_iff, hsame]⟩
    have hnone : (∀ p ∈ g.productions, takesPart p = true) ↔ g.isChomskyNormalForm = true := by
      simpa [isChomskyNormalForm] using iff_of_eq (congrArg (· = none) hsame)
    simp [parseStrict_eq_ok_iff, hnone]

/-- Pairs and single characters, with a production of every other shape beside them. -/
def loose : Grammar where
  nonterminals := ["S", "A", "B"]
  terminals := ["a", "b"]
  productions := [⟨"S", ["A", "B"]⟩, ⟨"A", ["a"]⟩, ⟨"B", ["b"]⟩, ⟨"S", ["a", "S", "b"]⟩,
    ⟨"A", ["B"]⟩, ⟨"B", ["a", "B"]⟩]
  start := "S"

theorem loose_parseStrict_refuses :
    loose.validate = .ok () ∧ loose.parseStrict ['a', 'b'] = .error ⟨"S", ["a", "S", "b"]⟩
      ∧ loose.isChomskyNormalForm = false
      ∧ ∀ p, loose.parseStrict ['a', 'b'] = .error p
        ↔ loose.productions.find? (!loose.isNormal ·) = some p := by
  have hv : loose.validate = .ok () := rfl
  obtain ⟨_, hrefused, hagree⟩ := parseStrict_refuses hv ['a', 'b']
  have hfirst : loose.productions.find? (!loose.isNormal ·) = some ⟨"S", ["a", "S", "b"]⟩ := rfl
  have hnames := (hagree.2 fun p hp => by
    obtain rfl := Option.some.inj (hfirst.symm.trans hp)
    simp [IsUnit, IsMixed]).2
  have herror := (hnames _).2 hfirst
  exact ⟨hv, herror, (hrefused _ herror).2, hnames⟩

/-- A single non-terminal stands between the start symbol and the only word. -/
def shortcut : Grammar where
  nonterminals := ["S", "A"]
  terminals := ["a"]
  productions := [⟨"S", ["A"]⟩, ⟨"A", ["a"]⟩]
  start := "S"

/-- A single non-terminal gets past the strict test, and the verdict is wrong. -/
theorem shortcut_parseStrict :
    shortcut.validate = .ok () ∧ shortcut.isChomskyNormalForm = false
      ∧ shortcut.productions.find? (!shortcut.isNormal ·) = some ⟨"S", ["A"]⟩
      ∧ shortcut.parseStrict ['a'] = .ok ⟨false, [[["A"]]]⟩
      ∧ shortcut.Derives "S" (terminalsOf ['a'])
      ∧ ¬ ((∃ r, shortcut.parseStrict ['a'] = .ok r) ↔ shortcut.isChomskyNormalForm = true) := by
  have hpass : shortcut.parseStrict ['a'] = .ok ⟨false, [[["A"]]]⟩ := by decide +kernel
  refine ⟨rfl, rfl, rfl, hpass, ?_, fun h => absurd (h.1 ⟨_, hpass⟩) (by decide)⟩
  have hA : shortcut.Spells ["A"] ["a"] :=
    (spells_nonterminal_iff (by decide)).2
      ⟨⟨"A", ["a"]⟩, by decide, rfl, (spells_terminal_iff (by decide)).2 rfl⟩
  exact (derives_iff_spells (by decide)).2
    ((spells_nonterminal_iff (by decide)).2 ⟨⟨"S", ["A"]⟩, by decide, rfl, hA⟩)

/-! ## The part in normal form -/

/-- The grammar with its productions in normal form and no others. -/
def normalPart (g : Grammar) : Grammar :=
  { g with productions := g.productions.filter g.isNormal }

theorem normalPart_valid {g : Grammar} (hv : g.Valid) : g.normalPart.Valid where
  start := hv.start
  disjoint := hv.disjoint
  head := fun p hp => hv.head p (List.mem_filter.1 hp).1
  body := fun p hp => hv.body p (List.mem_filter.1 hp).1

/-- The heads of the productions whose body passes a test. -/
def headsOf (g : Grammar) (test : List String → Bool) : Cell :=
  g.nonterminals.eraseDups.filter fun a => g.productions.any fun p => p.head = a && test p.body

theorem mem_headsOf {g : Grammar} (hv : g.Valid) {test : List String → Bool} {A : String} :
    A ∈ g.headsOf test ↔ ∃ p ∈ g.productions, p.head = A ∧ test p.body = true := by
  simp only [headsOf, List.mem_filter, List.mem_eraseDups, List.any_eq_true, Bool.and_eq_true,
    decide_eq_true_eq]
  exact and_iff_right_of_imp fun ⟨p, hp, hhead, _⟩ => hhead ▸ hv.head p hp

/-- The names in use as non-terminals that are not declared as such are heads of no production. -/
theorem filter_usedNonterminals {g : Grammar} (hv : g.Valid) (test : List String → Bool) :
    (g.usedNonterminals.filter fun a =>
        g.productions.any fun p => p.head = a && test p.body) = g.headsOf test := by
  rw [usedNonterminals, List.eraseDups_append, List.filter_append, headsOf]
  refine List.append_right_eq_self.2 (List.filter_eq_nil_iff.2 fun a ha hany => ?_)
  have hundeclared : a ∉ g.nonterminals := by
    simpa using (List.mem_filter.1 (List.mem_eraseDups.1 ha)).2
  obtain ⟨p, hp, htest⟩ := List.any_eq_true.1 hany
  simp only [Bool.and_eq_true, decide_eq_true_eq] at htest
  exact hundeclared (htest.1 ▸ hv.head p hp)

theorem unitCell_eq_headsOf {g : Grammar} (hv : g.Valid) (c : Char) :
    g.unitCell c = g.headsOf (· = [c.toString]) := filter_usedNonterminals hv (· = [c.toString])

theorem pairCell_eq_headsOf {g : Grammar} (hv : g.Valid) (cuts : List (Cell × Cell)) :
    g.pairCell cuts = g.headsOf (joins cuts) := filter_usedNonterminals hv _

theorem headsOf_normalPart {g : Grammar} {test : List String → Bool}
    (h : ∀ p ∈ g.productions, test p.body = true → g.isNormal p = true) :
    g.normalPart.headsOf test = g.headsOf test := by
  refine List.filter_congr fun A _ => Bool.eq_iff_iff.2 ?_
  simp only [normalPart, List.any_eq_true, List.mem_filter, Bool.and_eq_true, decide_eq_true_eq]
  refine exists_congr fun p => ⟨fun hp => ⟨hp.1.1, hp.2⟩, fun hp => ?_⟩
  exact ⟨⟨hp.1, h p hp.1 hp.2.2⟩, hp.2⟩

theorem joins_eq_true_iff {cuts : List (Cell × Cell)} {body : List String} :
    joins cuts body = true ↔ ∃ b c, body = [b, c] ∧ ∃ cut ∈ cuts, b ∈ cut.1 ∧ c ∈ cut.2 := by
  unfold joins
  split
  · next b c => simp
  · next hbody => exact iff_of_false (by simp) fun ⟨b, c, heq, _⟩ => hbody b c heq

/-! ## What is in a cell -/

/-- Some derivation leads from a non-terminal to a word, its characters read as the symbols that
they name. -/
def Reaches (g : Grammar) (A : String) (w : List Char) : Prop :=
  g.contextFree.Derives [Symbol.nonterminal A] ((terminalsOf w).map g.letter)

/-- Whatever is in the cell is a non-terminal that leads to the word. -/
def Sound (g : Grammar) (w : List Char) (cell : Cell) : Prop :=
  ∀ A ∈ cell, A ∈ g.nonterminals ∧ g.Reaches A w

/-- The cells of a row are sound for the stretches that begin where the word does. -/
def SoundRow (g : Grammar) (w : List Char) (row : List Cell) : Prop :=
  ∀ k cell, row[k]? = some cell → g.Sound (w.take (k + 1)) cell

/-- The rows are sound for the positions of the word that they belong to. -/
def SoundRows (g : Grammar) (w : List Char) (rows : List (List Cell)) : Prop :=
  ∀ i row, rows[i]? = some row → g.SoundRow (w.drop i) row

/-- The cells of each cut are sound for two parts that make up the word. -/
def SoundCuts (g : Grammar) (w : List Char) (cuts : List (Cell × Cell)) : Prop :=
  ∀ cut ∈ cuts, ∃ u v, w = u ++ v ∧ g.Sound u cut.1 ∧ g.Sound v cut.2

section

variable {g : Grammar}

theorem reaches_pair {p : Production} {b c : String} {u v : List Char} (hp : p ∈ g.productions)
    (hbody : p.body = [b, c]) (hb : b ∈ g.nonterminals ∧ g.Reaches b u)
    (hc : c ∈ g.nonterminals ∧ g.Reaches c v) : g.Reaches p.head (u ++ v) := by
  have hpair := produces_of_mem hp
  rw [hbody, List.map_cons, List.map_singleton, letter_of_mem hb.1, letter_of_mem hc.1] at hpair
  -- the two derivations go one after the other, each beside the other half
  have hfirst := hb.2.append_right [Symbol.nonterminal c]
  have hsecond := hc.2.append_left ((terminalsOf u).map g.letter)
  rw [Reaches, terminalsOf_append, List.map_append]
  exact hpair.trans_derives (hfirst.trans hsecond)

theorem sound_unitCell (hv : g.Valid) (c : Char) : g.Sound [c] (g.unitCell c) := by
  intro A hA
  rw [unitCell_eq_headsOf hv] at hA
  obtain ⟨p, hp, rfl, hbody⟩ := (mem_headsOf hv).1 hA
  have hone := produces_of_mem hp
  rw [of_decide_eq_true hbody] at hone
  exact ⟨hv.head p hp, hone.single⟩

theorem sound_pairCell (hv : g.Valid) {w : List Char} {cuts : List (Cell × Cell)}
    (hcuts : g.SoundCuts w cuts) : g.Sound w (g.pairCell cuts) := by
  intro A hA
  rw [pairCell_eq_headsOf hv] at hA
  obtain ⟨p, hp, rfl, hjoins⟩ := (mem_headsOf hv).1 hA
  obtain ⟨b, c, hbody, cut, hcut, hb, hc⟩ := joins_eq_true_iff.1 hjoins
  obtain ⟨u, v, rfl, hu, hv'⟩ := hcuts cut hcut
  exact ⟨hv.head p hp, reaches_pair hp hbody (hu b hb) (hv' c hc)⟩

/-- The next stretch is cut at the ends of the stretches that the row has already. -/
theorem soundCuts_cuts {c : Char} {w : List Char} {row : List Cell} {below : List (List Cell)}
    (hrow : g.SoundRow (c :: w) row) (hbelow : g.SoundRows w below) :
    g.SoundCuts ((c :: w).take (row.length + 1)) (cuts row below) := by
  intro cut hcut
  obtain ⟨k, hk⟩ := List.mem_iff_getElem?.1 hcut
  obtain ⟨hfirst, hsecond⟩ := List.getElem?_zip_eq_some.1 hk
  obtain ⟨hlt, _⟩ := List.getElem?_eq_some_iff.1 hfirst
  refine ⟨(c :: w).take (k + 1), (w.drop k).take (row.length - k), ?_, hrow k _ hfirst, ?_⟩
  · have hsum : row.length + 1 = k + 1 + (row.length - k) := by omega
    rw [hsum, List.take_add]
    rfl
  · -- the second cell is found in the row that begins where the first stretch ends
    rw [List.getElem?_mapIdx] at hsecond
    obtain ⟨row', hrow', hcell⟩ := Option.map_eq_some_iff.1 hsecond
    intro A hA
    rw [← hcell] at hA
    cases hget : row'[row.length - 1 - k]? with
    | none => simp [hget] at hA
    | some cell =>
      rw [hget, Option.getD_some] at hA
      have h := hbelow k row' hrow' _ _ hget A hA
      rwa [show row.length - 1 - k + 1 = row.length - k by omega] at h

theorem soundRow_concat {w : List Char} {row : List Cell} {cell : Cell} (hrow : g.SoundRow w row)
    (hcell : g.Sound (w.take (row.length + 1)) cell) : g.SoundRow w (row ++ [cell]) := by
  intro k cell' hk
  by_cases hlt : k < row.length
  · exact hrow k cell' (by rwa [List.getElem?_append_left hlt] at hk)
  · obtain ⟨h0, rfl⟩ : k - row.length = 0 ∧ cell = cell' := by
      rw [List.getElem?_append_right (by omega)] at hk
      simpa [List.getElem?_singleton] using hk
    rwa [show k = row.length by omega]

/-- Each cell that is added is read off sound ones. -/
theorem soundRow_extendRow (hv : g.Valid) {c : Char} {w : List Char} {below : List (List Cell)}
    (hbelow : g.SoundRows w below) {n : Nat} {row : List Cell} (hrow : g.SoundRow (c :: w) row) :
    g.SoundRow (c :: w) (g.extendRow below n row) := by
  induction n generalizing row with
  | zero => exact hrow
  | succ n ih =>
    exact ih (soundRow_concat hrow (sound_pairCell hv (soundCuts_cuts hrow hbelow)))

theorem soundRow_unitCell (hv : g.Valid) (c : Char) (w : List Char) :
    g.SoundRow (c :: w) [g.unitCell c] := by
  intro k cell hk
  obtain ⟨rfl, rfl⟩ : k = 0 ∧ g.unitCell c = cell := by simpa [List.getElem?_singleton] using hk
  exact sound_unitCell hv c

/-- **The chart of a valid grammar is sound** for characters that are read as the symbols that
they name. -/
theorem soundRows_rows (hv : g.Valid) (w : List Char) : g.SoundRows w (g.rows w) := by
  induction w with
  | nil => exact fun i row h => absurd h (by simp [rows])
  | cons c w ih =>
    intro i row h
    cases i with
    | zero =>
      obtain rfl := Option.some.inj h
      exact soundRow_extendRow hv ih (soundRow_unitCell hv c w)
    | succ i => exact ih i row h

/-! ## The chart of the part in normal form -/

theorem pairCell_normalPart (hv : g.Valid) {w : List Char} {cuts : List (Cell × Cell)}
    (hcuts : g.SoundCuts w cuts) : g.normalPart.pairCell cuts = g.pairCell cuts := by
  rw [pairCell_eq_headsOf (normalPart_valid hv), pairCell_eq_headsOf hv]
  refine headsOf_normalPart fun p hp hjoins => ?_
  -- what meets in a cut are non-terminals, so no mixed pair does
  obtain ⟨b, c, hbody, cut, hcut, hb, hc⟩ := joins_eq_true_iff.1 hjoins
  obtain ⟨u, v, _, hu, hv'⟩ := hcuts cut hcut
  exact (isNormal_pair hv hp hbody).2 ⟨(hu b hb).1, (hv' c hc).1⟩

theorem extendRow_normalPart (hv : g.Valid) {c : Char} {w : List Char} {below : List (List Cell)}
    (hbelow : g.SoundRows w below) {n : Nat} {row : List Cell} (hrow : g.SoundRow (c :: w) row) :
    g.normalPart.extendRow below n row = g.extendRow below n row := by
  induction n generalizing row with
  | zero => rfl
  | succ n ih =>
    have hcuts := soundCuts_cuts hrow hbelow
    rw [extendRow, extendRow, pairCell_normalPart hv hcuts,
      ih (soundRow_concat hrow (sound_pairCell hv hcuts))]

/-- A character does not meet the body of a production that is a single non-terminal. -/
def MeetsNoUnit (g : Grammar) (c : Char) : Prop :=
  ∀ p ∈ g.productions, p.body = [c.toString] → c.toString ∉ g.nonterminals

theorem unitCell_normalPart (hv : g.Valid) {c : Char} :
    g.normalPart.unitCell c = g.unitCell c ↔ g.MeetsNoUnit c := by
  rw [unitCell_eq_headsOf (normalPart_valid hv), unitCell_eq_headsOf hv]
  constructor
  · -- a unit production that the character met would be in one cell and not in the other
    intro heq p hp hbody
    have hmem : p.head ∈ g.headsOf (· = [c.toString]) :=
      (mem_headsOf hv).2 ⟨p, hp, rfl, decide_eq_true hbody⟩
    rw [← heq, mem_headsOf (normalPart_valid hv)] at hmem
    obtain ⟨q, hq, _, hbody'⟩ := hmem
    obtain ⟨hq, hnormal⟩ := List.mem_filter.1 hq
    exact (isNormal_single hv hq (of_decide_eq_true hbody')).1 hnormal
  · intro hmeets
    refine headsOf_normalPart fun p hp hbody => ?_
    have hbody := of_decide_eq_true hbody
    exact (isNormal_single hv hp hbody).2 (hmeets p hp hbody)

theorem rows_normalPart (hv : g.Valid) {w : List Char} (h : ∀ c ∈ w, g.MeetsNoUnit c) :
    g.normalPart.rows w = g.rows w := by
  induction w with
  | nil => rfl
  | cons c w ih =>
    obtain ⟨hc, hw⟩ := List.forall_mem_cons.1 h
    rw [rows, rows, ih hw, (unitCell_normalPart hv).2 hc,
      extendRow_normalPart hv (soundRows_rows hv w) (soundRow_unitCell hv c w)]

/-! ## Cells by position -/

theorem head?_extendRow {below : List (List Cell)} {n : Nat} {cell : Cell} {row : List Cell} :
    (g.extendRow below n (cell :: row)).head? = some cell := by
  induction n generalizing row with
  | zero => rfl
  | succ n ih => exact ih

theorem cell?_eq_bind (w : List Char) (i j : Nat) :
    (g.parse w).cell? i j
      = (g.rows w)[i]?.bind fun row => (List.replicate i [] ++ row)[j]? := by
  simp only [Parse.cell?, parse, List.getElem?_mapIdx, Option.bind_map]
  rfl

/-- The shortest stretches are those of one character. -/
theorem cell?_self {w : List Char} {i : Nat} {c : Char} (hc : w[i]? = some c) :
    (g.parse w).cell? i i = some (g.unitCell c) := by
  have hrow : (g.rows w)[i]?.bind List.head? = some (g.unitCell c) := by
    induction w generalizing i with
    | nil => exact absurd hc (by simp)
    | cons d w ih =>
      cases i with
      | zero =>
        obtain rfl := Option.some.inj hc
        exact head?_extendRow
      | succ i => exact ih hc
  rw [cell?_eq_bind]
  simpa [List.getElem?_append, List.head?_eq_getElem?] using hrow

theorem sound_of_mem_cell (hv : g.Valid) {w : List Char} {i j : Nat} {cell : Cell} {A : String}
    (hcell : (g.parse w).cell? i j = some cell) (hA : A ∈ cell) :
    i ≤ j ∧ A ∈ g.nonterminals ∧ g.Reaches A ((w.drop i).take (j + 1 - i)) := by
  rw [cell?_eq_bind] at hcell
  obtain ⟨row, hrow, hget⟩ := Option.bind_eq_some_iff.1 hcell
  by_cases hij : i ≤ j
  · rw [List.getElem?_append_right (by simpa using hij), List.length_replicate] at hget
    have hsound := soundRows_rows hv w i row hrow _ _ hget A hA
    rw [← Nat.sub_add_comm hij] at hsound
    exact ⟨hij, hsound⟩
  · -- below the diagonal the cells are empty
    rw [List.getElem?_append_left (by simpa using hij)] at hget
    obtain ⟨_, rfl⟩ : j < i ∧ [] = cell := by simpa [List.getElem?_replicate] using hget
    exact absurd hA List.not_mem_nil

theorem map_letter_of_terminals (hv : g.Valid) {w : List String} (h : ∀ a ∈ w, a ∈ g.terminals) :
    w.map g.letter = w.map Symbol.terminal :=
  List.map_congr_left fun a ha => if_neg (hv.disjoint a (h a ha))

/-- A non-terminal that leads to a word derives it exactly if its characters are terminals. -/
theorem derives_iff_of_reaches (hv : g.Valid) {A : String} {w : List Char}
    (hA : A ∈ g.nonterminals) (h : g.Reaches A w) :
    g.Derives A (terminalsOf w) ↔ ∀ a ∈ terminalsOf w, a ∈ g.terminals := by
  constructor
  · intro hd
    refine mem_terminals_of_spells hv ((derives_iff_spells hA).1 hd) fun s hs => ?_
    exact Or.inl (List.mem_singleton.1 hs ▸ hA)
  · intro hw
    rwa [Reaches, map_letter_of_terminals hv hw] at h

end

/--
**The chart is that of the part in normal form, up to single non-terminals.**

The two are the same exactly if no character of the word meets a body that is a single
non-terminal. What is in a cell leads to the stretch of the cell, its characters read as the symbols
that they name; it derives the stretch exactly if all of them are terminals.
-/
theorem parse_normalPart {g : Grammar} (hv : g.validate = .ok ()) (w : List Char) :
    (g.parse w = g.normalPart.parse w
        ↔ ∀ c ∈ w, ∀ p ∈ g.productions, p.body = [c.toString] → c.toString ∉ g.nonterminals)
      ∧ ∀ i j cell, (g.parse w).cell? i j = some cell → ∀ A ∈ cell,
        i ≤ j ∧ A ∈ g.nonterminals ∧ g.Reaches A ((w.drop i).take (j + 1 - i))
          ∧ (g.Derives A (terminalsOf ((w.drop i).take (j + 1 - i)))
            ↔ ∀ c ∈ (w.drop i).take (j + 1 - i), c.toString ∈ g.terminals) := by
  have hvalid := valid_of_validate hv
  refine ⟨⟨fun heq c hc => ?_, fun h => ?_⟩, fun i j cell hcell A hA => ?_⟩
  · -- the cells on the diagonal tell what the characters meet
    obtain ⟨i, hi⟩ := List.mem_iff_getElem?.1 hc
    have hself := cell?_self (g := g) hi
    rw [heq, cell?_self hi] at hself
    exact (unitCell_normalPart hvalid).1 (Option.some.inj hself)
  · have hrows := rows_normalPart hvalid h
    rw [parse, parse, hrows]
    rfl
  · obtain ⟨hij, hmem, hreaches⟩ := sound_of_mem_cell hvalid hcell hA
    refine ⟨hij, hmem, hreaches, ?_⟩
    rw [derives_iff_of_reaches hvalid hmem hreaches]
    exact List.forall_mem_map

theorem loose_parse_normalPart :
    loose.validate = .ok () ∧ loose.parse ['a', 'b'] = loose.normalPart.parse ['a', 'b']
      ∧ loose.Derives "S" (terminalsOf ['a', 'b'])
      ∧ loose.parse ['B'] ≠ loose.normalPart.parse ['B'] := by
  have hv : loose.validate = .ok () := rfl
  obtain ⟨hsame, hcells⟩ := parse_normalPart hv ['a', 'b']
  have hcell : (loose.parse ['a', 'b']).cell? 0 1 = some ["S"] := by decide +kernel
  refine ⟨hv, hsame.2 (by simp [loose, Char.toString]), ?_, fun heq => ?_⟩
  · have hword : ∀ c ∈ ['a', 'b'], c.toString ∈ loose.terminals := by simp [loose, Char.toString]
    exact (hcells 0 1 _ hcell "S" List.mem_cons_self).2.2.2.2 hword
  · have hmeets := (parse_normalPart hv ['B']).1.1 heq 'B' List.mem_cons_self
    exact absurd (hmeets ⟨"A", ["B"]⟩ (by decide) rfl) (by decide)

/-- A character that is written as a non-terminal is taken for what the non-terminal derives. -/
theorem shortcut_parse :
    shortcut.validate = .ok () ∧ shortcut.parse ['A'] = ⟨true, [[["S"]]]⟩
      ∧ shortcut.normalPart.parse ['A'] = ⟨false, [[[]]]⟩
      ∧ shortcut.parse ['A'] ≠ shortcut.normalPart.parse ['A']
      ∧ (shortcut.parse ['A']).cell? 0 0 = some ["S"]
      ∧ ¬ shortcut.Derives "S" (terminalsOf ['A']) := by
  have hv : shortcut.validate = .ok () := rfl
  have hparse : shortcut.parse ['A'] = ⟨true, [[["S"]]]⟩ := by decide +kernel
  have hpart : shortcut.normalPart.parse ['A'] = ⟨false, [[[]]]⟩ := by decide +kernel
  refine ⟨hv, hparse, hpart, by simp [hparse, hpart], by rw [hparse]; rfl, fun hd => ?_⟩
  have hword := mem_terminals_of_spells (valid_of_validate hv)
    ((derives_iff_spells (by decide)).1 hd) (by decide) "A" (by decide)
  exact absurd hword (by decide)

end AutomataLab.Grammar
