import AutomataLab.Diagram
import AutomataLab.Proofs.Automaton.Listing
import AutomataLab.Proofs.Automaton.Saving

/-!
# What a diagram shows

Transitions are put into a diagram one after the other, each into the edge that is there for its two
states, or into a new edge at the end. However the pairs of states alternate in the list, in the end
there is one edge for each pair that has a transition, with the symbols of all of them
(`filter_mergeTransitions`), and the edges stand in the order in which their pairs came up
(`pairwise_ends_mergeTransitions`). This is said of any list of transitions, by the positions of the
nodes. The transitions of an automaton that can come up all have their two nodes, so none is left
out of its diagram. Drawing in place, with a map from positions to edges and each label written as a
text from the start, comes to the same edges and labels (`sketch_draws`).

A label is a text, and the comma and the blank that separate its symbols may be symbols as well. But
a symbol takes one character and a separator two, so that every third character is a symbol
(`readLabel_label`). What is drawn can thus be read again: the diagram tells the transitions of the
automaton, each as often as it is listed (`reading_perm`).
-/

namespace AutomataLab

namespace Automaton

variable {a : Automaton}

theorem signature_wellFormed (h : a.Built) : a.signature.WellFormed := by
  cases a with
  | dfa d => exact (DFA.built_wellFormed h).toWellFormed
  | nfa n => exact (NFA.built_wellFormed h).toWellFormed

/-- Transitions are listed on known symbols and between declared states. -/
theorem fits_of_mem_transitionList (h : a.Built) {t : Transition Symbol}
    (ht : t ∈ a.transitionList) :
    a.signature.Knows t.symbol ∧ t.source ∈ a.signature.states ∧ t.target ∈ a.signature.states := by
  cases a with
  | dfa d =>
    obtain ⟨c, hc, htarget⟩ := (DFA.built_wellFormed h).mem_transitionList.1 ht
    obtain ⟨hp, hknown, hq⟩ := (DFA.built_wellFormed h).of_target? htarget
    exact ⟨hc ▸ hknown, hp, hq⟩
  | nfa n =>
    have htarget := (NFA.built_wellFormed h).mem_transitionList.1 ht
    obtain ⟨hp, hknown, hq⟩ := (NFA.built_wellFormed h).of_listed (NFA.mem_targets.1 htarget).2
    exact ⟨hknown, hp, hq⟩

end Automaton

namespace Diagram

/-! ## Labels -/

/-- The symbols of a label, between which a separator takes two characters. -/
def readLabel : List Char → List Symbol
  | c :: _ :: _ :: rest => .ofSign c :: readLabel rest
  | c :: _ => [.ofSign c]
  | [] => []

/-- **The symbols can be told from a label, also those that separators consist of.** -/
theorem readLabel_label {e : Edge} (h : ∀ x ∈ e.symbols, x ≠ .char epsilonSign) :
    readLabel e.label.toList = e.symbols := by
  unfold Edge.label
  generalize e.symbols = symbols at h
  induction symbols with
  -- the last symbol has no separator behind it
  | nil => rfl
  | cons x rest ih =>
    obtain ⟨hx, hrest⟩ := List.forall_mem_cons.1 h
    have hsign : Symbol.ofSign x.sign = x := Symbol.ofSign_sign hx
    cases rest with
    | nil =>
      rw [List.map_cons, List.map_nil, String.intercalate_singleton, Symbol.toList_text]
      exact congrArg (fun y => [y]) hsign
    | cons y rest =>
      rw [List.map_cons, List.map_cons, String.intercalate_cons_cons, String.toList_append,
        String.toList_append, Symbol.toList_text]
      exact congrArg₂ List.cons hsign (ih hrest)

/-! ## One transition is added -/

/-- The positions of the nodes that an edge joins. -/
def Edge.ends (e : Edge) : Nat × Nat := (e.source, e.target)

/-- The edges between two positions: one with all the symbols, if there are any. -/
def edgesWith (k : Nat × Nat) (symbols : List Symbol) : List Edge :=
  if symbols = [] then [] else [⟨k.1, k.2, symbols⟩]

/-- The transitions that an edge stands for, by the names of the nodes. -/
def Edge.transitions (name : Nat → String) (e : Edge) : List (Transition Symbol) :=
  e.symbols.map fun x => ⟨name e.source, x, name e.target⟩

section

variable {k k' : Nat × Nat} {x : Symbol} {es : List Edge}

theorem addTransition_cons {e : Edge} : addTransition k.1 k.2 x (e :: es)
    = if e.ends = k then { e with symbols := e.symbols ++ [x] } :: es
      else e :: addTransition k.1 k.2 x es := by
  have hends : e.ends = k ↔ e.source = k.1 ∧ e.target = k.2 := Prod.ext_iff
  simp only [addTransition, hends]

theorem addTransition_edgesWith {symbols : List Symbol} :
    addTransition k.1 k.2 x (edgesWith k symbols) = edgesWith k (symbols ++ [x]) := by
  cases symbols <;> simp [edgesWith, addTransition]

/-- Between other positions nothing changes. -/
theorem filter_addTransition : (addTransition k.1 k.2 x es).filter (·.ends = k')
    = if k' = k then addTransition k.1 k.2 x (es.filter (·.ends = k'))
      else es.filter (·.ends = k') := by
  induction es with
  | nil =>
    by_cases hk : k' = k
    · simp [addTransition, Edge.ends, hk]
    · simp [addTransition, Edge.ends, hk, Ne.symm hk]
  | cons e rest ih =>
    rw [addTransition_cons]
    -- the transition goes into this edge, or past it into the rest
    by_cases he : e.ends = k
    · have hends : Edge.ends { e with symbols := e.symbols ++ [x] } = k := he
      by_cases hk : k' = k
      · simp [hk, he, hends, addTransition_cons]
      · simp [hk, he, hends, Ne.symm hk]
    · rw [if_neg he]
      by_cases hk : e.ends = k'
      · have hne : k' ≠ k := hk ▸ he
        simp [hk, hne, ih]
      · simp [hk, ih]

theorem ends_addTransition : (addTransition k.1 k.2 x es).map Edge.ends
    = if k ∈ es.map Edge.ends then es.map Edge.ends else es.map Edge.ends ++ [k] := by
  induction es with
  | nil => rfl
  | cons e rest ih =>
    rw [addTransition_cons]
    by_cases he : e.ends = k
    · rw [if_pos he, if_pos (by simp [he])]
      rfl
    · rw [if_neg he, List.map_cons, List.map_cons, ih]
      split
      · next hmem => rw [if_pos (List.mem_cons_of_mem _ hmem)]
      · next hmem =>
        rw [if_neg (List.not_mem_cons_of_ne_of_not_mem (Ne.symm he) hmem), List.cons_append]

/-- One transition more is shown. -/
theorem transitions_addTransition {name : Nat → String} :
    ((addTransition k.1 k.2 x es).flatMap (·.transitions name)).Perm
      (es.flatMap (·.transitions name) ++ [⟨name k.1, x, name k.2⟩]) := by
  induction es with
  | nil => exact List.Perm.refl _
  | cons e rest ih =>
    rw [addTransition_cons]
    split
    · next he =>
      subst he
      have hone : Edge.transitions name { e with symbols := e.symbols ++ [x] }
          = e.transitions name ++ [⟨name e.source, x, name e.target⟩] := List.map_append
      rw [List.flatMap_cons, List.flatMap_cons, hone, List.append_assoc, List.append_assoc]
      exact List.perm_append_comm.append_left _
    · rw [List.flatMap_cons, List.flatMap_cons, List.append_assoc]
      exact ih.append_left _

end

/-! ## All transitions of a list -/

/-- The positions of the nodes that a transition joins, if its states have nodes. -/
def place (states : List String) (t : Transition Symbol) : Option (Nat × Nat) :=
  match states.idxOf? t.source, states.idxOf? t.target with
  | some source, some target => some (source, target)
  | _, _ => none

/-- The symbols of the transitions that belong between two positions, in the order of the list. -/
def symbolsAt (states : List String) (l : List (Transition Symbol)) (k : Nat × Nat) : List Symbol :=
  (l.filter (place states · = some k)).map (·.symbol)

/-- Where in a list the first transition stands that belongs between two positions. -/
def firstAt (states : List String) (l : List (Transition Symbol)) (k : Nat × Nat) : Nat :=
  l.findIdx (place states · = some k)

section

variable {states : List String} {l : List (Transition Symbol)} {t : Transition Symbol}
  {k : Nat × Nat} {e : Edge}

theorem mergeTransitions_concat : mergeTransitions states (l ++ [t])
    = match place states t with
      | some k => addTransition k.1 k.2 t.symbol (mergeTransitions states l)
      | none => mergeTransitions states l := by
  rw [mergeTransitions, List.foldl_append, List.foldl_cons, List.foldl_nil, place]
  cases states.idxOf? t.source with
  | none => rfl
  | some i => cases states.idxOf? t.target <;> rfl

theorem symbolsAt_concat : symbolsAt states (l ++ [t]) k
    = symbolsAt states l k ++ if place states t = some k then [t.symbol] else [] := by
  rw [symbolsAt, List.filter_append, List.map_append, symbolsAt]
  split
  · next h => simp [h]
  · next h => simp [h]

theorem symbolsAt_ne_nil_iff : symbolsAt states l k ≠ [] ↔ ∃ t ∈ l, place states t = some k := by
  simp [symbolsAt]

/-- **Between two positions there is one edge with all symbols that belong there, or none.** -/
theorem filter_mergeTransitions :
    (mergeTransitions states l).filter (·.ends = k) = edgesWith k (symbolsAt states l k) := by
  induction l using List.reverseRecOn with
  | nil => rfl
  | append_singleton l t ih =>
    rw [mergeTransitions_concat, symbolsAt_concat]
    cases hplace : place states t with
    | none => simpa using ih
    | some k' =>
      dsimp only
      rw [filter_addTransition, ih]
      by_cases hk : k = k'
      · subst hk
        rw [if_pos rfl, if_pos rfl, addTransition_edgesWith]
      · rw [if_neg hk, if_neg fun h => hk (Option.some.inj h).symm, List.append_nil]

theorem mem_mergeTransitions :
    e ∈ mergeTransitions states l ↔ e.symbols = symbolsAt states l e.ends ∧ e.symbols ≠ [] := by
  -- an edge is among those between its own ends, and of these there is at most one
  have hfilter : e ∈ mergeTransitions states l
      ↔ e ∈ (mergeTransitions states l).filter (·.ends = e.ends) := by
    simp
  rw [hfilter, filter_mergeTransitions, edgesWith]
  split
  · next hnil => simp [hnil]
  · next hne =>
    rw [List.mem_singleton]
    constructor
    · intro he
      have hsymbols : e.symbols = symbolsAt states l e.ends := congrArg Edge.symbols he
      exact ⟨hsymbols, fun hnil => hne (hsymbols.symm.trans hnil)⟩
    · rintro ⟨hsymbols, -⟩
      rw [← hsymbols]
      rfl

theorem mem_ends_mergeTransitions :
    k ∈ (mergeTransitions states l).map Edge.ends ↔ ∃ t ∈ l, place states t = some k := by
  rw [← symbolsAt_ne_nil_iff, List.mem_map]
  constructor
  · rintro ⟨e, he, rfl⟩
    obtain ⟨hsymbols, hne⟩ := mem_mergeTransitions.1 he
    exact hsymbols ▸ hne
  · intro hne
    exact ⟨⟨k.1, k.2, symbolsAt states l k⟩, mem_mergeTransitions.2 ⟨rfl, hne⟩, rfl⟩

theorem firstAt_lt_length_iff :
    firstAt states l k < l.length ↔ ∃ t ∈ l, place states t = some k := by
  simp [firstAt, List.findIdx_lt_length]

theorem firstAt_append {m : List (Transition Symbol)} : firstAt states (l ++ m) k
    = if firstAt states l k < l.length then firstAt states l k
      else firstAt states m k + l.length :=
  List.findIdx_append

/-- **The edges stand in the order in which their positions came up in the list.** -/
theorem pairwise_ends_mergeTransitions : ((mergeTransitions states l).map Edge.ends).Pairwise
    fun k k' => firstAt states l k < firstAt states l k' := by
  induction l using List.reverseRecOn with
  | nil => exact List.Pairwise.nil
  | append_singleton l t ih =>
    -- an edge that is there stands for a transition of the list so far, which stays the first
    have hseen : ∀ k ∈ (mergeTransitions states l).map Edge.ends,
        firstAt states l k < l.length ∧ firstAt states (l ++ [t]) k = firstAt states l k := by
      intro k hk
      have hlt := firstAt_lt_length_iff.2 (mem_ends_mergeTransitions.1 hk)
      exact ⟨hlt, by rw [firstAt_append, if_pos hlt]⟩
    have hkept : ((mergeTransitions states l).map Edge.ends).Pairwise
        fun k k' => firstAt states (l ++ [t]) k < firstAt states (l ++ [t]) k' := by
      refine ih.imp_of_mem fun {k k'} hk hk' hlt => ?_
      rw [(hseen k hk).2, (hseen k' hk').2]
      exact hlt
    rw [mergeTransitions_concat]
    cases hplace : place states t with
    | none => exact hkept
    | some k₀ =>
      dsimp only
      rw [ends_addTransition]
      split
      · exact hkept
      · next hnew =>
        -- a new edge is for positions that come up for the first time, at the end of the list
        have hlast : l.length ≤ firstAt states (l ++ [t]) k₀ := by
          rw [firstAt_append, if_neg fun hlt =>
            hnew (mem_ends_mergeTransitions.2 (firstAt_lt_length_iff.1 hlt))]
          omega
        refine List.pairwise_append.2 ⟨hkept, List.pairwise_singleton _ _, fun k hk k' hk' => ?_⟩
        obtain rfl := List.mem_singleton.1 hk'
        obtain ⟨hlt, heq⟩ := hseen k hk
        omega

section

variable (hstates : states.Nodup)

include hstates

theorem idxOf?_eq_some_iff {p : String} {i : Nat} :
    states.idxOf? p = some i ↔ states[i]? = some p := by
  rw [List.idxOf?_eq_some_iff, List.getElem?_eq_some_iff]
  constructor
  · rintro ⟨hi, hp, -⟩
    exact ⟨hi, hp⟩
  · rintro ⟨hi, hp⟩
    refine ⟨hi, hp, fun j hj hsame => ?_⟩
    have heq : j = i := hstates.getElem_inj_iff.1 (hsame.trans hp.symm)
    omega

/-- While no state is named twice, a transition belongs where its states are. -/
theorem place_eq_some_iff : place states t = some k
    ↔ states[k.1]? = some t.source ∧ states[k.2]? = some t.target := by
  rw [← idxOf?_eq_some_iff hstates, ← idxOf?_eq_some_iff hstates, place]
  cases states.idxOf? t.source <;> cases states.idxOf? t.target <;> simp [Prod.ext_iff]

/-- Each transition is shown once, if its states have nodes. -/
theorem transitions_mergeTransitions (h : ∀ t ∈ l, t.source ∈ states ∧ t.target ∈ states) :
    ((mergeTransitions states l).flatMap (·.transitions (states.getD · ""))).Perm l := by
  induction l using List.reverseRecOn with
  | nil => exact List.Perm.refl _
  | append_singleton l t ih =>
    obtain ⟨hbefore, ht⟩ := List.forall_mem_append.1 h
    obtain ⟨hsource, htarget⟩ := ht t (List.mem_singleton.2 rfl)
    obtain ⟨i, hi⟩ := List.mem_iff_getElem?.1 hsource
    obtain ⟨j, hj⟩ := List.mem_iff_getElem?.1 htarget
    have hplace : place states t = some (i, j) := (place_eq_some_iff hstates).2 ⟨hi, hj⟩
    have hnamed : (⟨states.getD i "", t.symbol, states.getD j ""⟩ : Transition Symbol) = t := by
      simp [hi, hj]
    rw [mergeTransitions_concat, hplace]
    refine transitions_addTransition.trans ?_
    rw [hnamed]
    exact (ih hbefore).append_right _

end

end

/-! ## Labels written in place

The symbols of an edge need not be kept. An edge can have its label as text from the start, with a
map that tells which edge joins two nodes: a further symbol is then written behind the text that is
there. This gives the same edges with the same labels (`sketch_draws`).
-/

/-- Edges with their labels as text, as far as they have been drawn. -/
structure Sketch where
  /-- The positions that an edge joins and what is written on it, in the order of drawing. -/
  edges : List ((Nat × Nat) × String)
  /-- Which of the edges joins two positions. -/
  edgeAt : Std.HashMap (Nat × Nat) Nat

/-- Write behind the label of the edge between two positions, or draw a new edge. -/
def Sketch.write (s : Sketch) (k : Nat × Nat) (text : String) : Sketch :=
  match s.edgeAt[k]? with
  | some m => { s with edges := s.edges.modify m fun e => (e.1, e.2 ++ ", " ++ text) }
  | none => ⟨s.edges ++ [(k, text)], s.edgeAt.insert k s.edges.length⟩

/-- Which node a state has. -/
def nodeAt (states : List String) : Std.HashMap String Nat :=
  states.zipIdx.foldl (fun nodes e => nodes.insert e.1 e.2) ∅

/-- The edges for a list of transitions, drawn one transition after the other. -/
def sketch (states : List String) (l : List (Transition Symbol)) : Sketch :=
  l.foldl
    (fun s t =>
      match (nodeAt states)[t.source]?, (nodeAt states)[t.target]? with
      | some source, some target => s.write (source, target) t.symbol.text
      | _, _ => s)
    ⟨[], ∅⟩

/-- A map tells where each member of a list stands, and each stands in one place only. -/
def Locates {α : Type} [BEq α] [Hashable α] (m : Std.HashMap α Nat) (l : List α) : Prop :=
  ∀ (a : α) (i : Nat), m[a]? = some i ↔ l[i]? = some a

section

variable {α : Type} [BEq α] [LawfulBEq α] [Hashable α] {m : Std.HashMap α Nat} {l : List α} {a : α}

theorem locates_empty : Locates (∅ : Std.HashMap α Nat) [] := by
  intro a i
  simp

omit [LawfulBEq α] in
theorem Locates.notMem (h : Locates m l) (ha : m[a]? = none) : a ∉ l := by
  intro hmem
  obtain ⟨i, hi⟩ := List.mem_iff_getElem?.1 hmem
  rw [← h, ha] at hi
  exact absurd hi (by simp)

theorem Locates.insert (h : Locates m l) (ha : a ∉ l) :
    Locates (m.insert a l.length) (l ++ [a]) := by
  intro b i
  have hnone : ∀ i : Nat, l[i]? ≠ some a := fun i hi => ha (List.mem_of_getElem? hi)
  have hlast : (l ++ [a])[i]? = if i = l.length then some a else l[i]? := by grind
  simp only [Std.HashMap.getElem?_insert, beq_iff_eq, hlast]
  by_cases hi : i = l.length
  · subst hi
    by_cases hb : a = b
    · simp [hb]
    · simp [hb, h b l.length]
  · by_cases hb : a = b
    · subst hb
      simp [hi, Ne.symm hi, hnone]
    · simp [hi, hb, h b i]

end

/-- A sketch has the edges of a list with their labels. -/
structure Sketch.Draws (s : Sketch) (es : List Edge) : Prop where
  /-- Each edge is drawn at its place in the list, with its label. -/
  edges : s.edges = es.map fun e => (e.ends, e.label)
  /-- The map finds the edge between two positions, so there are not two of them. -/
  edgeAt : Locates s.edgeAt (es.map Edge.ends)
  /-- No label is empty, so a further symbol always comes behind a separator. -/
  labelled : ∀ e ∈ es, e.symbols ≠ []

section

variable {states : List String} {l : List (Transition Symbol)} {k : Nat × Nat} {x : Symbol}
  {es : List Edge} {s : Sketch} {m : Nat}

theorem label_concat {e : Edge} (h : e.symbols ≠ []) :
    Edge.label { e with symbols := e.symbols ++ [x] } = e.label ++ ", " ++ x.text := by
  have hne : e.symbols.map Symbol.text ≠ [] := by simpa using h
  rw [Edge.label, List.map_append, String.intercalate_append_of_ne_nil hne (by simp)]
  simp [Edge.label]

/-- A transition goes to the end if no edge is there for it. -/
theorem addTransition_of_notMem (h : k ∉ es.map Edge.ends) :
    addTransition k.1 k.2 x es = es ++ [⟨k.1, k.2, [x]⟩] := by
  induction es with
  | nil => rfl
  | cons e rest ih =>
    rw [List.map_cons, List.mem_cons, not_or] at h
    rw [addTransition_cons, if_neg (Ne.symm h.1), ih h.2, List.cons_append]

/-- A transition goes into the first edge between its positions. -/
theorem addTransition_eq_modify (hm : (es.map Edge.ends)[m]? = some k)
    (hfirst : ∀ i < m, (es.map Edge.ends)[i]? ≠ some k) :
    addTransition k.1 k.2 x es
      = es.modify m fun e => { e with symbols := e.symbols ++ [x] } := by
  induction es generalizing m with
  | nil => simp at hm
  | cons e rest ih =>
    rw [addTransition_cons]
    cases m with
    | zero =>
      have he : e.ends = k := Option.some.inj hm
      rw [if_pos he]
      rfl
    | succ m =>
      -- the edge is further on, since an earlier one would be the first
      have he : e.ends ≠ k := fun he => hfirst 0 (Nat.zero_lt_succ m) (congrArg some he)
      rw [if_neg he, ih hm fun i hi => hfirst (i + 1) (Nat.succ_lt_succ hi)]
      rfl

/-- A function carries a change of one member over, if it does so for each member. -/
theorem map_modify {α β : Type} {f : α → β} {g : α → α} {w : β → β} {l : List α} {m : Nat}
    (h : ∀ a ∈ l, f (g a) = w (f a)) : (l.modify m g).map f = (l.map f).modify m w := by
  refine List.ext_getElem? fun i => ?_
  rw [List.getElem?_map, List.getElem?_modify, List.getElem?_modify, List.getElem?_map]
  cases ha : l[i]? with
  | none => rfl
  | some a =>
    have hstep := h a (List.mem_of_getElem? ha)
    by_cases hi : m = i <;> simp [hi, hstep]

/-- Writing on the edge that joins two positions keeps the sketch in step. -/
theorem Sketch.Draws.modify (h : s.Draws es) :
    Sketch.Draws { s with edges := s.edges.modify m fun e => (e.1, e.2 ++ ", " ++ x.text) }
      (es.modify m fun e => { e with symbols := e.symbols ++ [x] }) where
  edges := by
    rw [map_modify (w := fun e => (e.1, e.2 ++ ", " ++ x.text)) fun e he => ?_, h.edges]
    rw [label_concat (h.labelled e he)]
    rfl
  edgeAt := by
    -- which nodes an edge joins does not depend on what is written on it
    have hends : (es.modify m fun e => { e with symbols := e.symbols ++ [x] }).map Edge.ends
        = (es.map Edge.ends).modify m id := map_modify fun _ _ => rfl
    rw [hends, List.modify_id]
    exact h.edgeAt
  labelled := fun e he => by
    obtain ⟨i, hi⟩ := List.mem_iff_getElem?.1 he
    rw [List.getElem?_modify] at hi
    obtain ⟨e₀, he₀, rfl⟩ := Option.map_eq_some_iff.1 hi
    have hne := h.labelled e₀ (List.mem_of_getElem? he₀)
    split <;> simp [hne]

/-- A new edge at the end keeps the sketch in step. -/
theorem Sketch.Draws.concat (h : s.Draws es) (hnew : k ∉ es.map Edge.ends) :
    Sketch.Draws ⟨s.edges ++ [(k, x.text)], s.edgeAt.insert k s.edges.length⟩
      (es ++ [⟨k.1, k.2, [x]⟩]) where
  edges := by simp [h.edges, Edge.ends, Edge.label]
  edgeAt := by
    have hlength : s.edges.length = (es.map Edge.ends).length := by
      rw [h.edges, List.length_map, List.length_map]
    rw [List.map_append, hlength]
    exact h.edgeAt.insert hnew
  labelled := List.forall_mem_append.2
    ⟨h.labelled, List.forall_mem_singleton.2 (List.cons_ne_nil _ _)⟩

/-- **Writing in place adds a transition.** -/
theorem Sketch.Draws.write (h : s.Draws es) :
    (s.write k x.text).Draws (addTransition k.1 k.2 x es) := by
  unfold Sketch.write
  cases hm : s.edgeAt[k]? with
  | some m =>
    -- the edge that the map finds is the only one, so it is the first
    have hadd : addTransition k.1 k.2 x es
        = es.modify m fun e => { e with symbols := e.symbols ++ [x] } := by
      refine addTransition_eq_modify ((h.edgeAt k m).1 hm) fun i hi hk => ?_
      have heq : some m = some i := hm.symm.trans ((h.edgeAt k i).2 hk)
      exact absurd (Option.some.inj heq) (Nat.ne_of_gt hi)
    rw [hadd]
    exact h.modify
  | none =>
    -- the map knows of no edge here, and it knows of all that there are
    have hnew : k ∉ es.map Edge.ends := h.edgeAt.notMem hm
    rw [addTransition_of_notMem hnew]
    exact h.concat hnew

theorem nodeAt_locates (hstates : states.Nodup) : Locates (nodeAt states) states := by
  induction states using List.reverseRecOn with
  | nil => exact locates_empty
  | append_singleton states p ih =>
    obtain ⟨hbefore, -, hnew⟩ := List.nodup_append.1 hstates
    -- a name comes once, so it is still without a node when its turn comes
    have hp : p ∉ states := fun hp => hnew p hp p (List.mem_singleton.2 rfl) rfl
    have hconcat : nodeAt (states ++ [p]) = (nodeAt states).insert p states.length := by
      simp [nodeAt, List.zipIdx_append]
    rw [hconcat]
    exact (ih hbefore).insert hp

/-- **Drawing in place gives the same edges with the same labels.** -/
theorem sketch_draws (hstates : states.Nodup) :
    (sketch states l).Draws (mergeTransitions states l) := by
  have hnode : ∀ q, (nodeAt states)[q]? = states.idxOf? q := fun q => Option.ext fun i =>
    (nodeAt_locates hstates q i).trans (idxOf?_eq_some_iff hstates).symm
  induction l using List.reverseRecOn with
  | nil => exact ⟨rfl, locates_empty, by simp [mergeTransitions]⟩
  | append_singleton l t ih =>
    -- the map of the nodes and the search for a state find the same place
    have hconcat : sketch states (l ++ [t])
        = match place states t with
          | some k => (sketch states l).write k t.symbol.text
          | none => sketch states l := by
      rw [sketch, List.foldl_append, List.foldl_cons, List.foldl_nil, place, hnode, hnode]
      cases states.idxOf? t.source with
      | none => rfl
      | some i => cases states.idxOf? t.target <;> rfl
    rw [hconcat, mergeTransitions_concat]
    cases place states t with
    | none => exact ih
    | some k => exact ih.write

end

/-! ## The diagram of an automaton -/

/-- The name of the node at a position. -/
def nameAt (d : Diagram) (i : Nat) : String := (d.nodes.map Node.name).getD i ""

/-- The edges from one named node to another. -/
def edgesBetween (d : Diagram) (p q : String) : List Edge :=
  d.edges.filter fun e => d.nameAt e.source = p ∧ d.nameAt e.target = q

/-- The transitions that can be read off a diagram: a name at each end of an edge, and on it the
symbols. -/
def reading (d : Diagram) : List (Transition Symbol) :=
  d.edges.flatMap fun e =>
    (readLabel e.label.toList).map fun x => ⟨d.nameAt e.source, x, d.nameAt e.target⟩

/-- The symbols on which transitions lead from one state to another, in the order of a list. -/
def symbolsBetween (l : List (Transition Symbol)) (p q : String) : List Symbol :=
  (l.filter fun t => t.source = p ∧ t.target = q).map (·.symbol)

/-- Where in a list the first transition from one state to another stands. -/
def firstBetween (l : List (Transition Symbol)) (p q : String) : Nat :=
  l.findIdx fun t => t.source = p ∧ t.target = q

theorem mem_symbolsBetween {l : List (Transition Symbol)} {p q : String} {x : Symbol} :
    x ∈ symbolsBetween l p q ↔ ⟨p, x, q⟩ ∈ l := by
  simp only [symbolsBetween, List.mem_map, List.mem_filter, decide_eq_true_eq]
  constructor
  · rintro ⟨t, ⟨ht, rfl, rfl⟩, rfl⟩
    exact ht
  · intro hx
    exact ⟨_, ⟨hx, rfl, rfl⟩, rfl⟩

section

variable {a : Automaton} {active : StateSet} {p q : String} {i j : Nat} {e : Edge}

theorem map_name_nodes : (ofAutomaton a active).nodes.map Node.name = a.signature.states := by
  simp [ofAutomaton, Function.comp_def]

theorem mem_nodes {n : Node} (hn : n ∈ (ofAutomaton a active).nodes) :
    (n.initial = true ↔ n.name = a.signature.initial)
      ∧ (n.accepting = true ↔ n.name ∈ a.signature.accepting)
      ∧ (n.active = true ↔ n.name ∈ active) := by
  obtain ⟨q, -, rfl⟩ := List.mem_map.1 hn
  exact ⟨decide_eq_true_iff, decide_eq_true_iff, decide_eq_true_iff⟩

theorem nameAt_eq : (ofAutomaton a active).nameAt = (a.signature.states.getD · "") := by
  unfold nameAt
  rw [map_name_nodes]

theorem nameAt_of_getElem? (hi : a.signature.states[i]? = some p) :
    (ofAutomaton a active).nameAt i = p := by
  simp [nameAt_eq, hi]

variable (ha : a.Built)

include ha

/-- An edge joins the nodes of a transition. -/
theorem exists_place_of_mem_edges (he : e ∈ (ofAutomaton a active).edges) :
    ∃ t ∈ a.transitionList, place a.signature.states t = some e.ends
      ∧ a.signature.states[e.source]? = some t.source
      ∧ a.signature.states[e.target]? = some t.target := by
  obtain ⟨t, ht, hplace⟩ := mem_ends_mergeTransitions.1 (List.mem_map_of_mem he)
  exact ⟨t, ht, hplace, (place_eq_some_iff (Automaton.signature_wellFormed ha).states).1 hplace⟩

theorem getElem?_nameAt (he : e ∈ (ofAutomaton a active).edges) :
    a.signature.states[e.source]? = some ((ofAutomaton a active).nameAt e.source)
      ∧ a.signature.states[e.target]? = some ((ofAutomaton a active).nameAt e.target) := by
  obtain ⟨t, -, -, hsource, htarget⟩ := exists_place_of_mem_edges ha he
  rw [nameAt_of_getElem? hsource, nameAt_of_getElem? htarget]
  exact ⟨hsource, htarget⟩

section

variable (hi : a.signature.states[i]? = some p) (hj : a.signature.states[j]? = some q)

include hi hj

/-- A transition belongs between two positions if it leads between the states there. -/
theorem place_eq_some_iff_named {t : Transition Symbol} :
    place a.signature.states t = some (i, j) ↔ t.source = p ∧ t.target = q := by
  rw [place_eq_some_iff (Automaton.signature_wellFormed ha).states, hi, hj, Option.some.injEq,
    Option.some.injEq, eq_comm, @eq_comm _ q]

theorem symbolsAt_eq : symbolsAt a.signature.states a.transitionList (i, j)
    = symbolsBetween a.transitionList p q := by
  simp only [symbolsAt, symbolsBetween, place_eq_some_iff_named ha hi hj]

theorem firstAt_eq : firstAt a.signature.states a.transitionList (i, j)
    = firstBetween a.transitionList p q := by
  simp only [firstAt, firstBetween, place_eq_some_iff_named ha hi hj]

/-- The edges between two names are those between their positions. -/
theorem edgesBetween_eq : (ofAutomaton a active).edgesBetween p q
    = edgesWith (i, j) (symbolsBetween a.transitionList p q) := by
  -- an edge has the names of the two states exactly if it has their positions
  have hends : ∀ e ∈ (ofAutomaton a active).edges,
      decide ((ofAutomaton a active).nameAt e.source = p
        ∧ (ofAutomaton a active).nameAt e.target = q) = decide (e.ends = (i, j)) := by
    intro e he
    obtain ⟨t, -, hplace, hsource, htarget⟩ := exists_place_of_mem_edges ha he
    rw [decide_eq_decide, nameAt_of_getElem? hsource, nameAt_of_getElem? htarget,
      ← place_eq_some_iff_named ha hi hj, hplace, Option.some.injEq]
  rw [edgesBetween, List.filter_congr hends, ← symbolsAt_eq ha hi hj]
  exact filter_mergeTransitions

end

/-- An edge has the symbols of all transitions between its states. -/
theorem symbols_of_mem_edges (he : e ∈ (ofAutomaton a active).edges) :
    e.symbols = symbolsBetween a.transitionList ((ofAutomaton a active).nameAt e.source)
      ((ofAutomaton a active).nameAt e.target) := by
  obtain ⟨hsource, htarget⟩ := getElem?_nameAt ha he
  rw [← symbolsAt_eq ha hsource htarget]
  exact (mem_mergeTransitions.1 he).1

theorem readLabel_of_mem_edges (he : e ∈ (ofAutomaton a active).edges) :
    readLabel e.label.toList = e.symbols := by
  -- the sign of the empty move stands for nothing else, since it is in no alphabet
  refine readLabel_label fun x hx => ?_
  rw [symbols_of_mem_edges ha he, mem_symbolsBetween] at hx
  have hknown := (Automaton.fits_of_mem_transitionList ha hx).1
  exact (Automaton.signature_wellFormed ha).ne_sign hknown

theorem pairwise_edges : (ofAutomaton a active).edges.Pairwise fun e f =>
    firstBetween a.transitionList ((ofAutomaton a active).nameAt e.source)
        ((ofAutomaton a active).nameAt e.target)
      < firstBetween a.transitionList ((ofAutomaton a active).nameAt f.source)
        ((ofAutomaton a active).nameAt f.target) := by
  have hends : ((ofAutomaton a active).edges.map Edge.ends).Pairwise fun k k' =>
      firstAt a.signature.states a.transitionList k
        < firstAt a.signature.states a.transitionList k' := pairwise_ends_mergeTransitions
  refine (List.pairwise_map.1 hends).imp_of_mem fun {e f} he hf hlt => ?_
  obtain ⟨hsource, htarget⟩ := getElem?_nameAt ha he
  obtain ⟨hsource', htarget'⟩ := getElem?_nameAt ha hf
  rw [← firstAt_eq ha hsource htarget, ← firstAt_eq ha hsource' htarget']
  exact hlt

/-- **What is read off a diagram are the transitions, each as often as it is listed.** -/
theorem reading_perm : (ofAutomaton a active).reading.Perm a.transitionList := by
  -- from each edge the symbols are read that it has, so the reading is what the edges stand for
  have hreading : (ofAutomaton a active).reading
      = (ofAutomaton a active).edges.flatMap (·.transitions (a.signature.states.getD · "")) := by
    refine List.flatMap_congr fun e he => ?_
    rw [readLabel_of_mem_edges ha he, nameAt_eq]
    rfl
  rw [hreading]
  exact transitions_mergeTransitions (Automaton.signature_wellFormed ha).states fun t ht =>
    (Automaton.fits_of_mem_transitionList ha ht).2

end

/-- The list goes to and fro between two edges, separators are symbols, and an empty move led to a
state that is gone. -/
def punctuated : NFA where
  states := ["q", "p"]
  alphabet := [',', ' ']
  initial := "q"
  accepting := .ofList ["p"]
  transitions := .ofList [
    ("q", .ofList [(.epsilon, .ofList ["p"]), (.char ' ', .ofList ["p", "q"]),
      (.char ',', .ofList ["p"])]),
    ("p", .ofList [(.epsilon, ∅), (.char ',', .ofList ["p"])])]
  usesEpsilon := true

theorem punctuated_built : punctuated.Built := by
  have h : NFA.declare ["q", "p", "r"] [',', ' '] "q" ["p"]
      = .ok
        { states := ["q", "p", "r"], alphabet := [',', ' '], initial := "q"
          accepting := .ofList ["p"], transitions := ∅, usesEpsilon := true } := rfl
  have hcomma := NFA.Built.edited (e := .addTransition "q" (.char ',') "p") (.declared h) rfl
  have hloop := NFA.Built.edited (e := .addTransition "p" (.char ',') "p") hcomma rfl
  have hblank := NFA.Built.edited (e := .addTransition "q" (.char ' ') "p") hloop rfl
  have hself := NFA.Built.edited (e := .addTransition "q" (.char ' ') "q") hblank rfl
  have hempty := NFA.Built.edited (e := .addTransition "q" .epsilon "p") hself rfl
  have hgone := NFA.Built.edited (e := .addTransition "p" .epsilon "r") hempty rfl
  exact .edited (e := .removeState "r") hgone rfl

/--
**A diagram shows every transition once.**

Whatever the history of the automaton and whichever states are given as active, there is one node
for each declared state, in the order of declaration, and it is marked as what the state is. From
one state to another, or back to itself, there is no edge if no transition is listed, and otherwise
one, whose label has the symbols of all of them in the order of the list. Edges join nodes and
nothing else, and stand in the order in which the first transition of each is listed.

The symbols can be told from a label, also where a comma or a blank is one of them. So the listed
transitions can be read off the diagram, each as often as it is listed. It is the diagram that comes
of drawing one transition after the other, with the symbols written behind each other as they come.
-/
theorem transitions_drawn_once {a : Automaton} (ha : a.Built) (active : StateSet) :
    let d := ofAutomaton a active
    let l := a.transitionList
    (d.nodes.map Node.name = a.signature.states ∧ (d.nodes.map Node.name).Nodup
      ∧ ∀ n ∈ d.nodes, (n.initial = true ↔ n.name = a.signature.initial)
        ∧ (n.accepting = true ↔ n.name ∈ a.signature.accepting)
        ∧ (n.active = true ↔ n.name ∈ active))
      ∧ (∀ e ∈ d.edges, e.source < d.nodes.length ∧ e.target < d.nodes.length)
      ∧ (∀ p ∈ a.signature.states, ∀ q ∈ a.signature.states,
        ((∀ x, ⟨p, x, q⟩ ∉ l) → d.edgesBetween p q = [])
          ∧ ((∃ x, ⟨p, x, q⟩ ∈ l) → ∃ e, d.edgesBetween p q = [e]
            ∧ e.label = ", ".intercalate ((symbolsBetween l p q).map Symbol.text)
            ∧ readLabel e.label.toList = symbolsBetween l p q))
      ∧ (d.edges.Pairwise fun e f =>
        firstBetween l (d.nameAt e.source) (d.nameAt e.target)
          < firstBetween l (d.nameAt f.source) (d.nameAt f.target))
      ∧ d.reading.Perm l
      ∧ (sketch a.signature.states l).edges = d.edges.map fun e => (e.ends, e.label) := by
  intro d l
  have h := Automaton.signature_wellFormed ha
  have hnodes : d.nodes.map Node.name = a.signature.states := map_name_nodes
  have hlength : d.nodes.length = a.signature.states.length := by
    rw [← hnodes, List.length_map]
  refine ⟨⟨hnodes, hnodes ▸ h.states, fun n hn => mem_nodes hn⟩, fun e he => ?_,
    fun p hp q hq => ?_, pairwise_edges ha, reading_perm ha, (sketch_draws h.states).edges⟩
  · obtain ⟨hsource, htarget⟩ := getElem?_nameAt ha he
    rw [hlength]
    exact ⟨(List.getElem?_eq_some_iff.1 hsource).1, (List.getElem?_eq_some_iff.1 htarget).1⟩
  · obtain ⟨i, hi⟩ := List.mem_iff_getElem?.1 hp
    obtain ⟨j, hj⟩ := List.mem_iff_getElem?.1 hq
    have hedges : d.edgesBetween p q = edgesWith (i, j) (symbolsBetween l p q) :=
      edgesBetween_eq ha hi hj
    constructor
    · intro hnone
      have hnil : symbolsBetween l p q = [] :=
        List.eq_nil_iff_forall_not_mem.2 fun x hx => hnone x (mem_symbolsBetween.1 hx)
      rw [hedges, hnil]
      rfl
    · rintro ⟨x, hx⟩
      have hone : d.edgesBetween p q = [⟨i, j, symbolsBetween l p q⟩] :=
        hedges.trans (if_neg (List.ne_nil_of_mem (mem_symbolsBetween.2 hx)))
      have hmem : ⟨i, j, symbolsBetween l p q⟩ ∈ d.edges :=
        List.mem_of_mem_filter (hone ▸ List.mem_singleton_self _)
      exact ⟨_, hone, rfl, readLabel_of_mem_edges ha hmem⟩

theorem punctuated_transitions_drawn_once :
    let d := ofAutomaton (.nfa punctuated) (.ofList ["p", "r"])
    (Automaton.nfa punctuated).Built ∧ (Automaton.dfa DFA.regrown).Built
      ∧ punctuated.transitionList = [⟨"q", .epsilon, "p"⟩, ⟨"q", .char ' ', "p"⟩,
        ⟨"q", .char ' ', "q"⟩, ⟨"q", .char ',', "p"⟩, ⟨"p", .char ',', "p"⟩]
      ∧ (∃ e, d.edgesBetween "q" "p" = [e] ∧ e.label = "ε,  , ,"
        ∧ readLabel e.label.toList = [.epsilon, .char ' ', .char ','])
      ∧ (∃ e, d.edgesBetween "q" "q" = [e] ∧ e.label = " ")
      ∧ d.edgesBetween "p" "q" = []
      ∧ d.reading.Perm punctuated.transitionList
      ∧ (sketch ["q", "p"] punctuated.transitionList).edges
        = [((0, 1), "ε,  , ,"), ((0, 0), " "), ((1, 1), ",")]
      ∧ ∃ e, (ofAutomaton (.dfa DFA.regrown) ∅).edgesBetween "2" "1" = [e] ∧ e.label = "a, b" := by
  intro d
  have hnfa : (Automaton.nfa punctuated).Built := punctuated_built
  have hdfa : (Automaton.dfa DFA.regrown).Built := DFA.regrown_built
  obtain ⟨-, -, hbetween, -, hreading, hsketch⟩ := transitions_drawn_once hnfa (.ofList ["p", "r"])
  obtain ⟨-, -, hregrown, -⟩ := transitions_drawn_once hdfa ∅
  have hlist : (Automaton.nfa punctuated).transitionList
      = [⟨"q", .epsilon, "p"⟩, ⟨"q", .char ' ', "p"⟩, ⟨"q", .char ' ', "q"⟩,
        ⟨"q", .char ',', "p"⟩, ⟨"p", .char ',', "p"⟩] := by decide +kernel
  have hmoves : (Automaton.dfa DFA.regrown).transitionList
      = [⟨"1", .char 'a', "2"⟩, ⟨"1", .char 'b', "1"⟩, ⟨"2", .char 'a', "1"⟩,
        ⟨"2", .char 'b', "1"⟩] := by decide +kernel
  rw [hlist] at hbetween
  rw [hmoves] at hregrown
  have hp : "p" ∈ punctuated.states := by decide
  have hq : "q" ∈ punctuated.states := by decide
  refine ⟨hnfa, hdfa, hlist, ?_, ?_, ?_, hreading, hsketch.trans (by decide +kernel), ?_⟩
  · obtain ⟨e, he, hlabel, hread⟩ := (hbetween "q" hq "p" hp).2 ⟨.epsilon, by decide⟩
    exact ⟨e, he, hlabel.trans (by decide), hread⟩
  · obtain ⟨e, he, hlabel, -⟩ := (hbetween "q" hq "q" hq).2 ⟨.char ' ', by decide⟩
    exact ⟨e, he, hlabel.trans (by decide)⟩
  · exact (hbetween "p" hp "q" hq).1 (by simp)
  · obtain ⟨e, he, hlabel, -⟩ := (hregrown "2" (by decide) "1" (by decide)).2
      ⟨.char 'a', by decide⟩
    exact ⟨e, he, hlabel.trans (by decide)⟩

end Diagram

end AutomataLab
