import AutomataLab.Proofs.Automaton.SameMoves
import AutomataLab.Proofs.Automaton.Saving

/-!
# Nothing that is meant is lost on disk

What is loaded again is the automaton made tidy. To be tidy is all that a file can ask for:
a description never makes an entry without a target, so what was loaded once is tidy
(`tidy_of_ofJson`) and comes back as it is. And to be made tidy changes nothing that an automaton
does, since every state keeps its targets on every symbol (`sameMoves_tidy`).
-/

namespace AutomataLab

namespace NFA

variable {n : NFA}

/-- Tidying leaves the targets as they are, with empty moves turned on or off. -/
theorem sameMoves_tidy (n : NFA) (on : Bool) :
    (n.setUsesEpsilon on).SameMoves (n.tidy.setUsesEpsilon on) where
  signature := rfl
  targets := fun p x => by
    have hlisted : (n.tidy.setUsesEpsilon on).listed p x = (n.setUsesEpsilon on).listed p x :=
      listed_tidy (n := n)
    rw [NFA.targets, NFA.targets, hlisted]
    rfl

theorem process_tidy (n : NFA) (w : List Char) : n.tidy.process w = n.process w :=
  (n.sameMoves_tidy n.usesEpsilon).process w

theorem tidy_tidy (n : NFA) : n.tidy.tidy = n.tidy := tidy_eq_self_iff.2 tidyTable_tidy

/-- The automaton made tidy can come up by itself. -/
theorem tidy_built (h : n.Built) : n.tidy.Built :=
  .described (ofDescription_describe (built_wellFormed h))

end NFA

namespace Automaton

variable {a : Automaton}

theorem tidy_of_ofParts {kind : Kind} {parts : Json} (h : ofParts kind parts = .ok a) :
    a.tidy = a := by
  cases kind with
  | dfa =>
    obtain ⟨e, -, h⟩ := bind_eq_ok_iff.1 h
    obtain ⟨d, -, rfl⟩ := map_mapError_eq_ok_iff.1 h
    rfl
  -- a description adds transitions, and never an entry without one
  | nfa =>
    obtain ⟨e, -, h⟩ := bind_eq_ok_iff.1 h
    obtain ⟨n, hn, rfl⟩ := map_mapError_eq_ok_iff.1 h
    exact congrArg nfa (NFA.tidy_eq_self_iff.2 (NFA.ofDescription_tidy hn))

/-- What is loaded is tidy. -/
theorem tidy_of_ofJson {v : Json} (h : ofJson v = .ok a) : a.tidy = a := by
  obtain ⟨kind, parts, hparts⟩ := exists_parts_of_ofJson h
  exact tidy_of_ofParts hparts

theorem tidy_tidy (a : Automaton) : a.tidy.tidy = a.tidy := by
  cases a with
  | dfa d => rfl
  | nfa n => exact congrArg nfa n.tidy_tidy

theorem tidy_built (h : a.Built) : a.tidy.Built := by
  cases a with
  | dfa d => exact h
  | nfa n => exact NFA.tidy_built h

theorem process_tidy (a : Automaton) (w : List Char) : a.tidy.process w = a.process w := by
  cases a with
  | dfa d => rfl
  | nfa n => exact n.process_tidy w

/-- Two automata of one kind with the same declarations and the same moves, those on the empty move
also while they are turned off. -/
structure SameMeaning (a a' : Automaton) : Prop where
  /-- What is declared is the same. -/
  signature : a'.signature = a.signature
  /-- A deterministic automaton answers alike in every state and on every character. -/
  dfa : ∀ d, a = dfa d → ∃ d', a' = .dfa d' ∧ ∀ q c, d'.next q c = d.next q c
  /-- A nondeterministic one has the same targets, whichever way the switch is turned. -/
  nfa : ∀ n, a = nfa n → ∃ n', a' = .nfa n' ∧ n'.usesEpsilon = n.usesEpsilon
    ∧ ∀ on p x, (n'.setUsesEpsilon on).targets p x = (n.setUsesEpsilon on).targets p x

theorem sameMeaning_tidy (a : Automaton) : a.SameMeaning a.tidy where
  signature := by cases a <;> rfl
  dfa := by
    rintro d rfl
    exact ⟨d, rfl, fun q c => rfl⟩
  nfa := by
    rintro n rfl
    exact ⟨n.tidy, rfl, rfl, fun on => (n.sameMoves_tidy on).targets⟩

/--
**Nothing that is meant is lost on disk.**

An automaton that was loaded comes back from its own file exactly as it is. Any other can be loaded
again too, and what is loaded has the same declarations, the same switch of empty moves and the same
moves, so that every word ends in the same way; and that comes back from its own file exactly.
-/
theorem reload_keeps_meaning :
    (∀ v a, ofJson v = .ok a → Decoder.readText ofJson a.fileText = .ok a)
      ∧ ∀ a : Automaton, a.Built → ∃ a', Decoder.readText ofJson a.fileText = .ok a'
        ∧ a.SameMeaning a' ∧ (∀ w, a'.process w = a.process w)
        ∧ Decoder.readText ofJson a'.fileText = .ok a' := by
  constructor
  · -- what is loaded is tidy already
    intro v a h
    rw [reload_eq_tidy (built_of_ofJson h), tidy_of_ofJson h]
  · -- what comes back is the automaton made tidy, and to make that tidy changes nothing
    intro a h
    refine ⟨a.tidy, reload_eq_tidy h, a.sameMeaning_tidy, a.process_tidy, ?_⟩
    rw [reload_eq_tidy (tidy_built h), tidy_tidy]

/-- A file that leaves open whatever may be left open. -/
def sparse : Json :=
  .object [("alphabet", .ofStrings ["a"]), ("type", .string "dfa"), ("states", .ofStrings ["p"])]

theorem sparse_reload_keeps_meaning :
    (∃ a, ofJson sparse = .ok a ∧ a.signature.initial = "p"
        ∧ Decoder.readText ofJson a.fileText = .ok a)
      ∧ (nfa NFA.trimmed).Built
      ∧ ∃ a', a' ≠ nfa NFA.trimmed
        ∧ Decoder.readText ofJson (nfa NFA.trimmed).fileText = .ok a'
        ∧ (nfa NFA.trimmed).SameMeaning a' ∧ a'.process ['a'] = .accepted
        ∧ Decoder.readText ofJson a'.fileText = .ok a' := by
  have hloaded : ofJson sparse = .ok (dfa ⟨⟨["p"], ['a'], "p", ∅⟩,
      .ofList [("p", .ofList [('a', "p")])]⟩) := rfl
  have hbuilt : (nfa NFA.trimmed).Built := NFA.trimmed_built
  obtain ⟨a', hread, hsame, hprocess, hagain⟩ := reload_keeps_meaning.2 _ hbuilt
  have hne : a' ≠ nfa NFA.trimmed := by
    rintro rfl
    have htidy := Except.ok.inj (hread.symm.trans (reload_eq_tidy hbuilt))
    exact absurd htidy (by decide +kernel)
  have haccepted : (nfa NFA.trimmed).process ['a'] = .accepted := by decide +kernel
  exact ⟨⟨_, hloaded, rfl, reload_keeps_meaning.1 _ _ hloaded⟩, hbuilt, a', hne, hread, hsame,
    (hprocess ['a']).trans haccepted, hagain⟩

end Automaton

end AutomataLab
