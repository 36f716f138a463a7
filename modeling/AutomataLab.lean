import AutomataLab.Grammar.Draw
import AutomataLab.Main
import AutomataLab.Proofs.Playback.Drive
import AutomataLab.Proofs.Automaton.Paths
import AutomataLab.Proofs.Grammar.Chart
import AutomataLab.Proofs.Grammar.Conversion
import AutomataLab.Proofs.Playback.TwoRuns
import AutomataLab.Proofs.Playback.ByHand
import AutomataLab.Proofs.Grammar.Shapes
import AutomataLab.Proofs.Automaton.DFA
import AutomataLab.Proofs.Grammar.First
import AutomataLab.Proofs.Json.Decoding
import AutomataLab.Proofs.Automaton.Descriptions
import AutomataLab.Proofs.Automaton.Saving
import AutomataLab.Proofs.Grammar.Growing
import AutomataLab.Proofs.Grammar.Membership
import AutomataLab.Proofs.Playback.InStep
import AutomataLab.Proofs.Automaton.SameMoves
import AutomataLab.Proofs.Automaton.Reloading
import AutomataLab.Proofs.Automaton.Singletons
import AutomataLab.Proofs.Automaton.Loading
import AutomataLab.Proofs.Grammar.Converted
import AutomataLab.Proofs.Automaton.Edits
import AutomataLab.Proofs.Automaton.HiddenMoves
import AutomataLab.Proofs.Grammar.BoundedTrees
import AutomataLab.Proofs.Automaton.Closure
import AutomataLab.Proofs.Automaton.EditedMoves
import AutomataLab.Proofs.Coincidence
import AutomataLab.Proofs.Automaton.Entering
import AutomataLab.Proofs.Automaton.Removal
import AutomataLab.Proofs.Automaton.Growth
import AutomataLab.Proofs.Automaton.Folding
import AutomataLab.Proofs.Automaton.Widening
import AutomataLab.Proofs.Automaton.Reports
import AutomataLab.Proofs.Playback.Preparation
import AutomataLab.Proofs.Grammar.Settled
import AutomataLab.Proofs.Grammar.Saving
import AutomataLab.Proofs.Grammar.ConvertedSaving
import AutomataLab.Proofs.Automaton.Listing
import AutomataLab.Proofs.Diagram
