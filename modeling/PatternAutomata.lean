import PatternAutomata.Compiled
import PatternAutomata.IndexSet.Operation
import PatternAutomata.Nfa.Matching
import PatternAutomata.Pattern.Language
import PatternAutomata.Proofs.Nfa.Closure
import PatternAutomata.Proofs.Nfa.Matching
import PatternAutomata.Proofs.Nfa.Afresh
import PatternAutomata.Proofs.Dfa.ForcedRun
import PatternAutomata.Proofs.Dfa.RunStarts
import PatternAutomata.Proofs.Offsets
import PatternAutomata.Proofs.Interval.Compact
import PatternAutomata.Proofs.Grouping
import PatternAutomata.Proofs.Alternatives
import PatternAutomata.Proofs.Preference
import PatternAutomata.Proofs.Mirror
import PatternAutomata.Proofs.Dfa.Explored
import PatternAutomata.Proofs.Dfa.Subsets
import PatternAutomata.Proofs.Dfa.Behaviour
import PatternAutomata.Proofs.Partition
import PatternAutomata.Proofs.Dfa.Refinement
import PatternAutomata.Proofs.Dfa.Quotient
import PatternAutomata.Proofs.Dfa.Agreement
import PatternAutomata.Proofs.Nfa.Fragment
import PatternAutomata.Proofs.Nfa.Thompson
import PatternAutomata.Proofs.Nfa.OfPattern
import PatternAutomata.Proofs.Facts
import PatternAutomata.Proofs.Dfa.Canonical
import PatternAutomata.Proofs.Dfa.Forced
import PatternAutomata.Proofs.Dfa.Restriction
import PatternAutomata.Proofs.Compiled
import PatternAutomata.Proofs.Reversal
import PatternAutomata.Proofs.Pattern.Recognition
import PatternAutomata.Proofs.Pattern.Length
import PatternAutomata.Proofs.Shortest
import PatternAutomata.Proofs.Tightness
import PatternAutomata.Proofs.Dfa.Distinct
import PatternAutomata.Proofs.Nfa.Entered
import PatternAutomata.Proofs.Checked.Nfa
import PatternAutomata.Proofs.Checked.Dfa
import PatternAutomata.Proofs.Checked.Forced
import PatternAutomata.Proofs.Checked.Compiled
import PatternAutomata.Proofs.IndexSet.Listing
import PatternAutomata.Proofs.Pattern.Rendering
import PatternAutomata.Proofs.Interval.Pieces
import PatternAutomata.Proofs.Dfa.Shortlex
import PatternAutomata.Proofs.Dfa.Reached
import PatternAutomata.Proofs.Dfa.Merged
import PatternAutomata.Proofs.Dfa.Lookup
import PatternAutomata.Proofs.Pattern.Longest
import PatternAutomata.Proofs.Pattern.Errors
import PatternAutomata.Proofs.Dfa.Idempotent
import PatternAutomata.Proofs.Pattern.Shallow
import PatternAutomata.Proofs.Dfa.Rounds
