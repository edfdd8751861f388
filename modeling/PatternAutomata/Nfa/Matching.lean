import PatternAutomata.IndexSet.Operation
import PatternAutomata.Nfa.Closure
import PatternAutomata.Word
/-!
# Matching — running a nondeterministic automaton on a word

The automaton is in all states at once that the characters read so far lead to.  Two sets take turns: one holds the
current states, the other is cleared and takes up the next ones.
-/
namespace PatternAutomata
namespace Nfa

/-- Reads one character: `first` holds the current states before and after. -/
def advance (n : Nfa) (sets : IndexSets) (c : Char) : Except Fault IndexSets := do
  let next ← n.step sets.first c sets.second.clear
  let closed ← n.close ⟨next, []⟩
  return IndexSets.swap ⟨sets.first, closed.found⟩

/-- Reads the rest of a word; without a current state the answer is settled. -/
def run (n : Nfa) : IndexSets → Word → Except Fault Bool
  | sets, [] => n.anyAccepting sets.first.toList
  | sets, c :: w => do
    let sets ← n.advance sets c
    if sets.first.isEmpty then return false else n.run sets w

/-- Whether the automaton accepts a word; one without states accepts none. -/
def accepts (n : Nfa) (w : Word) : Except Fault Bool :=
  if n.size = 0 then return false
  else do
    let sets := IndexSets.empty n.size
    let (_, first) ← sets.first.insert n.start
    let closed ← n.close ⟨first, []⟩
    n.run ⟨closed.found, sets.second⟩ w

end Nfa
end PatternAutomata
