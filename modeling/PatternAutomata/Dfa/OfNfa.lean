import PatternAutomata.Dfa
import PatternAutomata.Interval.Pieces
import PatternAutomata.Nfa.Closure
/-!
# OfNfa — the automaton of sets of states

A deterministic automaton follows all runs of a nondeterministic one at once: each of its states is a set of states
closed under empty moves, written as an ascending list, and the root is the closure of the start.  Out of a set, the
characters are split into the coarsest pieces that no move tells apart, so one character of a piece stands for all.
-/
namespace PatternAutomata
namespace Nfa

/-- The moves of a state; a number that is no state has none. -/
def movesOf (n : Nfa) (i : Nat) : List (Interval × Nat) :=
  match n.states[i]? with
  | some s => s.moves
  | none => []

def isAccepting (n : Nfa) (i : Nat) : Bool :=
  match n.states[i]? with
  | some s => s.accepting
  | none => false

/-- The set of all that empty moves lead to from some states, ascending. -/
def closedSet (n : Nfa) (states : List Nat) : Except Fault (List Nat) := do
  let set ← insertAll n.stateSet states
  let closed ← n.close ⟨set, []⟩
  return ascending closed.found.toList

/-- The targets of all moves on `c` out of a set of states. -/
def targets (n : Nfa) (states : List Nat) (c : Char) : List Nat :=
  states.flatMap fun i => ((n.movesOf i).filter (·.1.contains c)).map (·.2)

/-- The moves on the given pieces out of a set of states, each to a closed set.  A piece without targets is left out. -/
def movesOn (n : Nfa) (states : List Nat) : List Interval → Except Fault (List (Interval × List Nat))
  | [] => .ok []
  | piece :: pieces =>
    match n.targets states piece.lo with
    | [] => n.movesOn states pieces
    | targets => do
      let closed ← n.closedSet targets
      return (piece, closed) :: (← n.movesOn states pieces)

def setMoves (n : Nfa) (states : List Nat) : Except Fault (List (Interval × List Nat)) :=
  n.movesOn states (Interval.pieces (states.flatMap fun i => (n.movesOf i).map (·.1)))

end Nfa

/-- The automaton of the closed sets of states that words lead to, numbered breadth first. -/
def Dfa.ofNfa (n : Nfa) : Except Fault Dfa := do
  let root ← n.closedSet [n.start]
  let explored ← Exploration.explore n.setMoves (Nat.pow 2 n.size) root
  return .ofExploration (·.any n.isAccepting) explored

end PatternAutomata
