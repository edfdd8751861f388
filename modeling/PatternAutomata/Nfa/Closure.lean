import PatternAutomata.IndexSet
import PatternAutomata.Nfa
/-!
# Closure — following empty moves

`Nfa.close` extends a set of states by all that empty moves lead to.  A search keeps the states found and, of those, the
ones whose empty moves are still to be followed; it goes on with the latest first.  Each state found is followed once,
so a search over numbers up to `bound` has at most `bound + 1` turns.
-/
namespace PatternAutomata

structure Search where
  found : IndexSet
  /-- The states found whose ways out are still to be followed, the latest first. -/
  pending : List Nat

namespace Search

/-- Finds a state; it is pending if it is new. -/
def find (s : Search) (i : Nat) : Except Fault Search := do
  let (new, found) ← s.found.insert i
  return ⟨found, if new then i :: s.pending else s.pending⟩

def findAll : Search → List Nat → Except Fault Search
  | s, [] => .ok s
  | s, i :: is => do findAll (← s.find i) is

/-- Makes all states found pending, and no others. -/
def restart (s : Search) : Search := ⟨s.found, s.found.toList.reverse⟩

end Search

namespace Nfa

/-- Follows the empty moves of the latest pending state, for at most the given number of turns. -/
def follow (n : Nfa) : Nat → Search → Except Fault Search
  | 0, s => .ok s
  | turns + 1, s =>
    match s.pending with
    | [] => .ok s
    | i :: rest => do
      let state ← n.state i
      follow n turns (← Search.findAll ⟨s.found, rest⟩ state.empties)

/-- Extends the states found by all that empty moves lead to; nothing stays pending. -/
def close (n : Nfa) (s : Search) : Except Fault Search := n.follow (s.found.bound + 1) s.restart

def insertAll : IndexSet → List Nat → Except Fault IndexSet
  | s, [] => .ok s
  | s, i :: is => do
    let (_, t) ← s.insert i
    insertAll t is

def stateSet (n : Nfa) : IndexSet := .empty n.size

/-- The targets of a state's moves on `c`, in order. -/
def State.targets (s : State) (c : Char) : List Nat := (s.moves.filter (·.1.contains c)).map (·.2)

/-- Adds to `next` all that moves on `c` lead to from `states`. -/
def stepFrom (n : Nfa) (c : Char) : List Nat → IndexSet → Except Fault IndexSet
  | [], next => .ok next
  | i :: is, next => do
    let state ← n.state i
    stepFrom n c is (← insertAll next (state.targets c))

/-- Adds to `next` all that moves on `c` lead to from a member of `current`. -/
def step (n : Nfa) (current : IndexSet) (c : Char) (next : IndexSet) : Except Fault IndexSet :=
  n.stepFrom c current.toList next

/-- Whether one of the states is accepting; the first one that is settles it. -/
def anyAccepting (n : Nfa) : List Nat → Except Fault Bool
  | [] => .ok false
  | i :: is => do
    let state ← n.state i
    if state.accepting then return true else n.anyAccepting is

end Nfa
end PatternAutomata
