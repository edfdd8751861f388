import PatternAutomata.Dfa
/-!
# Forced — positions at which every accepted word is restricted

While a state has one destination only, every accepted word goes there, and its character at that position lies in the
span of the state's moves.  A forced run follows such states until it meets an accepting state or a fork.
-/
namespace PatternAutomata

/-- A position, counted from the state where the run began, and an interval around the characters it can hold. -/
structure Offset where
  depth : Nat
  range : Interval
deriving DecidableEq

/-- Where a forced run ends. -/
inductive RunEnd where
  | accepting
  | fork (state : Nat)
  /-- In a rejecting state without moves, or in one that the run has passed already. -/
  | stuck
deriving DecidableEq

namespace Dfa

/-- The labels of single moves from `current` on, until a state has none or several, a move leads to an accepting state
that can be left, or a move leads to a state visited before. -/
def chainFrom (d : Dfa) : (limit : Nat) → (visited : List Nat) → (current : Nat) → List Interval
  | 0, _, _ => []
  | limit + 1, visited, current =>
    match (d.state current).moves.toList with
    | [(label, next)] =>
      if (d.state next).accepting ∧ (d.state next).moves ≠ #[] then []
      else if next ∈ visited then [label]
      else label :: d.chainFrom limit (next :: visited) next
    | _ => []

def chain (d : Dfa) : List Interval := d.chainFrom d.size [0] 0

/-- Goes on with a forced run that has passed the states `visited` and is in `current`. -/
def forcedFrom (d : Dfa) :
    (limit : Nat) → (visited : List Nat) → Option Offset → (current : Nat) → Option Offset × RunEnd
  | 0, _, last, _ => (last, .stuck)
  | limit + 1, visited, last, current =>
    if (d.state current).accepting then (last, .accepting)
    else if current ∈ visited then (last, .stuck)
    else
      match (d.state current).destinations, (d.state current).span with
      | [next], some range => d.forcedFrom limit (current :: visited) (some ⟨visited.length, range⟩) next
      | [], _ => (last, .stuck)
      | _, none => (last, .stuck)
      | _, some _ => (last, .fork current)

/-- The forced run from a state: the last position it passes, and where it ends. -/
def forcedRun (d : Dfa) (start : Nat) : Option Offset × RunEnd := d.forcedFrom (d.size + 1) [] none start

/-- The last forced position from the root, if the run from there ends in an accepting state. -/
def offset (d : Dfa) : Option Offset :=
  match d.forcedRun 0 with
  | (last, .accepting) => last
  | _ => none

/-- The states from which runs go on where the run from `start` ends: the destinations of its fork. -/
def successors (d : Dfa) (start : Nat) : List Nat :=
  match (d.forcedRun start).2 with
  | .fork s => (d.state s).destinations
  | _ => []

/-- The states from which forced runs start: the root, and where the run from one of them ends in a fork, the fork's
destinations. -/
def runStarts (d : Dfa) : List Nat :=
  (Exploration.exploreAll (fun s => (d.successors s).map ((), ·)) d.size 0).found.keys.toList

/-- The last forced position of each run that passes any, by the state where the run starts, ascending. -/
def offsets (d : Dfa) : List (Nat × Offset) :=
  (ascending d.runStarts).filterMap fun s => (d.forcedRun s).1.map (s, ·)

end Dfa
end PatternAutomata
