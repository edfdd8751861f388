import PatternAutomata.IndexSet
/-!
# Operation — index sets as machines

The operations of an index set as values, so that a history of them is a list.  A faulty operation is answered by its
fault and leaves the set as it was.
-/
namespace PatternAutomata
namespace IndexSet

inductive Operation where
  | insert (x : Nat)
  | erase (x : Nat)
  | contains (x : Nat)
  | placeOf (x : Nat)
  | memberAt? (i : Nat)
  | memberAt (i : Nat)
  | clear
  | size
  | isEmpty
  | bound
deriving DecidableEq

/-- What an operation says. -/
inductive Answer where
  | none
  | truth (b : Bool)
  | number (n : Nat)
deriving DecidableEq

/-- The answer that a number may be missing from. -/
def Answer.ofNumber? : Option Nat → Answer
  | .some n => .number n
  | .none => .none

def perform (s : IndexSet) : Operation → Except Fault (Answer × IndexSet)
  | .insert x => do let (new, t) ← s.insert x; return (.truth new, t)
  | .erase x => do let (old, t) ← s.erase x; return (.truth old, t)
  | .contains x => return (.truth (s.contains x), s)
  | .placeOf x => return (.ofNumber? (s.place? x), s)
  | .memberAt? i => return (.ofNumber? (s.get? i), s)
  | .memberAt i => do return (.number (← s.get i), s)
  | .clear => return (.none, s.clear)
  | .size => return (.number s.size, s)
  | .isEmpty => return (.truth s.isEmpty, s)
  | .bound => return (.number s.bound, s)

/-- Performs an operation and keeps the set if the operation is faulty. -/
def respond (s : IndexSet) (o : Operation) : Except Fault Answer × IndexSet :=
  match s.perform o with
  | .ok (a, t) => (.ok a, t)
  | .error f => (.error f, s)

/-- The answers to a history of operations, each with the members after it. -/
def history : IndexSet → List Operation → List (Except Fault Answer × List Nat)
  | _, [] => []
  | s, o :: os =>
    let (a, t) := s.respond o
    (a, t.toList) :: history t os

end IndexSet

/-- Two index sets of one bound: those found so far and those found next. -/
structure IndexSets where
  first : IndexSet
  second : IndexSet

namespace IndexSets

def empty (bound : Nat) : IndexSets := ⟨.empty bound, .empty bound⟩

def swap (s : IndexSets) : IndexSets := ⟨s.second, s.first⟩

def clear (s : IndexSets) : IndexSets := ⟨s.first.clear, s.second.clear⟩

/-- One operation on the pair or on one of its sets. -/
inductive Operation where
  | swap
  | clear
  | onFirst (o : IndexSet.Operation)
  | onSecond (o : IndexSet.Operation)
deriving DecidableEq

/-- Performs an operation and keeps the sets if the operation is faulty. -/
def respond (s : IndexSets) : Operation → Except Fault IndexSet.Answer × IndexSets
  | .swap => (.ok .none, s.swap)
  | .clear => (.ok .none, s.clear)
  | .onFirst o => let (a, t) := s.first.respond o; (a, ⟨t, s.second⟩)
  | .onSecond o => let (a, t) := s.second.respond o; (a, ⟨s.first, t⟩)

/-- The answers to a history of operations, each with the members of both sets after it. -/
def history : IndexSets → List Operation → List (Except Fault IndexSet.Answer × List Nat × List Nat)
  | _, [] => []
  | s, o :: os =>
    let (a, t) := s.respond o
    (a, t.first.toList, t.second.toList) :: history t os

end IndexSets
end PatternAutomata
