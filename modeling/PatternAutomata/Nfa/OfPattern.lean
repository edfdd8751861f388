import PatternAutomata.Nfa
import PatternAutomata.Pattern
/-!
# OfPattern — the automaton of a pattern

Each part of a pattern becomes a fragment: a start and the ends from which whatever comes next is reached by empty
moves.  Nothing is simplified on the way, and the states are numbered in the order in which the parts are read.
-/
namespace PatternAutomata

/-- The part of an automaton that stands for a part of a pattern. -/
structure Fragment where
  start : Nat
  /-- The states in which the part has been matched. -/
  ends : List Nat
deriving DecidableEq

namespace Nfa

def addEmpties (n : Nfa) (sources : List Nat) (target : Nat) : Nfa :=
  sources.foldl (·.addEmpty · target) n

/-- Adds empty moves from each of the sources, first to one target and then to another. -/
def addEmptyPairs (n : Nfa) (sources : List Nat) (target other : Nat) : Nfa :=
  sources.foldl (fun n s => (n.addEmpty s target).addEmpty s other) n

/-- Adds a move on each character of a word, one state after another; the answer is the last state. -/
def addChain (n : Nfa) (current : Nat) : Word → Nat × Nfa
  | [] => (current, n)
  | c :: w =>
    let (next, n) := n.addState false
    (n.addMove current (.single c) next).addChain next w

/-- Adds `k` copies of a part behind `ends`, each after the other. -/
def addCopies (part : Nfa → Fragment × Nfa) : Nat → List Nat → Nfa → List Nat × Nfa
  | 0, ends, n => (ends, n)
  | k + 1, ends, n =>
    let (copy, n) := part n
    addCopies part k copy.ends (n.addEmpties ends copy.start)

/-- Adds `k` copies of a part behind `ends`; `exit` is reached from before each of them. -/
def addOptionalCopies (part : Nfa → Fragment × Nfa) (exit : Nat) : Nat → List Nat → Nfa → List Nat × Nfa
  | 0, ends, n => (ends, n)
  | k + 1, ends, n =>
    let (copy, n) := part n
    addOptionalCopies part exit k copy.ends (n.addEmptyPairs ends copy.start exit)

def addPattern : Pattern → Nfa → Fragment × Nfa
  | .word w, n =>
    let (start, n) := n.addState false
    let (last, n) := n.addChain start w
    (⟨start, [last]⟩, n)
  | .oneOf intervals, n =>
    let (start, n) := n.addState false
    let (last, n) := n.addState false
    (⟨start, [last]⟩, intervals.foldl (·.addMove start · last) n)
  | .seq head tail, n =>
    let (head, n) := addPattern head n
    let (tail, n) := addPattern tail n
    (⟨head.start, tail.ends⟩, n.addEmpties head.ends tail.start)
  | .alt left right, n =>
    let (branch, n) := n.addState false
    let (left, n) := addPattern left n
    let (right, n) := addPattern right n
    let (last, n) := n.addState false
    let n := (n.addEmpty branch left.start).addEmpty branch right.start
    (⟨branch, [last]⟩, (n.addEmpties left.ends last).addEmpties right.ends last)
  | .star p, n =>
    let (once, n) := addPattern p n
    let (last, n) := n.addState false
    (⟨once.start, [last]⟩, (n.addEmptyPairs once.ends once.start last).addEmpty once.start last)
  | .count p times, n =>
    let (start, n) := n.addState false
    let (ends, n) := addCopies (addPattern p) times.least [start] n
    if times.least < times.greatest then
      let (last, n) := n.addState false
      let (ends, n) := addOptionalCopies (addPattern p) last (times.greatest - times.least) ends n
      (⟨start, ends ++ [last]⟩, n)
    else (⟨start, ends⟩, n)

/-- The automaton of a pattern.  Its last state is the accepting one, reached from all ends of the pattern's
fragment. -/
def ofPattern (p : Pattern) : Nfa :=
  let (whole, n) := addPattern p empty
  let (accept, n) := n.addState true
  (n.addEmpties whole.ends accept).setStart whole.start

end Nfa
end PatternAutomata
