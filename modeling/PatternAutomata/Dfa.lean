import PatternAutomata.Ascending
import PatternAutomata.Exploration
import PatternAutomata.Interval
import PatternAutomata.Word
/-!
# Dfa — deterministic automata

The moves of a state are disjoint intervals in ascending order, each with one target, so that the move on a character is
found by binary search.  State 0 is the root.  A missing move, like a number that is no state, stands for rejection.
-/
namespace PatternAutomata

structure Dfa.State where
  accepting : Bool
  /-- Disjoint intervals in ascending order with their targets. -/
  moves : Array (Interval × Nat)
deriving DecidableEq

structure Dfa where
  states : Array Dfa.State
deriving DecidableEq

/-- The first position from `lo` on, but before `hi`, at which `p` fails, if `p` holds up to some position and not from
there on; `hi` if it never fails. -/
def partitionPoint (p : Nat → Bool) (lo hi : Nat) : Nat :=
  if lo < hi then
    if p ((lo + hi) / 2) then partitionPoint p ((lo + hi) / 2 + 1) hi else partitionPoint p lo ((lo + hi) / 2)
  else lo
termination_by hi - lo

theorem le_partitionPoint {p : Nat → Bool} {lo hi : Nat} : lo ≤ partitionPoint p lo hi := by
  fun_induction partitionPoint p lo hi with
  | case1 lo hi _ _ ih => omega
  | case2 lo hi _ _ ih => exact ih
  | case3 => exact Nat.le_refl _

theorem partitionPoint_le {p : Nat → Bool} {lo hi : Nat} (h : lo ≤ hi) : partitionPoint p lo hi ≤ hi := by
  fun_induction partitionPoint p lo hi with
  | case1 lo hi _ _ ih => exact ih (by omega)
  | case2 lo hi _ _ ih => exact Nat.le_trans (ih (by omega)) (by omega)
  | case3 => exact h

/-- **Binary search.**  If `p` holds before every position where it holds, it holds at exactly the positions before the
one found. -/
theorem lt_partitionPoint_iff {p : Nat → Bool} {lo hi i : Nat}
    (hp : ∀ j k, lo ≤ j → j < k → k < hi → p k = true → p j = true) (hlo : lo ≤ i) (hhi : i < hi) :
    i < partitionPoint p lo hi ↔ p i = true := by
  fun_induction partitionPoint p lo hi with
  | case1 lo hi hlt hmid ih =>
    by_cases hi' : (lo + hi) / 2 + 1 ≤ i
    · exact ih (fun j k hj => hp j k (by omega)) hi' hhi
    · have hle : (lo + hi) / 2 + 1 ≤ partitionPoint p ((lo + hi) / 2 + 1) hi := le_partitionPoint
      refine ⟨fun _ => ?_, fun _ => by omega⟩
      rcases Nat.lt_or_eq_of_le (Nat.not_lt.1 hi') with h | h
      · exact hp i _ hlo h (by omega) hmid
      · rw [h]; exact hmid
  | case2 lo hi hlt hmid ih =>
    by_cases hi' : i < (lo + hi) / 2
    · exact ih (fun j k hj hjk hk => hp j k hj hjk (by omega)) hlo hi'
    · have hle : partitionPoint p lo ((lo + hi) / 2) ≤ (lo + hi) / 2 := partitionPoint_le (by omega)
      refine ⟨fun _ => by omega, fun hpi => ?_⟩
      rcases Nat.lt_or_eq_of_le (Nat.not_lt.1 hi') with h | h
      · exact absurd (hp _ i (by omega) h hhi hpi) hmid
      · rw [h] at hmid; exact absurd hpi hmid
  | case3 lo hi hlt => omega

namespace Dfa

namespace State

/-- The targets of the moves, ascending and each once.  A state with more than one is a fork. -/
def destinations (s : State) : List Nat := ascending (s.moves.toList.map (·.2))

/-- The smallest interval around all moves. -/
def span (s : State) : Option Interval :=
  match s.moves[0]?, s.moves.back? with
  | some first, some last => some (first.1.span last.1)
  | _, _ => none

/-- Whether the move at a position ends before `c`. -/
def endsBefore (s : State) (c : Char) (i : Nat) : Bool :=
  match s.moves[i]? with
  | some m => m.1.hi < c
  | none => false

def next? (s : State) (c : Char) : Option Nat :=
  match s.moves[partitionPoint (s.endsBefore c) 0 s.moves.size]? with
  | some m => if m.1.contains c then some m.2 else none
  | none => none

end State

def size (d : Dfa) : Nat := d.states.size

/-- The state with a number; a number that is no state is a rejecting state without moves. -/
def state (d : Dfa) (i : Nat) : State := d.states.getD i ⟨false, #[]⟩

/-- The state that a word leads to from state `i`. -/
def run? (d : Dfa) : Nat → Word → Option Nat
  | i, [] => some i
  | i, c :: w => ((d.state i).next? c).bind (d.run? · w)

def accepts (d : Dfa) (w : Word) : Bool :=
  match d.run? 0 w with
  | some i => (d.state i).accepting
  | none => false

/-- The states that a word passes from state `i` on, ended by `none` if there is no move on a character. -/
def path (d : Dfa) : Nat → Word → List (Option Nat)
  | i, [] => [some i]
  | i, c :: w =>
    match (d.state i).next? c with
    | some j => some i :: d.path j w
    | none => [some i, none]

/-- The automaton of an explored graph whose moves are labelled with intervals. -/
def ofExploration {κ : Type} [Ord κ] (accepting : κ → Bool) (e : Exploration κ Interval) : Dfa :=
  ⟨(e.found.keys.zip e.rows).map fun (k, row) => ⟨accepting k, row.toArray⟩⟩

end Dfa
end PatternAutomata
