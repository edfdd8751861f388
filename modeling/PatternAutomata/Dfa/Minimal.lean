import PatternAutomata.Dfa
import PatternAutomata.Partition
/-!
# Minimal — merging states that behave alike

States are first put into two classes, accepting and rejecting.  A class is then split wherever its members disagree on
the class that some character leads to, in rounds, until a round splits nothing; each class becomes one state.
-/
namespace PatternAutomata
namespace Dfa

/-- Joins moves to the move `m` while they adjoin it and have its target. -/
def joinMoves (m : Interval × Nat) : List (Interval × Nat) → List (Interval × Nat)
  | [] => [m]
  | k :: rest =>
    if m.2 = k.2 ∧ m.1.Adjoins k.1 then joinMoves (m.1.span k.1, m.2) rest
    else m :: joinMoves k rest

/-- What a state does under a partition: its moves with classes for targets, joined where they adjoin, so that states
compare equal however they split the alphabet. -/
def behaviour (p : Partition) (s : State) : List (Interval × Nat) :=
  match s.moves.toList.map fun m => (m.1, p.classOf m.2) with
  | [] => []
  | m :: rest => joinMoves m rest

/-- Moves written as numbers, three for each. -/
def encodeMoves (moves : List (Interval × Nat)) : List Nat :=
  moves.flatMap fun m => [m.1.start, m.1.stop, m.2]

/-- The key by which a round puts state `i` into a class: its class so far and its behaviour. -/
def roundKey (d : Dfa) (p : Partition) (i : Nat) : List Nat :=
  p.classOf i :: encodeMoves (behaviour p (d.state i))

def initialPartition (d : Dfa) : Partition := .ofKeys (d.states.toList.map (·.accepting.toNat))

/-- One round: splits the classes whose members behave differently. -/
def split (d : Dfa) (p : Partition) : Partition := .ofKeys ((List.range d.size).map (d.roundKey p))

structure Refinement where
  partition : Partition
  /-- For each round the number of classes before and after it. -/
  rounds : List (Nat × Nat)

/-- Splits classes until a round splits none, in at most `limit` rounds. -/
def refine (d : Dfa) : (limit : Nat) → Partition → Refinement
  | 0, p => ⟨p, []⟩
  | limit + 1, p =>
    let q := d.split p
    if q.count = p.count then ⟨q, [(p.count, q.count)]⟩
    else
      let r := d.refine limit q
      ⟨r.partition, (p.count, q.count) :: r.rounds⟩

/-- The rounds that lead to the classes of states that behave alike; there are at most as many as states. -/
def refinement (d : Dfa) : Refinement := d.refine d.size d.initialPartition

/-- The moves of a class: those of its first member. -/
def classMoves (d : Dfa) (p : Partition) (c : Nat) : List (Interval × Nat) :=
  (d.state (p.leader c)).moves.toList.map fun m => (m.1, p.classOf m.2)

/-- The automaton of the classes that can be reached from the root's, numbered breadth first. -/
def quotient (d : Dfa) (p : Partition) : Dfa :=
  .ofExploration (fun c => (d.state (p.leader c)).accepting)
    (Exploration.exploreAll (d.classMoves p) p.count (p.classOf 0))

def minimize (d : Dfa) : Dfa := d.quotient d.refinement.partition

end Dfa
end PatternAutomata
