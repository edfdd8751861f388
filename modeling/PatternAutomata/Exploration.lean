import PatternAutomata.Numbering
/-!
# Exploration — graphs numbered breadth first

A graph is given by the labelled moves out of each node.  `explore` numbers the nodes that can be reached from a root in
the order of discovery, breadth first and, within a node, in the order of its moves; the moves of the visited nodes are
kept as rows of labels and numbers.  Nodes are visited in the order of their numbers, so the queue of nodes to visit is
what the numbering holds beyond the rows.
-/
namespace PatternAutomata

open Std (TransOrd LawfulEqOrd)

structure Exploration (κ β : Type) [Ord κ] where
  found : Numbering κ
  rows : Array (List (β × Nat))

namespace Exploration

variable {κ β ε : Type} [Ord κ] [TransOrd κ] [LawfulEqOrd κ]

/-- Visits nodes in the order of their numbers until all are visited, at most `limit` more of them. -/
def visit (moves : κ → Except ε (List (β × κ))) : (limit : Nat) → Exploration κ β → Except ε (Exploration κ β)
  | 0, e => .ok e
  | limit + 1, e =>
    match e.found.keys[e.rows.size]? with
    | none => .ok e
    | some k => do
      let (row, found) := e.found.numberAll (← moves k)
      visit moves limit ⟨found, e.rows.push row⟩

/-- Explores what can be reached from `root`; a graph of more than `limit` nodes is explored in part. -/
def explore (moves : κ → Except ε (List (β × κ))) (limit : Nat) (root : κ) : Except ε (Exploration κ β) :=
  visit moves limit ⟨(Numbering.empty.number root).2, #[]⟩

def exploreAll (moves : κ → List (β × κ)) (limit : Nat) (root : κ) : Exploration κ β :=
  match (explore (fun k => .ok (moves k)) limit root : Except Empty (Exploration κ β)) with
  | .ok e => e
  | .error e => nomatch e

end Exploration
end PatternAutomata
