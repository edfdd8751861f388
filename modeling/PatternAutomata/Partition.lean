import PatternAutomata.Numbering
/-!
# Partition — things put into classes by a key

Things numbered 0, 1, 2, … are in one class exactly when they have the same key (`Partition.classOf_ofKeys`).  Classes
are numbered in the order of their first members.
-/
namespace PatternAutomata

open Std (TransOrd LawfulEqOrd)

/-- A partition of the numbers below `classes.size`. -/
structure Partition where
  classes : Array Nat
  leaders : Array Nat
deriving DecidableEq

namespace Partition

variable {κ : Type} [Ord κ] [TransOrd κ] [LawfulEqOrd κ]

def count (p : Partition) : Nat := p.leaders.size

def classOf (p : Partition) (i : Nat) : Nat := p.classes.getD i 0

def leader (p : Partition) (c : Nat) : Nat := p.leaders.getD c 0

/-- Puts the next thing into class `c`, of which it is the leader if the class is new. -/
def add (p : Partition) (c : Nat) : Partition where
  classes := p.classes.push c
  leaders := if c = p.leaders.size then p.leaders.push p.classes.size else p.leaders

/-- Puts the things with the given keys into their classes; `n` numbers the keys of the classes made so far. -/
def addKeys : Numbering κ → Partition → List κ → Partition
  | _, p, [] => p
  | n, p, k :: ks =>
    let (c, n) := n.number k
    addKeys n (p.add c) ks

def ofKeys (keys : List κ) : Partition := addKeys Numbering.empty ⟨#[], #[]⟩ keys

/-- Each thing that is put into its class goes to the number of its key. -/
theorem classes_addKeys (n : Numbering κ) (p : Partition) (ks : List κ) :
    ∃ (m : Numbering κ) (cs : List Nat), (∀ (i : Nat) (k : κ), n.keys[i]? = some k → m.keys[i]? = some k) ∧
      (addKeys n p ks).classes.toList = p.classes.toList ++ cs ∧ cs.map (m.keys[·]?) = ks.map some := by
  induction ks generalizing n p with
  | nil => exact ⟨n, [], fun _ _ h => h, (List.append_nil _).symm, rfl⟩
  | cons k ks ih =>
    obtain ⟨m, cs, hm, hcs, hks⟩ := ih (n.number k).2 (p.add (n.number k).1)
    refine ⟨m, (n.number k).1 :: cs, fun i x h => hm i x (Numbering.getElem?_number_of_met k h), ?_, ?_⟩
    · rw [addKeys, hcs, add, Array.toList_push, List.append_assoc, List.singleton_append]
    · rw [List.map_cons, List.map_cons, hks, hm _ _ (n.getElem?_number k)]

/-- **Things are in one class exactly when they have the same key.** -/
theorem classOf_ofKeys {keys : List κ} {i j : Nat} {k l : κ} (hi : keys[i]? = some k) (hj : keys[j]? = some l) :
    (ofKeys keys).classOf i = (ofKeys keys).classOf j ↔ k = l := by
  obtain ⟨m, cs, -, hcs, hks⟩ := classes_addKeys Numbering.empty ⟨#[], #[]⟩ keys
  have key {i : Nat} {k : κ} (h : keys[i]? = some k) : m.keys[(ofKeys keys).classOf i]? = some k := by
    have hk : (cs.map (m.keys[·]?))[i]? = some (some k) := by rw [hks, List.getElem?_map, h]; rfl
    rw [List.getElem?_map, Option.map_eq_some_iff] at hk
    obtain ⟨c, hc, hk⟩ := hk
    have : (ofKeys keys).classOf i = c := by
      rw [classOf, Array.getD_eq_getD_getElem?, ← Array.getElem?_toList, ofKeys, hcs]
      exact congrArg (·.getD 0) hc
    rw [this, hk]
  constructor
  · intro h
    have hi := key hi
    rw [h, key hj] at hi
    exact (Option.some.inj hi).symm
  · rintro rfl
    exact Numbering.eq_of_getElem? (key hi) (key hj)

end Partition
end PatternAutomata
