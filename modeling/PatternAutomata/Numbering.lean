import Std.Data.TreeMap
/-!
# Numbering — keys numbered in order of first appearance

A key that has been met keeps its number; a new one gets the next.  The keys stand in an array by number, and a search
tree finds the number of a key; `consistent` says that the two agree, so no key has two numbers.
-/
namespace PatternAutomata

open Std (TransOrd LawfulEqOrd)

/-- The keys met so far with their numbers. -/
structure Numbering (κ : Type) [Ord κ] where
  keys : Array κ
  numbers : Std.TreeMap κ Nat
  consistent : ∀ (k : κ) (i : Nat), numbers[k]? = some i ↔ keys[i]? = some k

namespace Numbering

variable {κ β : Type} [Ord κ] [TransOrd κ] [LawfulEqOrd κ]

def empty : Numbering κ where
  keys := #[]
  numbers := ∅
  consistent := by simp

omit [TransOrd κ] [LawfulEqOrd κ] in
theorem lt_size_of_number {n : Numbering κ} {k : κ} {i : Nat} (h : n.numbers[k]? = some i) : i < n.keys.size :=
  (Array.getElem?_eq_some_iff.1 ((n.consistent k i).1 h)).1

/-- The number of a key; one not met before gets the next number. -/
def number (n : Numbering κ) (k : κ) : Nat × Numbering κ :=
  match h : n.numbers[k]? with
  | some i => (i, n)
  | none =>
    (n.keys.size,
      { keys := n.keys.push k
        numbers := n.numbers.insert k n.keys.size
        consistent := fun k' i => by
          have hi : n.keys[i]? = some k' → i < n.keys.size := fun h => (Array.getElem?_eq_some_iff.1 h).1
          rw [Std.TreeMap.getElem?_insert, Array.getElem?_push]
          split
          · rename_i heq
            cases Std.compare_eq_iff_eq.1 heq
            split
            · rename_i hsize; simp [hsize]
            · rename_i hsize
              refine ⟨fun h => absurd (Option.some.inj h).symm hsize, fun hk => ?_⟩
              rw [(n.consistent k i).2 hk] at h
              cases h
          · rename_i hne
            split
            · rename_i hsize
              refine ⟨fun hk => ?_, fun hk => absurd (Std.compare_eq_iff_eq.2 (Option.some.inj hk)) hne⟩
              exact absurd (lt_size_of_number hk) (by omega)
            · exact n.consistent k' i })

def numberAll : Numbering κ → List (β × κ) → List (β × Nat) × Numbering κ
  | n, [] => ([], n)
  | n, (label, k) :: rest =>
    let (i, n) := n.number k
    let (row, n) := n.numberAll rest
    ((label, i) :: row, n)

theorem number_of_met {n : Numbering κ} {k : κ} {i : Nat} (h : n.keys[i]? = some k) : n.number k = (i, n) := by
  have h := (n.consistent k i).2 h
  unfold number
  split
  · rename_i j hj; rw [h] at hj; cases hj; rfl
  · rename_i hj; rw [h] at hj; cases hj

theorem number_of_new {n : Numbering κ} {k : κ} (h : k ∉ n.keys) :
    (n.number k).1 = n.keys.size ∧ (n.number k).2.keys = n.keys.push k := by
  unfold number
  split
  · rename_i i hi
    exact absurd (Array.mem_of_getElem? ((n.consistent k i).1 hi)) h
  · exact ⟨rfl, rfl⟩

/-- The number of a key is its place among the keys. -/
theorem getElem?_number (n : Numbering κ) (k : κ) : (n.number k).2.keys[(n.number k).1]? = some k := by
  by_cases h : k ∈ n.keys
  · obtain ⟨i, hi⟩ := Array.getElem?_of_mem h
    rw [number_of_met hi]
    exact hi
  · rw [(number_of_new h).1, (number_of_new h).2, Array.getElem?_push_size]

/-- A key that has been met keeps its number. -/
theorem getElem?_number_of_met {n : Numbering κ} {i : Nat} {x : κ} (k : κ) (h : n.keys[i]? = some x) :
    (n.number k).2.keys[i]? = some x := by
  by_cases hk : k ∈ n.keys
  · obtain ⟨j, hj⟩ := Array.getElem?_of_mem hk
    rw [number_of_met hj]
    exact h
  · have hi := (Array.getElem?_eq_some_iff.1 h).1
    rw [(number_of_new hk).2, Array.getElem?_push, if_neg (Nat.ne_of_lt hi)]
    exact h

omit [TransOrd κ] [LawfulEqOrd κ] in
/-- **No key has two numbers.** -/
theorem eq_of_getElem? {n : Numbering κ} {i j : Nat} {k : κ} (hi : n.keys[i]? = some k) (hj : n.keys[j]? = some k) :
    i = j :=
  Option.some.inj (((n.consistent k i).2 hi).symm.trans ((n.consistent k j).2 hj))

end Numbering
end PatternAutomata
