import PatternAutomata.Compiled
import PatternAutomata.Proofs.Dfa.Refinement
import PatternAutomata.Proofs.Dfa.Subsets
/-!
# Rounds — how merging gets to its end

The partition after a round refines the one before it, so a round that leaves as many classes as it found has split
none, and it is the last.  Every other round adds a class, and as there are no more classes than states, there are no
more rounds than states (`lt_count_partitionAfter`).  Their counts are what the log says of a compilation
(`Compiled.log_dropLast`).
-/
namespace PatternAutomata
namespace Dfa

variable {d : Dfa} {m : Nat}

/-- The partition of the states after some rounds. -/
def partitionAfter (d : Dfa) (rounds : Nat) : Partition := d.split^[rounds] d.initialPartition

theorem partitionAfter_succ (d : Dfa) (r : Nat) : d.partitionAfter (r + 1) = d.split (d.partitionAfter r) :=
  Function.iterate_succ_apply' d.split r d.initialPartition

theorem classes_partitionAfter (hd : d.WellFormed) (r : Nat) : d.Classes (d.partitionAfter r) :=
  (classes_initialPartition d).iterate hd r

/-- **A round refines the partition that it finds.** -/
theorem partitionAfter_succ_refines (hd : d.WellFormed) (r : Nat) :
    (d.partitionAfter (r + 1)).Refines (d.partitionAfter r) := by
  rw [partitionAfter_succ]
  exact split_refines hd (classes_partitionAfter hd r)

/-- Rounds that add classes lead to more classes than there were rounds. -/
theorem lt_count_partitionAfter (hd : d.WellFormed)
    (hgrows : ∀ r < m, (d.partitionAfter r).count < (d.partitionAfter (r + 1)).count) :
    m < (d.partitionAfter m).count := by
  induction m with
  | zero =>
    have hp := classes_partitionAfter hd 0
    exact Nat.lt_of_le_of_lt (Nat.zero_le _) (hp.proper.classOf_lt 0 (hp.size_eq ▸ hd.size_pos))
  | succ m ih =>
    have hm := ih fun r hr => hgrows r (Nat.lt_succ_of_lt hr)
    have hlast := hgrows m (Nat.lt_succ_self m)
    omega

theorem classes_le_size (hd : d.WellFormed) (r : Nat) : (d.partitionAfter r).count ≤ d.size := by
  have hp := classes_partitionAfter hd r
  exact hp.size_eq ▸ hp.proper.count_le

end Dfa

/-- The lines of a log but for its last are those of the rounds, numbered from 1. -/
theorem Compiled.log_dropLast {c : Compiled} {k : Nat} {before after : Nat → Nat}
    (h : c.raw.refinement.rounds = (List.range k).map fun r => (before r, after r)) :
    c.log.dropLast = (List.range k).map fun r =>
      ⟨.trace, s!"minimize round {r + 1}: {before r} -> {after r} classes"⟩ := by
  rw [log, List.dropLast_concat, h]
  refine List.ext_getElem? fun i => ?_
  rw [List.getElem?_map, List.getElem?_zipIdx, List.getElem?_map, List.getElem?_map]
  by_cases hi : i < k
  · rw [List.getElem?_range hi, Nat.add_comm 1 i]
    rfl
  · rw [List.getElem?_eq_none (by rw [List.length_range]; omega)]
    rfl

namespace Dfa

/-- **Merging makes progress in every round, and ends within as many rounds as there are states.**  Each round refines
the partition before it.  All but the last add classes, and the last adds none; so each round finds the classes that the
round before it left, as the log says.  No class ever mixes accepting and rejecting states, and in the end every
character leads from the members of a class into one class, or from all of them nowhere. -/
theorem rounds_progress (n : Nfa) (d : Dfa) (h : ofNfa n = .ok d) : ∃ m, m + 1 ≤ d.size ∧
    d.refinement.partition = d.partitionAfter (m + 1) ∧
    d.refinement.rounds =
      (List.range (m + 1)).map (fun r => ((d.partitionAfter r).count, (d.partitionAfter (r + 1)).count)) ∧
    (∀ c : Compiled, c.raw = d → c.log.dropLast = (List.range (m + 1)).map fun r => ⟨.trace,
      s!"minimize round {r + 1}: {(d.partitionAfter r).count} -> {(d.partitionAfter (r + 1)).count} classes"⟩) ∧
    (∀ r, (d.partitionAfter (r + 1)).Refines (d.partitionAfter r)) ∧
    (∀ r < m, (d.partitionAfter r).count < (d.partitionAfter (r + 1)).count) ∧
    (d.partitionAfter m).count = (d.partitionAfter (m + 1)).count ∧
    (∀ r, d.Classes (d.partitionAfter r)) ∧ d.Stable (d.partitionAfter (m + 1)) := by
  obtain ⟨keys, hsubsets⟩ := subsetsOf_of_ofNfa h
  have hd := hsubsets.wellFormed
  have hp := classes_initialPartition d
  have hlimit : d.size < d.initialPartition.count + d.size := by
    have := hp.proper.classOf_lt 0 (hp.size_eq ▸ hd.size_pos)
    omega
  obtain ⟨m, hpartition, hrounds, hgrows, hstops⟩ := exists_rounds hd d.size hp hlimit
  have hrounds : d.refinement.rounds = (List.range (m + 1)).map fun r =>
      ((d.partitionAfter r).count, (d.partitionAfter (r + 1)).count) := hrounds
  refine ⟨m, ?_, hpartition, hrounds, ?_, partitionAfter_succ_refines hd, hgrows, hstops.symm,
    classes_partitionAfter hd, ?_⟩
  · exact Nat.lt_of_lt_of_le (lt_count_partitionAfter hd hgrows) (classes_le_size hd m)
  · rintro c rfl
    exact Compiled.log_dropLast hrounds
  · rw [partitionAfter_succ]
    rw [Function.iterate_succ_apply'] at hstops
    exact (classes_partitionAfter hd m).stable_split hd hstops

/-- Three states that accept, in a row; nothing leads to a fourth, whose move goes to a number that is no state. -/
def stairs : Nfa :=
  ⟨#[⟨true, [(.single 'a', 1)], []⟩, ⟨true, [(.single 'a', 2)], []⟩, ⟨true, [], []⟩, ⟨true, [(.single 'a', 9)], []⟩], 0⟩

/-- One class becomes two, then three, and a third round finds no more: as many rounds as there are states. -/
theorem rounds_progress_stairs : ¬ stairs.WellFormed ∧ ∃ d, ofNfa stairs = .ok d ∧ d.size = 3 ∧
    d.refinement.rounds = [(1, 2), (2, 3), (3, 3)] ∧ d.refinement.partition = d.partitionAfter 3 ∧
    (∀ r < 2, (d.partitionAfter r).count < (d.partitionAfter (r + 1)).count) ∧ d.Stable (d.partitionAfter 3) := by
  have hcompute : (ofNfa stairs).toOption.map (fun d => (d.size, d.refinement.rounds)) =
      some (3, [(1, 2), (2, 3), (3, 3)]) := by decide +kernel
  cases hok : ofNfa stairs with
  | error f =>
    rw [hok] at hcompute
    cases hcompute
  | ok d =>
    rw [hok] at hcompute
    simp only [Except.toOption, Option.map_some, Option.some.injEq, Prod.mk.injEq] at hcompute
    obtain ⟨hsize, hlisted⟩ := hcompute
    obtain ⟨m, -, hpartition, hrounds, -, -, hgrows, -, -, hstable⟩ := rounds_progress stairs d hok
    have hlength := congrArg List.length hrounds
    rw [hlisted, List.length_map, List.length_range] at hlength
    obtain rfl : m = 2 := (Nat.succ.inj hlength).symm
    exact ⟨by decide, d, rfl, hsize, hlisted, hpartition, hgrows, hstable⟩

end Dfa
end PatternAutomata
