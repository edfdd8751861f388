import PatternAutomata.Proofs.Dfa.Quotient
import PatternAutomata.Proofs.Dfa.Subsets
/-!
# Lookup — the one move on a character

Both constructions leave the moves of each state in order and apart, so no two of them are on one character
(`State.Ordered.eq_of_mem`), and the binary search finds the one that is, if there is one.  All targets are states, and
every state is met (`Nfa.ofNfa_exact_minimize_exact`).
-/
namespace PatternAutomata
namespace Dfa

/-- The moves of each state are in order and apart and lead to states, every state is met, and the move on a character is
found exactly if there is one; there is never another. -/
structure Exact (d : Dfa) : Prop where
  size_pos : 0 < d.size
  apart : ∀ i, (d.state i).moves.toList.Pairwise fun m l => m.1.hi < l.1.lo
  target_lt : ∀ i, ∀ m ∈ (d.state i).moves, m.2 < d.size
  reachable : ∀ i, i < d.size → ∃ u, d.run? 0 u = some i
  next?_iff : ∀ i c t, (d.state i).next? c = some t ↔ ∃ m ∈ (d.state i).moves, c ∈ m.1 ∧ m.2 = t
  unique : ∀ (i a b : Nat) (m l : Interval × Nat) (c : Char), (d.state i).moves[a]? = some m →
    (d.state i).moves[b]? = some l → c ∈ m.1 → c ∈ l.1 → a = b

/-- No two moves are on one character. -/
theorem State.Ordered.eq_of_mem {s : State} (hs : s.Ordered) {a b : Nat} {m l : Interval × Nat} {c : Char}
    (ha : s.moves[a]? = some m) (hb : s.moves[b]? = some l) (hm : c ∈ m.1) (hl : c ∈ l.1) : a = b := by
  obtain ⟨halt, rfl⟩ := Array.getElem?_eq_some_iff.1 ha
  obtain ⟨hblt, rfl⟩ := Array.getElem?_eq_some_iff.1 hb
  rw [Interval.mem_iff_ordinal] at hm hl
  rcases Nat.lt_trichotomy a b with hab | hab | hba
  · have := hs.stop_le_start hab hblt
    omega
  · exact hab
  · have := hs.stop_le_start hba halt
    omega

theorem WellFormed.exact {d : Dfa} (hd : d.WellFormed) (hb : d.BreadthFirst) : d.Exact where
  size_pos := hd.size_pos
  apart i := (hd.ordered i).imp Interval.stop_le_start_iff.1
  target_lt := hd.target_lt
  reachable := hb.exists_run
  next?_iff i _ _ := State.next?_eq_some (hd.ordered i)
  unique i _ _ _ _ _ := (hd.ordered i).eq_of_mem

end Dfa

namespace Nfa

/-- **The automaton of the sets of states and the one with states merged are both exact**, however the moves of the
nondeterministic one overlap. -/
theorem ofNfa_exact_minimize_exact (n : Nfa) (hn : n.WellFormed) :
    ∃ raw, Dfa.ofNfa n = .ok raw ∧ raw.Exact ∧ raw.minimize.Exact := by
  obtain ⟨raw, keys, hraw, hsubsets⟩ := Dfa.exists_ofNfa hn
  have hd := hsubsets.wellFormed
  obtain ⟨classes, hclasses, hbreadth⟩ := Dfa.exists_minimize hd
  exact ⟨raw, hraw, hd.exact hsubsets.breadthFirst, (Dfa.Explored.wellFormed hclasses).exact hbreadth⟩

/-- Two moves to different accepting states, which overlap; one ends before the surrogates and the other behind them. -/
def overlap : Nfa :=
  ((((empty.addState false).2.addState true).2.addState true).2.addMove 0 ⟨'a', '\uD7FF', by decide⟩ 1).addMove
    0 ⟨'m', '\uE000', by decide⟩ 2

/-- What is left after merging keeps the three moves that the two were split into, though all have one target. -/
theorem overlap_exact : overlap.WellFormed ∧ ∃ raw, Dfa.ofNfa overlap = .ok raw ∧ raw.size = 4 ∧
    raw.minimize.size = 2 ∧ (raw.minimize.state 0).moves.size = 3 ∧ (raw.minimize.state 0).next? '\uE000' = some 1 ∧
    ¬ ∃ m ∈ (raw.minimize.state 0).moves, '\uE001' ∈ m.1 ∧ m.2 = 1 := by
  have hwf : overlap.WellFormed := by decide
  have hcompute : (Dfa.ofNfa overlap).toOption.map (fun d => (d.size, d.minimize.size,
      (d.minimize.state 0).moves, (d.minimize.state 0).next? '\uE001')) =
      some (4, 2, #[(⟨'a', 'l', by decide⟩, 1), (⟨'m', '\uD7FF', by decide⟩, 1), (.single '\uE000', 1)], none) := by
    decide +kernel
  obtain ⟨raw, hraw, -, hexact⟩ := ofNfa_exact_minimize_exact overlap hwf
  rw [hraw] at hcompute
  simp only [Except.toOption, Option.map_some, Option.some.injEq, Prod.mk.injEq] at hcompute
  obtain ⟨hsize, hmin, hmoves, hnone⟩ := hcompute
  refine ⟨hwf, raw, hraw, hsize, hmin, by rw [hmoves]; rfl, (hexact.next?_iff 0 _ _).2 ?_, fun h => ?_⟩
  · exact ⟨(.single '\uE000', 1), by rw [hmoves]; simp, Interval.lo_mem _, rfl⟩
  · rw [(hexact.next?_iff 0 _ _).2 h] at hnone
    cases hnone

end Nfa
end PatternAutomata
