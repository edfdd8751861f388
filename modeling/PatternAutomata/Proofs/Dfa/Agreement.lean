import PatternAutomata.Proofs.Dfa.Quotient
import PatternAutomata.Proofs.Dfa.Subsets
import PatternAutomata.Proofs.Nfa.Matching
/-!
# Agreement — three automata, one language

A nondeterministic automaton, the automaton of its sets of states and the one with states merged accept the same words.
-/
namespace PatternAutomata
namespace Nfa

/-- **The three automata accept the same words.**  None of the constructions fails on an automaton whose start and
targets are states, however its moves overlap and its empty moves run in circles. -/
theorem accepts_eq_ofNfa_eq_minimize (n : Nfa) (hn : n.WellFormed) : ∃ raw, Dfa.ofNfa n = .ok raw ∧
    ∀ w, n.accepts w = .ok (raw.accepts w) ∧ raw.minimize.accepts w = raw.accepts w := by
  obtain ⟨raw, keys, hraw, hsubsets⟩ := Dfa.exists_ofNfa hn
  refine ⟨raw, hraw, fun w => ⟨?_, Dfa.accepts_minimize_eq hsubsets.wellFormed w⟩⟩
  obtain ⟨b, hb, hrun⟩ := exists_accepts hn w
  have hb' : b = raw.accepts w := Bool.eq_iff_iff.2 (hrun.trans (hsubsets.accepts_iff hn w).symm)
  rw [hb, hb']

/-- Two states with empty moves in a circle; of the two moves, which overlap, one crosses the surrogates and the other
ends with the last character. -/
def circle : Nfa :=
  (((((empty.addState false).2.addState true).2.addEmpty 0 1).addEmpty 1 0).addMove
    0 ⟨'a', '\uE000', by decide⟩ 1).addMove 1 ⟨'\uD7FF', Char.ofNat 0x10FFFF, by decide⟩ 0

theorem circle_accepts_eq : circle.WellFormed ∧ ∃ raw, Dfa.ofNfa circle = .ok raw ∧
    ∀ w, circle.accepts w = .ok (raw.accepts w) ∧ raw.minimize.accepts w = raw.accepts w :=
  ⟨by decide, accepts_eq_ofNfa_eq_minimize circle (by decide)⟩

end Nfa
end PatternAutomata
