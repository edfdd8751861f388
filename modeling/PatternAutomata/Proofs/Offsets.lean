import PatternAutomata.Proofs.Dfa.RunStarts
import PatternAutomata.Proofs.Reversal
/-!
# Offsets — forced positions, of automata and of patterns

The positions listed for an automaton, be it made of sets of states or with states merged, are those of the forced runs.
A run may get stuck in a dead end, and its position is listed all the same.  The automaton of a pattern has no dead
ends, nor has that of a reversal: from each state some word is accepted, so every run ends in an accepting state or in a
fork (`forced_runs_found`).
-/
namespace PatternAutomata

variable {text : List Char} {p : Pattern} {a c : Compiled}

namespace Compiled

theorem canonical_of_ofPattern (hp : p.Filled) (h : ofPattern text p = .ok c) : c.dfa.Canonical := by
  obtain ⟨d, hd, -, hcanonical, -⟩ := exists_ofPattern hp text
  cases h.symm.trans hd
  exact hcanonical

/-- After any number of reversals the automaton is that of a pattern without empty character sets. -/
theorem canonical_of_reversals (hp : p.Filled) (hc : ofPattern text p = .ok c) (h : c.Reversals a) :
    a.dfa.Canonical := by
  cases h with
  | refl => exact canonical_of_ofPattern hp hc
  | @tail b _ hreach hstep =>
    refine canonical_of_ofPattern (Pattern.filled_reverse ?_) hstep
    rcases (answers_of_ofPattern hp hc).reversals hreach with hans | hans
    · exact hans.pattern_eq ▸ hans.filled
    · exact hans.pattern_eq ▸ hans.filled

end Compiled

theorem Dfa.Canonical.ends {d : Dfa} (hd : d.Canonical) {s i : Nat} {passed : List Nat} {e : RunEnd}
    (hs : d.IsRunStart s) (h : Follows d s passed i) (he : Ends d passed i e) : e = .accepting ∨ e = .fork i := by
  have hne := h.ne_stuck hd.wellFormed hd.live (hs.lt_size hd.wellFormed) he
  cases he with
  | accepting _ => exact .inl rfl
  | fork _ _ _ => exact .inr rfl
  | noWayOut _ _ _ => exact absurd rfl hne
  | again _ _ => exact absurd rfl hne

/-- **The positions listed are those of the forced runs**, from the root and from the destinations of each fork in which
one of the runs ends: the last position of each run that passes any, and a run passes any if it starts in a rejecting
state with one destination.  Following the runs in any other order ends as well, and finds the same positions.  In the
automaton of a pattern, and in those of its reversals, no run gets stuck. -/
theorem forced_runs_found :
    (∀ n : Nfa, n.WellFormed → ∃ raw, Dfa.ofNfa n = .ok raw ∧ ∀ d, d = raw ∨ d = raw.minimize →
      (∀ s o, (s, o) ∈ d.offsets ↔ d.IsRunStart s ∧
        ∃ passed i e, Dfa.Follows d s passed i ∧ Dfa.Ends d passed i e ∧ d.lastOffset passed = some o) ∧
      (∀ s, (∃ o, (s, o) ∈ d.offsets) ↔
        d.IsRunStart s ∧ (d.state s).accepting = false ∧ ∃ j, (d.state s).destinations = [j]) ∧
      (d.offsets.Pairwise fun a b => a.1 < b.1) ∧
      ∀ k a, Dfa.Turns d k a → k ≤ d.size ∧ (a.pending ≠ [] → ∃ b, Dfa.Turn d a b) ∧
        (a.pending = [] → a.found.toList = d.offsets)) ∧
    ∀ text p, Pattern.read text = .ok p → ∃ c, compile text = .ok c ∧ ∀ a, c.Reversals a →
      ∀ s, a.dfa.IsRunStart s → ∃ passed i e, a.dfa.forcedRun s = (a.dfa.lastOffset passed, e) ∧
        Dfa.Follows a.dfa s passed i ∧ Dfa.Ends a.dfa passed i e ∧ (e = .accepting ∨ e = .fork i) := by
  constructor
  · intro n hn
    obtain ⟨raw, keys, hraw, hsubsets⟩ := Dfa.exists_ofNfa hn
    refine ⟨raw, hraw, fun d hd => ?_⟩
    have hd : d.WellFormed := by
      rcases hd with rfl | rfl
      · exact hsubsets.wellFormed
      · exact hsubsets.wellFormed.minimize
    refine ⟨fun s o => hd.mem_offsets_iff, fun s => hd.exists_mem_offsets_iff, d.pairwise_offsets, fun k a ha => ?_⟩
    exact ⟨Nat.le_trans (Nat.le_add_right k _) (ha.le_size hd), d.exists_turn, ha.toList_found hd⟩
  · intro text p hp
    have hfilled := Pattern.filled_of_read hp
    obtain ⟨c, hc, -⟩ := exists_ofPattern hfilled text
    refine ⟨c, compile_eq_ok.2 ⟨p, hp, hc⟩, fun a ha s hs => ?_⟩
    have hcanonical := Compiled.canonical_of_reversals hfilled hc ha
    obtain ⟨passed, i, e, hrun, hend⟩ := Dfa.Follows.here.exists_ends (d := a.dfa) (s := s)
    exact ⟨passed, i, e, Dfa.forcedRun_eq_iff.2 ⟨passed, i, hrun, hend, rfl⟩, hrun, hend, hcanonical.ends hs hrun hend⟩

/-- An `x` and a fork: behind `a` an endless `c` leads nowhere, behind `b` a `c` is accepted. -/
def spur : Nfa :=
  (((((((((Nfa.empty.addState false).2.addState false).2.addState false).2.addState false).2.addState true).2.addMove
    0 (.single 'x') 1).addMove 1 (.single 'a') 2).addMove 2 (.single 'c') 2).addMove 1 (.single 'b') 3).addMove
    3 (.single 'c') 4

theorem forced_runs_found_spur : spur.WellFormed ∧ (∃ raw, Dfa.ofNfa spur = .ok raw ∧
    raw.offsets = [(0, ⟨0, .single 'x'⟩), (2, ⟨0, .single 'c'⟩), (3, ⟨0, .single 'c'⟩)] ∧ raw.IsRunStart 2 ∧
    ∀ k a, Dfa.Turns raw k a → a.pending = [] → a.found.toList = raw.offsets) ∧
    ∃ c, compile "ab(cd|ef)ghi".toList = .ok c ∧
      c.dfa.offsets = [(0, ⟨1, .single 'b'⟩), (3, ⟨3, .single 'i'⟩), (4, ⟨3, .single 'i'⟩)] ∧
      ∀ s, c.dfa.IsRunStart s → (c.dfa.forcedRun s).2 ≠ .stuck := by
  have hread : ∃ p, Pattern.read "ab(cd|ef)ghi".toList = .ok p := ⟨_, by with_unfolding_all rfl⟩
  obtain ⟨p, hp⟩ := hread
  obtain ⟨raw, hraw, h⟩ := forced_runs_found.1 spur (by decide)
  obtain ⟨c, hc, hends⟩ := forced_runs_found.2 _ p hp
  obtain ⟨-, hexists, -, hturns⟩ := h raw (.inl rfl)
  have hspur : (Dfa.ofNfa spur).toOption.map Dfa.offsets =
      some [(0, ⟨0, .single 'x'⟩), (2, ⟨0, .single 'c'⟩), (3, ⟨0, .single 'c'⟩)] := by decide +kernel
  have hcompiled : (compile "ab(cd|ef)ghi".toList).toOption.map (fun c => c.dfa.offsets) =
      some [(0, ⟨1, .single 'b'⟩), (3, ⟨3, .single 'i'⟩), (4, ⟨3, .single 'i'⟩)] := by decide +kernel
  rw [hraw] at hspur
  rw [hc] at hcompiled
  have hoffsets := Option.some.inj hspur
  refine ⟨by decide, ⟨raw, hraw, hoffsets, ?_, fun k a ha => (hturns k a ha).2.2⟩, c, hc, Option.some.inj hcompiled,
    fun s hs hstuck => ?_⟩
  · exact ((hexists 2).1 ⟨⟨0, .single 'c'⟩, by rw [hoffsets]; simp⟩).1
  · obtain ⟨passed, i, e, hrun, -, -, he⟩ := hends c .refl s hs
    rw [hrun] at hstuck
    rcases he with rfl | rfl <;> cases hstuck

end PatternAutomata
