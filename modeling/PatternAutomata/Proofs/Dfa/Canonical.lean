import Mathlib.Data.Set.Card
import PatternAutomata.Proofs.Dfa.Quotient
import PatternAutomata.Proofs.Dfa.Shortlex
import PatternAutomata.Proofs.Dfa.Subsets
/-!
# Canonical — an automaton decided by its language

What is left to read after a word is a residual of the language.  In a canonical automaton every state stands for one
residual that is not empty, and each such residual has a state (`Canonical.encard_residuals`).  So the language decides
which words lead to one state (`Canonical.run?_eq_iff`).  The states are numbered breadth first by characters, so the
numbers too are decided by the language: canonical automata for one language have the same states and the same moves on
every character (`Canonical.agree`), whatever intervals they are cut into.
-/
namespace PatternAutomata
namespace Dfa

/-- What is left to read from a state tells it from all others, and there is always something. -/
structure Canonical (d : Dfa) : Prop where
  wellFormed : d.WellFormed
  breadthFirst : d.BreadthFirst
  live : ∀ i, i < d.size → ∃ w, d.acceptsFrom i w = true
  distinct : ∀ i j, i < d.size → j < d.size → (∀ w, d.acceptsFrom i w = d.acceptsFrom j w) → i = j

variable {d e : Dfa} {i j : Nat} {u v : Word}

theorem accepts_append (w : Word) : d.accepts (u ++ w) = (d.run? 0 u).any (d.acceptsFrom · w) := by
  rw [accepts_eq, acceptsFrom_append]

theorem map_accepting_congr {a b : Option Nat} (h : ∀ w, a.any (d.acceptsFrom · w) = b.any (e.acceptsFrom · w))
    (ha : ∀ k, a = some k → ∃ w, d.acceptsFrom k w = true) (hb : ∀ k, b = some k → ∃ w, e.acceptsFrom k w = true) :
    a.map (fun k => (d.state k).accepting) = b.map fun k => (e.state k).accepting := by
  cases a with
  | none =>
    cases b with
    | none => rfl
    | some l =>
      obtain ⟨w, hw⟩ := hb l rfl
      exact absurd ((h w).trans hw) Bool.false_ne_true
  | some k =>
    cases b with
    | none =>
      obtain ⟨w, hw⟩ := ha k rfl
      exact absurd ((h w).symm.trans hw) Bool.false_ne_true
    | some l => exact congrArg some (h [])

/-- Where every state leads to an accepting one, states that accept the same words are told apart by no word. -/
theorem equivalent_of_acceptsFrom (hd : d.WellFormed) (hlive : ∀ i, i < d.size → ∃ w, d.acceptsFrom i w = true)
    (hi : i < d.size) (hj : j < d.size) (h : ∀ w, d.acceptsFrom i w = d.acceptsFrom j w) : d.Equivalent i j := by
  intro v
  refine map_accepting_congr (fun w => ?_) (fun k hk => hlive k (hd.run_lt hi hk)) fun k hk => hlive k (hd.run_lt hj hk)
  rw [← acceptsFrom_append, ← acceptsFrom_append, h]

/-- **Merging states that behave alike leaves a canonical automaton**, if every state led to an accepting one. -/
theorem canonical_minimize (hd : d.WellFormed) (hlive : ∀ i, i < d.size → ∃ w, d.acceptsFrom i w = true) :
    d.minimize.Canonical := by
  obtain ⟨hp, hstable⟩ := refinement_spec hd
  obtain ⟨keys, hq, hbreadth⟩ := exists_minimize hd
  have hwf : d.minimize.WellFormed := Explored.wellFormed hq
  have hlive' (x : Nat) (hx : x < d.minimize.size) : ∃ w, d.minimize.acceptsFrom x w = true := by
    obtain ⟨i, hi, hxi⟩ := hq.exists_member hp hx
    obtain ⟨w, hw⟩ := hlive i hi
    exact ⟨w, by rw [hq.acceptsFrom_eq hd hp hstable hi hxi, hw]⟩
  exact ⟨hwf, hbreadth, hlive', fun x y hx hy h =>
    eq_of_equivalent_minimize hd hx hy (equivalent_of_acceptsFrom hwf hlive' hx hy h)⟩

/-- Every state of the automaton of the sets of states leads to an accepting one, if those of the sets do. -/
theorem SubsetsOf.live {n : Nfa} {keys : Array (List Nat)} (hn : n.WellFormed) (h : SubsetsOf n keys d)
    (hlive : ∀ i, i < n.size → ∃ w j, n.isAccepting j = true ∧ n.Path i w j) (hi : i < d.size) :
    ∃ w, d.acceptsFrom i w = true := by
  obtain ⟨root, -, hex⟩ := h.explored
  obtain ⟨k, hk⟩ := hex.exists_key hi
  have hclosed := hex.holds i k hk
  obtain ⟨s, ss, rfl⟩ := List.exists_cons_of_ne_nil hclosed.ne_nil
  obtain ⟨w, j, hj, hpath⟩ := hlive s (hclosed.lt s List.mem_cons_self)
  exact ⟨w, (acceptsFrom_iff_hasRunFrom hn hex hk w).2 ⟨s, List.mem_cons_self, j, hj, hpath⟩⟩

namespace Canonical

/-! ## States and residuals -/

theorem live_of_run? (h : d.Canonical) (hu : d.run? 0 u = some i) : i < d.size ∧ ∃ w, d.acceptsFrom i w = true :=
  have hi := h.wellFormed.run_lt h.wellFormed.size_pos hu
  ⟨hi, h.live i hi⟩

/-- **Words lead to one state exactly when they leave the same to read.** -/
theorem run?_eq_iff (h : d.Canonical) :
    d.run? 0 u = d.run? 0 v ↔ ∀ w, d.accepts (u ++ w) = d.accepts (v ++ w) := by
  simp only [accepts_append]
  refine ⟨fun heq w => by rw [heq], fun hall => ?_⟩
  have hmap := map_accepting_congr hall (fun _ hu => (h.live_of_run? hu).2) fun _ hv => (h.live_of_run? hv).2
  cases hu : d.run? 0 u with
  | none =>
    rw [hu] at hmap
    exact (Option.map_eq_none_iff.1 hmap.symm).symm
  | some i =>
    rw [hu] at hmap hall
    obtain ⟨j, hj, -⟩ := Option.map_eq_some_iff.1 hmap.symm
    rw [hj] at hall ⊢
    exact congrArg some (h.distinct i j (h.live_of_run? hu).1 (h.live_of_run? hj).1 hall)

/-- **There are as many states as residuals that are not empty.** -/
theorem encard_residuals (h : d.Canonical) :
    Set.encard {M : Set Word | M.Nonempty ∧ ∃ u, M = {v | d.accepts (u ++ v) = true}} = d.size := by
  have hrun (u : Word) : {v | d.accepts (u ++ v) = true} = {v | (d.run? 0 u).any (d.acceptsFrom · v) = true} := by
    simp only [accepts_append]
  have himage : {M : Set Word | M.Nonempty ∧ ∃ u, M = {v | d.accepts (u ++ v) = true}} =
      (fun i => {v | d.acceptsFrom i v = true}) '' (Finset.range d.size : Set Nat) := by
    ext M
    constructor
    · rintro ⟨⟨v, hv⟩, u, rfl⟩
      rw [hrun] at hv ⊢
      cases hu : d.run? 0 u with
      | none => rw [hu] at hv; cases hv
      | some i =>
        exact ⟨i, Finset.mem_coe.2 (Finset.mem_range.2 (h.wellFormed.run_lt h.wellFormed.size_pos hu)), rfl⟩
    · rintro ⟨i, hi, rfl⟩
      have hi := Finset.mem_range.1 (Finset.mem_coe.1 hi)
      obtain ⟨u, hu⟩ := h.breadthFirst.exists_run i hi
      refine ⟨h.live i hi, u, ?_⟩
      rw [hrun, hu]
      rfl
  have hinj : Set.InjOn (fun i => {v | d.acceptsFrom i v = true}) (Finset.range d.size : Set Nat) := by
    intro i hi j hj heq
    have hi := Finset.mem_range.1 (Finset.mem_coe.1 hi)
    have hj := Finset.mem_range.1 (Finset.mem_coe.1 hj)
    refine h.distinct i j hi hj fun v => ?_
    exact Bool.eq_iff_iff.2 (Set.ext_iff.1 heq v)
  rw [himage, hinj.encard_image, Set.encard_coe_eq_coe_finsetCard, Finset.card_range]

/-! ## One language, one automaton -/

/-- **Canonical automata for one language are the same**, up to how their moves are cut into intervals. -/
theorem agree (hd : d.Canonical) (he : e.Canonical) (h : ∀ w, d.accepts w = e.accepts w) : Agree d e := by
  refine hd.breadthFirst.agree hd.wellFormed he.wellFormed he.breadthFirst (fun u => ?_) fun u v => ?_
  · refine map_accepting_congr (fun w => ?_) (fun _ hu => (hd.live_of_run? hu).2) fun _ hu => (he.live_of_run? hu).2
    rw [← accepts_append, ← accepts_append, h]
  · simp only [hd.run?_eq_iff, he.run?_eq_iff, h]

end Canonical

end Dfa
end PatternAutomata
