import PatternAutomata.Proofs.Dfa.Shortlex
import PatternAutomata.Proofs.Dfa.Subsets
/-!
# Reached — one state for each set that a word leads to

In the automaton of the sets of states a word runs as long as it leads somewhere, and the state where it ends is decided
by the set of states that it leads to (`SubsetsOf.eq_iff_reached_eq`).  So there is one state for each set that is not
empty and that some word leads to, and the sets are numbered in the order of the least words that lead to them
(`Nfa.ofNfa_numbers_reached`).
-/
namespace PatternAutomata

/-- The states that reading `u` can lead to from the start. -/
def Nfa.reached (n : Nfa) (u : Word) : Set Nat := {x | n.Path n.start u x}

namespace Dfa

open Word (Precedes)

variable {n : Nfa} {keys : Array (List Nat)} {d : Dfa} {i j x : Nat} {k : List Nat} {u v : Word}

theorem leadsTo_root {root : List Nat} (hroot : n.IsClosure [n.start] root) :
    n.LeadsTo root u x ↔ x ∈ n.reached u := by
  rw [hroot.leadsTo_iff, Nfa.LeadsTo]
  simp only [List.mem_singleton, exists_eq_left]
  exact Iff.rfl

/-- **The state where a word ends is the set that the word leads to.** -/
theorem SubsetsOf.mem_iff_mem_reached (h : SubsetsOf n keys d) (hu : d.run? 0 u = some i)
    (hk : keys[i]? = some k) : x ∈ k ↔ x ∈ n.reached u := by
  obtain ⟨root, hroot, hex⟩ := h.explored
  rw [mem_iff_leadsTo_of_run? hex hex.root_eq hu hk, leadsTo_root hroot]

/-- The state where a word ends has its set, which is not empty. -/
theorem SubsetsOf.exists_key (h : SubsetsOf n keys d) (hu : d.run? 0 u = some i) :
    ∃ k, keys[i]? = some k ∧ n.ClosedStates k ∧ (d.state i).accepting = k.any n.isAccepting := by
  obtain ⟨root, -, hex⟩ := h.explored
  obtain ⟨k, hk⟩ := hex.exists_key (hex.wellFormed.run_lt hex.wellFormed.size_pos hu)
  exact ⟨k, hk, hex.holds i k hk, hex.accepting_eq i k hk⟩

theorem SubsetsOf.isSome_run?_iff (hn : n.WellFormed) (h : SubsetsOf n keys d) :
    (d.run? 0 u).isSome ↔ (n.reached u).Nonempty := by
  constructor
  · intro hsome
    obtain ⟨i, hi⟩ := Option.isSome_iff_exists.1 hsome
    obtain ⟨k, hk, hclosed, -⟩ := h.exists_key hi
    obtain ⟨x, hx⟩ := List.exists_mem_of_ne_nil k hclosed.ne_nil
    exact ⟨x, (h.mem_iff_mem_reached hi hk).1 hx⟩
  · rintro ⟨x, hx⟩
    obtain ⟨root, hroot, hex⟩ := h.explored
    exact Option.isSome_iff_exists.2 (exists_run?_of_leadsTo hn hex hex.root_eq ((leadsTo_root hroot).2 hx))

theorem SubsetsOf.accepting_iff_reached (h : SubsetsOf n keys d) (hu : d.run? 0 u = some i) :
    (d.state i).accepting = true ↔ ∃ x ∈ n.reached u, n.isAccepting x = true := by
  obtain ⟨k, hk, -, haccepting⟩ := h.exists_key hu
  simp only [haccepting, List.any_eq_true, h.mem_iff_mem_reached hu hk]

/-- **Two words end in one state exactly when they lead to one set.** -/
theorem SubsetsOf.eq_iff_reached_eq (h : SubsetsOf n keys d) (hu : d.run? 0 u = some i)
    (hv : d.run? 0 v = some j) : i = j ↔ n.reached u = n.reached v := by
  obtain ⟨k, hk, hclosed, -⟩ := h.exists_key hu
  obtain ⟨l, hl, hclosed', -⟩ := h.exists_key hv
  have hku (x : Nat) := h.mem_iff_mem_reached (x := x) hu hk
  have hlv (x : Nat) := h.mem_iff_mem_reached (x := x) hv hl
  constructor
  · rintro rfl
    cases hk.symm.trans hl
    exact Set.ext fun x => (hku x).symm.trans (hlv x)
  · intro heq
    have hkl : k = l := Ascending.ext hclosed.ascending hclosed'.ascending fun x => by rw [hku, hlv, heq]
    obtain ⟨root, -, hex⟩ := h.explored
    exact hex.injective i j k hk (hkl ▸ hl)

end Dfa

namespace Nfa

open Word (Precedes)

/-- **The automaton of the sets of states has one state for each set that a word leads to.**  The search for them ends by
itself.  A word runs exactly if it leads somewhere; it is accepted if it leads to an accepting state, and two words end
in one state if they lead to one set.  There are no other states, and they are numbered in the order of the least words
that lead to them. -/
theorem ofNfa_numbers_reached (n : Nfa) (hn : n.WellFormed) : ∃ raw, Dfa.ofNfa n = .ok raw ∧
    (∃ root e, n.closedSet [n.start] = .ok root ∧ raw = .ofExploration (·.any n.isAccepting) e ∧
      e.rows.size = e.found.keys.size ∧
      ∀ limit, 2 ^ n.size ≤ limit → Exploration.explore n.setMoves limit root = .ok e) ∧
    (∀ u, (raw.run? 0 u).isSome ↔ (n.reached u).Nonempty) ∧
    (∀ u i, raw.run? 0 u = some i →
      ((raw.state i).accepting = true ↔ ∃ x ∈ n.reached u, n.isAccepting x = true)) ∧
    (∀ u v i j, raw.run? 0 u = some i → raw.run? 0 v = some j → (i = j ↔ n.reached u = n.reached v)) ∧
    (∀ i, i < raw.size ↔ ∃ u, raw.run? 0 u = some i) ∧ raw.LeastTo 0 [] ∧ (∀ i, i < raw.size → ∃ u, raw.LeastTo i u) ∧
    ∀ i j u v, raw.LeastTo i u → raw.LeastTo j v → (i < j ↔ Precedes u v) := by
  obtain ⟨root, e, hroot, hclosure, he, hinv, hfull⟩ := Dfa.exists_explore_sets hn
  have h := Dfa.subsetsOf_ofExploration hclosure hinv hfull
  have hd := h.wellFormed
  have hb := h.breadthFirst
  refine ⟨_, bind_eq_ok.2 ⟨root, hroot, bind_eq_ok.2 ⟨e, he, rfl⟩⟩, ⟨root, e, hroot, rfl, hfull, fun limit hle => ?_⟩,
    fun u => h.isSome_run?_iff hn, fun u i hu => h.accepting_iff_reached hu,
    fun u v i j hu hv => h.eq_iff_reached_eq hu hv, fun i => ⟨hb.exists_run i, fun ⟨u, hu⟩ => ?_⟩,
    ⟨rfl, fun v hv => absurd hv List.not_shortlex_nil_right⟩, fun i hi => hb.exists_leastTo hi,
    fun i j u v hu hv => hb.lt_iff_precedes hu hv⟩
  · exact Exploration.visit_eq_of_le he hfull hle
  · exact hd.run_lt hd.size_pos hu

/-- From the start, every letter leads to a state with an empty move back, and the letters from `m` to `p` lead besides
to an accepting state that `b` leads round. -/
def shuttle : Nfa :=
  (((((((empty.addState false).2.addState false).2.addState true).2.addMove 0 ⟨'a', 'z', by decide⟩ 1).addMove
    0 ⟨'m', 'p', by decide⟩ 2).addEmpty 1 0).addMove 2 (.single 'b') 2)

/-- After `mb` all three states are reached, and after `mba` again the two that are reached after `a`. -/
theorem shuttle_numbers_reached : shuttle.WellFormed ∧ ∃ raw, Dfa.ofNfa shuttle = .ok raw ∧ raw.size = 3 ∧
    shuttle.reached ['m', 'b', 'a'] = shuttle.reached ['a'] ∧ shuttle.reached ['m', 'b'] ≠ shuttle.reached ['a'] ∧
    ¬ (shuttle.reached ['A']).Nonempty := by
  have hwf : shuttle.WellFormed := by decide
  have hcompute : (Dfa.ofNfa shuttle).toOption.map (fun d =>
      (d.size, [d.run? 0 ['a'], d.run? 0 ['m', 'b'], d.run? 0 ['m', 'b', 'a'], d.run? 0 ['A']])) =
      some (3, [some 1, some 2, some 1, none]) := by decide +kernel
  obtain ⟨raw, hraw, -, hdefined, -, hsame, -⟩ := ofNfa_numbers_reached shuttle hwf
  rw [hraw] at hcompute
  simp only [Except.toOption, Option.map_some, Option.some.injEq, Prod.mk.injEq, List.cons.injEq, and_true] at hcompute
  obtain ⟨hsize, ha, hmb, hmba, hA⟩ := hcompute
  refine ⟨hwf, raw, hraw, hsize, (hsame _ _ _ _ hmba ha).1 rfl, fun heq => ?_, fun hne => ?_⟩
  · exact absurd ((hsame _ _ _ _ hmb ha).2 heq) (by decide)
  · have := (hdefined ['A']).2 hne
    rw [hA] at this
    cases this

end Nfa
end PatternAutomata
