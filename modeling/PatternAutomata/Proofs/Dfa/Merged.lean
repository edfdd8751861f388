import PatternAutomata.Proofs.Dfa.Quotient
import PatternAutomata.Proofs.Dfa.Shortlex
import PatternAutomata.Proofs.Dfa.Subsets
/-!
# Merged — which states are merged

After merging, two words lead to one state exactly when before they led to states that no word tells apart
(`minimize_run?_eq_iff`): no others are merged, and all of these are.  How the moves are cut into intervals is of no
account.  Automata that agree on where the characters lead have the same classes, round by round (`Agree.refinement_eq`),
and so are merged into automata that agree (`Agree.minimize`).
-/
namespace PatternAutomata
namespace Dfa

variable {d e q : Dfa} {p : Partition} {keys : Array Nat} {i j : Nat} {u v w : Word}

/-! ## Words and classes -/

/-- **Two words lead to one state of the quotient exactly when they lead to one class.** -/
theorem ClassesOf.run?_eq_iff (hq : d.ClassesOf p keys q) (hd : d.WellFormed) (hp : d.Classes p)
    (hstable : d.Stable p) : q.run? 0 u = q.run? 0 v ↔ (d.run? 0 u).map p.classOf = (d.run? 0 v).map p.classOf := by
  have hwf : q.WellFormed := Explored.wellFormed hq
  have hkey {u : Word} {x : Nat} (hx : q.run? 0 u = some x) : ∃ c, keys[x]? = some c :=
    Explored.exists_key hq (hwf.run_lt hwf.size_pos hx)
  rw [← hq.run?_eq hd hp hstable hd.size_pos (Explored.root_eq hq) u,
    ← hq.run?_eq hd hp hstable hd.size_pos (Explored.root_eq hq) v]
  constructor
  · exact fun h => h ▸ rfl
  · intro h
    cases hx : q.run? 0 u with
    | none =>
      cases hy : q.run? 0 v with
      | none => rfl
      | some y =>
        obtain ⟨c, hc⟩ := hkey hy
        rw [hx, hy, Option.bind_some, hc] at h
        cases h
    | some x =>
      obtain ⟨c, hc⟩ := hkey hx
      rw [hx, Option.bind_some, hc, eq_comm] at h
      obtain ⟨y, hy, hyc⟩ := Option.bind_eq_some_iff.1 h
      rw [hy, Explored.injective hq x y c hc hyc]

/-- Words lead to states that agree on acceptance before and after merging. -/
theorem map_accepting_minimize (hd : d.WellFormed) (u : Word) :
    (d.minimize.run? 0 u).map (fun x => (d.minimize.state x).accepting) =
      (d.run? 0 u).map fun i => (d.state i).accepting := by
  obtain ⟨hp, hstable⟩ := refinement_spec hd
  obtain ⟨keys, hq, -⟩ := exists_minimize hd
  exact hq.map_accepting hd hp hstable hd.size_pos (Explored.root_eq hq) u

/-- **After merging, two words lead to one state exactly when no word tells the states apart that they led to before.** -/
theorem minimize_run?_eq_iff (hd : d.WellFormed) (hu : d.run? 0 u = some i) (hv : d.run? 0 v = some j) :
    d.minimize.run? 0 u = d.minimize.run? 0 v ↔ d.Equivalent i j := by
  obtain ⟨hp, hstable⟩ := refinement_spec hd
  obtain ⟨keys, hq, -⟩ := exists_minimize hd
  rw [hq.run?_eq_iff hd hp hstable, hu, hv, Option.map_some, Option.map_some, Option.some.injEq,
    classOf_refinement hd (hd.run_lt hd.size_pos hu) (hd.run_lt hd.size_pos hv)]

/-- A word that leads somewhere leads somewhere after merging. -/
theorem exists_run?_minimize (hd : d.WellFormed) (hu : d.run? 0 u = some i) : ∃ x, d.minimize.run? 0 u = some x := by
  have h := map_accepting_minimize hd u
  rw [hu] at h
  obtain ⟨x, hx, -⟩ := Option.map_eq_some_iff.1 h
  exact ⟨x, hx⟩

/-- Equivalent states are left by the same words, to states that agree on acceptance. -/
theorem equivalent_iff : d.Equivalent i j ↔ ∀ w, ((d.run? i w).isSome ↔ (d.run? j w).isSome) ∧
    ∀ k l, d.run? i w = some k → d.run? j w = some l → (d.state k).accepting = (d.state l).accepting := by
  refine forall_congr' fun w => ?_
  cases d.run? i w <;> cases d.run? j w <;> simp

/-! ## Cutting the moves differently -/

theorem Agree.run?_eq (h : Agree d e) : d.run? i w = e.run? i w := by
  induction w generalizing i with
  | nil => rfl
  | cons c w ih => rw [run?_cons, run?_cons, h.next?_eq, funext fun k => ih (i := k)]

theorem Agree.initialPartition_eq (h : Agree d e) : d.initialPartition = e.initialPartition := by
  refine congrArg Partition.ofKeys (List.ext_getElem? fun i => ?_)
  rw [getElem?_map_accepting, getElem?_map_accepting, h.size_eq, h.accepting_eq]

theorem Agree.split_eq (h : Agree d e) (hd : d.WellFormed) (he : e.WellFormed) (p : Partition) :
    d.split p = e.split p := by
  have hkey (i : Nat) : d.roundKey p i = e.roundKey p i := by
    rw [roundKey, roundKey, (behaviour_eq_iff (hd.ordered i) (he.ordered i)).2 fun c => by rw [h.next?_eq]]
  rw [split, split, h.size_eq, funext hkey]

theorem Agree.refine_eq (h : Agree d e) (hd : d.WellFormed) (he : e.WellFormed) (limit : Nat) (p : Partition) :
    d.refine limit p = e.refine limit p := by
  induction limit generalizing p with
  | zero => rfl
  | succ limit ih => simp only [refine, h.split_eq hd he, ih]

/-- **The classes and the rounds that lead to them do not depend on how moves are cut.** -/
theorem Agree.refinement_eq (h : Agree d e) (hd : d.WellFormed) (he : e.WellFormed) :
    d.refinement = e.refinement := by
  rw [refinement, refinement, h.size_eq, h.initialPartition_eq, h.refine_eq hd he]

/-- **Automata that agree on where the characters lead are merged into automata that agree.** -/
theorem Agree.minimize (h : Agree d e) (hd : d.WellFormed) (he : e.WellFormed) : Agree d.minimize e.minimize := by
  obtain ⟨hp, hstable⟩ := refinement_spec hd
  obtain ⟨hp', hstable'⟩ := refinement_spec he
  obtain ⟨keys, hq, hbreadth⟩ := exists_minimize hd
  obtain ⟨keys', hq', hbreadth'⟩ := exists_minimize he
  refine hbreadth.agree (Explored.wellFormed hq) (Explored.wellFormed hq') hbreadth' (fun u => ?_) fun u v => ?_
  · rw [map_accepting_minimize hd, map_accepting_minimize he, h.run?_eq, funext h.accepting_eq]
  · rw [hq.run?_eq_iff hd hp hstable, hq'.run?_eq_iff he hp' hstable', h.refinement_eq hd he, h.run?_eq, h.run?_eq]

end Dfa

namespace Nfa

/-- **Merging joins the states that no word tells apart, and no others.**  Every state is met.  Words that lead to two
states lead to one state after merging exactly when every word leads from both states to states that agree on acceptance,
or from both nowhere.  However else the moves may be cut into intervals, the merged automata agree. -/
theorem minimize_joins_equivalent (n : Nfa) (hn : n.WellFormed) : ∃ raw, Dfa.ofNfa n = .ok raw ∧
    (∀ i, i < raw.size → ∃ u, raw.run? 0 u = some i) ∧
    (∀ u v i j, raw.run? 0 u = some i → raw.run? 0 v = some j →
      ∃ x y, raw.minimize.run? 0 u = some x ∧ raw.minimize.run? 0 v = some y ∧ (x = y ↔
        ∀ w, ((raw.run? i w).isSome ↔ (raw.run? j w).isSome) ∧ ∀ k l, raw.run? i w = some k → raw.run? j w = some l →
          (raw.state k).accepting = (raw.state l).accepting)) ∧
    ∀ cut : Dfa, cut.WellFormed → raw.Agree cut → raw.minimize.Agree cut.minimize := by
  obtain ⟨raw, keys, hraw, hsubsets⟩ := Dfa.exists_ofNfa hn
  have hd := hsubsets.wellFormed
  refine ⟨raw, hraw, hsubsets.breadthFirst.exists_run, fun u v i j hu hv => ?_, fun cut hcut h => h.minimize hd hcut⟩
  obtain ⟨x, hx⟩ := Dfa.exists_run?_minimize hd hu
  obtain ⟨y, hy⟩ := Dfa.exists_run?_minimize hd hv
  have hiff := Dfa.minimize_run?_eq_iff hd hu hv
  rw [hx, hy, Option.some.injEq] at hiff
  exact ⟨x, y, hx, hy, hiff.trans Dfa.equivalent_iff⟩

/-- After `b` one move, and after `c` two, lead to acceptance on the same characters, the one across the surrogates and
the two on either side of them. -/
def crossing : Nfa :=
  ((((((((empty.addState false).2.addState false).2.addState false).2.addState true).2.addMove
    0 (.single 'b') 1).addMove 0 (.single 'c') 2).addMove 1 ⟨'d', '\uE000', by decide⟩ 3).addMove
    2 ⟨'d', '\uD7FF', by decide⟩ 3).addMove 2 (.single '\uE000') 3

/-- After `b` and after `c` the same words are accepted, as the two states are one after merging. -/
theorem crossing_joins_equivalent : crossing.WellFormed ∧ ∃ raw, Dfa.ofNfa crossing = .ok raw ∧ raw.size = 4 ∧
    ((raw.state 1).moves.size, (raw.state 2).moves.size) = (1, 2) ∧
    raw.run? 0 ['b'] = some 1 ∧ raw.run? 0 ['c'] = some 2 ∧
    ∀ w, ((raw.run? 1 w).isSome ↔ (raw.run? 2 w).isSome) ∧ ∀ k l, raw.run? 1 w = some k → raw.run? 2 w = some l →
      (raw.state k).accepting = (raw.state l).accepting := by
  have hwf : crossing.WellFormed := by decide
  have hcompute : (Dfa.ofNfa crossing).toOption.map (fun d =>
      (d.size, ((d.state 1).moves.size, (d.state 2).moves.size), [d.run? 0 ['b'], d.run? 0 ['c']],
        d.minimize.run? 0 ['b'] == d.minimize.run? 0 ['c'])) =
      some (4, (1, 2), [some 1, some 2], true) := by decide +kernel
  obtain ⟨raw, hraw, -, hjoins, -⟩ := minimize_joins_equivalent crossing hwf
  rw [hraw] at hcompute
  simp only [Except.toOption, Option.map_some, Option.some.injEq, Prod.mk.injEq, List.cons.injEq, and_true, beq_iff_eq]
    at hcompute
  obtain ⟨hsize, hmoves, ⟨hb, hc⟩, hmerged⟩ := hcompute
  obtain ⟨x, y, hx, hy, hiff⟩ := hjoins _ _ _ _ hb hc
  rw [hx, hy, Option.some.injEq] at hmerged
  exact ⟨hwf, raw, hraw, hsize, Prod.ext hmoves.1 hmoves.2, hb, hc, hiff.1 hmerged⟩

end Nfa
end PatternAutomata
