import PatternAutomata.Proofs.Dfa.Merged
/-!
# Idempotent — merging a second time

Merging leaves no two equivalent states, so a second time every class has one member and is led by it.  The automaton of
such classes has the states of the one before, and as that is numbered breadth first they keep their numbers; the moves
of a class are its leader's, so they are cut into the same intervals.  Hence merging leaves an automaton as it is
exactly when there is nothing to merge (`minimize_eq_self_iff`), and merging twice is merging once.
-/
namespace PatternAutomata
namespace Dfa

variable {d e q : Dfa} {p : Partition} {keys : Array Nat} {i : Nat}

/-- No class has two of the states for members. -/
def Separates (p : Partition) (d : Dfa) : Prop := ∀ i j, i < d.size → j < d.size → p.classOf i = p.classOf j → i = j

theorem ext_state (hsize : d.size = e.size) (h : ∀ i, i < d.size → d.state i = e.state i) : d = e := by
  obtain ⟨ss⟩ := d
  obtain ⟨ts⟩ := e
  refine congrArg Dfa.mk (Array.ext hsize fun i hi hi' => ?_)
  have := h i hi
  rwa [state, state, Array.getD_eq_getD_getElem?, Array.getD_eq_getD_getElem?, Array.getElem?_eq_getElem hi,
    Array.getElem?_eq_getElem hi'] at this

/-- There are no more classes than states. -/
theorem ClassesOf.size_le (hq : d.ClassesOf p keys q) (hp : d.Classes p) : q.size ≤ d.size := by
  have hlt : ∀ c ∈ keys.toList, c < p.count := fun c hc => by
    obtain ⟨x, hx⟩ := Array.getElem?_of_mem (Array.mem_toList_iff.1 hc)
    exact Explored.holds hq x c hx
  have hlen := length_le_of_nodup_of_lt (nodup_toList_of_getElem? (Explored.injective hq)) hlt
  rw [Array.length_toList] at hlen
  calc q.size = keys.size := Explored.size_eq hq
    _ ≤ p.count := hlen
    _ ≤ p.classes.size := hp.proper.count_le
    _ = d.size := hp.size_eq

/-- A class with one member is led by it. -/
theorem Classes.leader_classOf (hp : d.Classes p) (h : Separates p d) (hi : i < d.size) : p.leader (p.classOf i) = i := by
  obtain ⟨hlt, heq⟩ := hp.proper.leader_classOf (hp.size_eq ▸ hi)
  exact h _ _ (hp.size_eq ▸ hlt) hi heq

/-- The states that moves lead to can be read off their classes. -/
theorem Classes.map_leader (hp : d.Classes p) (h : Separates p d) {moves : List (Interval × Nat)}
    (hmoves : ∀ m ∈ moves, m.2 < d.size) :
    (moves.map fun m => (m.1, some (p.classOf m.2))).map (fun m => (m.1, p.leader (m.2.getD 0))) = moves := by
  rw [List.map_map]
  refine (List.map_congr_left fun m hm => ?_).trans (List.map_id moves)
  exact congrArg (Prod.mk m.1) (hp.leader_classOf h (hmoves m hm))

/-! ## Classes of one member -/

theorem ClassesOf.agree (hq : d.ClassesOf p keys q) (hd : d.WellFormed) (hdb : d.BreadthFirst) (hqb : q.BreadthFirst)
    (hp : d.Classes p) (hstable : d.Stable p) (h : Separates p d) : Agree q d := by
  refine hqb.agree (Explored.wellFormed hq) hd hdb
    (hq.map_accepting hd hp hstable hd.size_pos (Explored.root_eq hq)) fun u v => ?_
  rw [hq.run?_eq_iff hd hp hstable]
  refine ⟨fun heq => ?_, fun heq => heq ▸ rfl⟩
  cases hu : d.run? 0 u with
  | none =>
    rw [hu] at heq
    exact (Option.map_eq_none_iff.1 heq.symm).symm
  | some i =>
    rw [hu] at heq
    obtain ⟨j, hj, hji⟩ := Option.map_eq_some_iff.1 heq.symm
    rw [hj, h i j (hd.run_lt hd.size_pos hu) (hd.run_lt hd.size_pos hj) hji.symm]

/-- The states keep their numbers. -/
theorem ClassesOf.key_eq (hq : d.ClassesOf p keys q) (hd : d.WellFormed) (hdb : d.BreadthFirst) (hp : d.Classes p)
    (hstable : d.Stable p) (hagree : Agree q d) (hi : i < d.size) : keys[i]? = some (p.classOf i) := by
  obtain ⟨u, hu⟩ := hdb.exists_run i hi
  have hrun := hq.run?_eq hd hp hstable hd.size_pos (Explored.root_eq hq) u
  rwa [hagree.run?_eq, hu] at hrun

/-- **Where every class has one member, the automaton of the classes is the automaton itself.** -/
theorem quotient_eq_self (hd : d.WellFormed) (hdb : d.BreadthFirst) (hp : d.Classes p) (hstable : d.Stable p)
    (h : Separates p d) : d.quotient p = d := by
  obtain ⟨keys, hq, hqb⟩ := exists_quotient hd hp
  have hwf : (d.quotient p).WellFormed := Explored.wellFormed hq
  have hagree := hq.agree hd hdb hqb hp hstable h
  refine ext_state hagree.size_eq fun i hi => ?_
  have hi' : i < d.size := hagree.size_eq ▸ hi
  have hkey {j : Nat} (hj : j < d.size) : keys[j]? = some (p.classOf j) := hq.key_eq hd hdb hp hstable hagree hj
  have htarget : ∀ m ∈ ((d.quotient p).state i).moves.toList, m.2 < d.size := fun m hm =>
    hagree.size_eq ▸ hwf.target_lt i m (Array.mem_toList_iff.1 hm)
  have hclasses : (((d.quotient p).state i).moves.toList.map fun m => (m.1, some (p.classOf m.2))) =
      (d.state i).moves.toList.map fun m => (m.1, some (p.classOf m.2)) := by
    have hmoves := Explored.moves_eq hq i _ (hkey hi')
    rw [classMoves, hp.leader_classOf h hi', List.map_map] at hmoves
    rw [← List.map_congr_left fun m hm => congrArg (Prod.mk m.1) (hkey (htarget m hm))]
    exact hmoves
  have hmoves : ((d.quotient p).state i).moves = (d.state i).moves := by
    refine Array.toList_inj.1 ?_
    rw [← hp.map_leader h htarget, hclasses,
      hp.map_leader h fun m hm => hd.target_lt i m (Array.mem_toList_iff.1 hm)]
  calc (d.quotient p).state i = ⟨((d.quotient p).state i).accepting, ((d.quotient p).state i).moves⟩ := rfl
    _ = ⟨(d.state i).accepting, (d.state i).moves⟩ := by rw [hagree.accepting_eq, hmoves]
    _ = d.state i := rfl

/-- **Merging leaves an automaton as it is** exactly when no two of its states are equivalent. -/
theorem minimize_eq_self_iff (hd : d.WellFormed) (hdb : d.BreadthFirst) :
    d.minimize = d ↔ ∀ i j, i < d.size → j < d.size → d.Equivalent i j → i = j := by
  constructor
  · intro h i j hi hj heq
    rw [← h] at hi hj heq
    exact eq_of_equivalent_minimize hd hi hj heq
  · intro h
    obtain ⟨hp, hstable⟩ := refinement_spec hd
    exact quotient_eq_self hd hdb hp hstable fun i j hi hj heq => h i j hi hj ((classOf_refinement hd hi hj).1 heq)

theorem minimize_minimize (hd : d.WellFormed) : d.minimize.minimize = d.minimize := by
  obtain ⟨keys, hq, hqb⟩ := exists_minimize hd
  exact (minimize_eq_self_iff (Explored.wellFormed hq) hqb).2 fun _ _ hi hj => eq_of_equivalent_minimize hd hi hj

theorem size_minimize_le (hd : d.WellFormed) : d.minimize.size ≤ d.size := by
  obtain ⟨keys, hq, -⟩ := exists_minimize hd
  exact hq.size_le (refinement_spec hd).1

end Dfa

namespace Nfa

/-- **Merging twice is merging once**, to the last number and interval, whether or not all states lead to acceptance.
There are never more states after merging than before, and nothing changes exactly when no two states are equivalent. -/
theorem minimize_idempotent (n : Nfa) (hn : n.WellFormed) : ∃ raw, Dfa.ofNfa n = .ok raw ∧
    raw.minimize.minimize = raw.minimize ∧ raw.minimize.size ≤ raw.size ∧
    (raw.minimize = raw ↔ ∀ i j, i < raw.size → j < raw.size → raw.Equivalent i j → i = j) := by
  obtain ⟨raw, keys, hraw, hsubsets⟩ := Dfa.exists_ofNfa hn
  have hd := hsubsets.wellFormed
  exact ⟨raw, hraw, Dfa.minimize_minimize hd, Dfa.size_minimize_le hd,
    Dfa.minimize_eq_self_iff hd hsubsets.breadthFirst⟩

/-- From the start, `z` leads to acceptance, and the characters up to `n` to two dead ends. -/
def deadEnds : Nfa :=
  (((((((empty.addState false).2.addState false).2.addState false).2.addState true).2.addMove
    0 ⟨'a', 'm', by decide⟩ 1).addMove 0 (.single 'n') 2).addMove 0 (.single 'z') 3)

/-- The dead ends become one state; the two moves to it stay two. -/
theorem deadEnds_idempotent : deadEnds.WellFormed ∧ ∃ raw, Dfa.ofNfa deadEnds = .ok raw ∧ raw.size = 4 ∧
    raw.minimize.size = 3 ∧ (raw.minimize.state 0).moves.size = 3 ∧ raw.minimize.minimize = raw.minimize ∧
    ¬ ∀ i j, i < raw.size → j < raw.size → raw.Equivalent i j → i = j := by
  have hwf : deadEnds.WellFormed := by decide
  have hcompute : (Dfa.ofNfa deadEnds).toOption.map (fun d =>
      (d.size, d.minimize.size, (d.minimize.state 0).moves.size)) = some (4, 3, 3) := by decide +kernel
  obtain ⟨raw, hraw, htwice, -, hiff⟩ := minimize_idempotent deadEnds hwf
  rw [hraw] at hcompute
  simp only [Except.toOption, Option.map_some, Option.some.injEq, Prod.mk.injEq] at hcompute
  obtain ⟨hsize, hmin, hmoves⟩ := hcompute
  refine ⟨hwf, raw, hraw, hsize, hmin, hmoves, htwice, fun h => ?_⟩
  rw [hiff.2 h, hsize] at hmin
  exact absurd hmin (by decide)

end Nfa
end PatternAutomata
