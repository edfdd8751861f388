import PatternAutomata.IndexSet
import PatternAutomata.Proofs.Dfa.Explored
import PatternAutomata.Proofs.Dfa.Refinement
/-!
# Quotient — the automaton of the classes

The moves of a class are those of its leader, and under a stable partition every member has them too.  So reading a word
from a class passes the classes of the states that reading it from a member passes (`run?_quotient`), whichever member
that is.
-/
namespace PatternAutomata
namespace Dfa

variable {d : Dfa} {p : Partition} {keys : Array Nat} {i j x y : Nat} {w : Word}

/-- The states of `q` are the classes of `p` that can be reached from the root's, numbered as in `keys`. -/
def ClassesOf (d : Dfa) (p : Partition) (keys : Array Nat) (q : Dfa) : Prop :=
  q.Explored (· < p.count) (d.classMoves p) (fun c => (d.state (p.leader c)).accepting) (p.classOf 0) keys

/-- **The quotient has the classes for states and is numbered breadth first.** -/
theorem exists_quotient (hd : d.WellFormed) (hp : d.Classes p) :
    ∃ keys, d.ClassesOf p keys (d.quotient p) ∧ (d.quotient p).BreadthFirst := by
  have hclass {i : Nat} (hi : i < d.size) : p.classOf i < p.count := hp.proper.classOf_lt i (hp.size_eq ▸ hi)
  have hnext : ∀ c, c < p.count → ∀ m ∈ d.classMoves p c, m.2 < p.count := fun c _ m hm => by
    obtain ⟨l, hl, rfl⟩ := List.mem_map.1 hm
    exact hclass (hd.target_lt _ l (Array.mem_toList_iff.1 hl))
  obtain ⟨hinv, hfull⟩ := Exploration.exploreAll_spec (P := (· < p.count)) hnext
    (fun ks hnodup hks => length_le_of_nodup_of_lt hnodup hks) (hclass hd.size_pos)
  have hordered : ∀ c, c < p.count → (d.classMoves p c).Pairwise fun m l => m.1.stop ≤ l.1.start :=
    fun c _ => List.pairwise_map.2 (hd.ordered (p.leader c))
  exact ⟨_, explored_ofExploration _ hinv hfull hordered, breadthFirst_ofExploration _ hinv hfull hordered⟩

/-- Each state of the quotient is the class of a state, the leader of its class. -/
theorem ClassesOf.exists_member {q : Dfa} (hq : d.ClassesOf p keys q) (hp : d.Classes p) (hx : x < q.size) :
    ∃ i, i < d.size ∧ keys[x]? = some (p.classOf i) := by
  obtain ⟨c, hc⟩ := Explored.exists_key hq hx
  have hlt := Explored.holds hq x c hc
  exact ⟨_, hp.size_eq ▸ hp.proper.leader_lt c hlt, by rw [hp.proper.classOf_leader c hlt, hc]⟩

/-- States of the quotient are one if their members are in one class. -/
theorem ClassesOf.eq_iff {q : Dfa} (hq : d.ClassesOf p keys q) (hx : keys[x]? = some (p.classOf i))
    (hy : keys[y]? = some (p.classOf j)) : x = y ↔ p.classOf i = p.classOf j := by
  constructor
  · rintro rfl
    exact Option.some.inj (hx.symm.trans hy)
  · intro h
    exact Explored.injective hq x y _ hx (h ▸ hy)

/-- The members of a class go where its leader goes. -/
theorem ClassesOf.next?_eq {q : Dfa} (hq : d.ClassesOf p keys q) (hd : d.WellFormed) (hp : d.Classes p)
    (hstable : d.Stable p) (hi : i < d.size) (hx : keys[x]? = some (p.classOf i)) (c : Char) :
    ((q.state x).next? c).bind (keys[·]?) = ((d.state i).next? c).map p.classOf := by
  obtain ⟨hlt, heq⟩ := hp.proper.leader_classOf (hp.size_eq ▸ hi)
  rw [← hstable _ i (hp.size_eq ▸ hlt) hi heq c]
  refine Option.ext fun t => ?_
  rw [Explored.next?_bind_iff hq hx]
  simp only [classMoves, List.mem_map, Option.map_eq_some_iff, State.next?_eq_some (hd.ordered _)]
  constructor
  · rintro ⟨_, ⟨m, hm, rfl⟩, hc, ht⟩
    exact ⟨m.2, ⟨m, Array.mem_toList_iff.1 hm, hc, rfl⟩, ht⟩
  · rintro ⟨_, ⟨m, hm, hc, rfl⟩, ht⟩
    exact ⟨_, ⟨m, Array.mem_toList_iff.2 hm, rfl⟩, hc, ht⟩

/-- **A word passes the classes of the states it passes.** -/
theorem ClassesOf.run?_eq {q : Dfa} (hq : d.ClassesOf p keys q) (hd : d.WellFormed) (hp : d.Classes p)
    (hstable : d.Stable p) (hi : i < d.size) (hx : keys[x]? = some (p.classOf i)) (w : Word) :
    (q.run? x w).bind (keys[·]?) = (d.run? i w).map p.classOf := by
  induction w generalizing i x with
  | nil => exact hx
  | cons c w ih =>
    have hnext := hq.next?_eq hd hp hstable hi hx c
    rw [run?_cons, run?_cons]
    cases hj : (d.state i).next? c with
    | none =>
      rw [hj] at hnext
      cases hy : (q.state x).next? c with
      | none => rfl
      | some y =>
        -- every state of the quotient has a class
        have hwf : q.WellFormed := Explored.wellFormed hq
        obtain ⟨k, hk⟩ := Explored.exists_key hq (hwf.next_lt hy)
        rw [hy, Option.bind_some, hk] at hnext
        cases hnext
    | some j =>
      rw [hj] at hnext
      obtain ⟨y, hy, hyj⟩ := Option.bind_eq_some_iff.1 hnext
      rw [hy]
      exact ih (hd.next_lt hj) hyj

theorem ClassesOf.map_accepting {q : Dfa} (hq : d.ClassesOf p keys q) (hd : d.WellFormed) (hp : d.Classes p)
    (hstable : d.Stable p) (hi : i < d.size) (hx : keys[x]? = some (p.classOf i)) (w : Word) :
    (q.run? x w).map (fun y => (q.state y).accepting) = (d.run? i w).map fun j => (d.state j).accepting := by
  have hrun := hq.run?_eq hd hp hstable hi hx w
  cases hy : q.run? x w with
  | none =>
    rw [hy] at hrun
    rw [Option.map_eq_none_iff.1 hrun.symm]
    rfl
  | some y =>
    have hwf : q.WellFormed := Explored.wellFormed hq
    have hylt := hwf.run_lt (Explored.lt_size hq hx) hy
    obtain ⟨c, hc⟩ := Explored.exists_key hq hylt
    rw [hy, Option.bind_some, hc] at hrun
    obtain ⟨j, hj, rfl⟩ := Option.map_eq_some_iff.1 hrun.symm
    have hjlt := hd.run_lt hi hj
    obtain ⟨hlt, heq⟩ := hp.proper.leader_classOf (hp.size_eq ▸ hjlt)
    rw [hj, Option.map_some, Option.map_some, Explored.accepting_eq hq y _ hc,
      hp.accepting_eq _ j (hp.size_eq ▸ hlt) hjlt heq]

/-- **A class accepts the words that its members accept.** -/
theorem ClassesOf.acceptsFrom_eq {q : Dfa} (hq : d.ClassesOf p keys q) (hd : d.WellFormed) (hp : d.Classes p)
    (hstable : d.Stable p) (hi : i < d.size) (hx : keys[x]? = some (p.classOf i)) (w : Word) :
    q.acceptsFrom x w = d.acceptsFrom i w := by
  rw [acceptsFrom_eq_getD, acceptsFrom_eq_getD, hq.map_accepting hd hp hstable hi hx w]

/-! ## Merging states that behave alike -/

theorem exists_minimize (hd : d.WellFormed) :
    ∃ keys, d.ClassesOf d.refinement.partition keys d.minimize ∧ d.minimize.BreadthFirst :=
  exists_quotient hd (refinement_spec hd).1

theorem WellFormed.minimize (hd : d.WellFormed) : d.minimize.WellFormed := by
  obtain ⟨keys, hq, -⟩ := exists_minimize hd
  exact Explored.wellFormed hq

/-- **Merging states changes nothing about the accepted words.** -/
theorem accepts_minimize_eq (hd : d.WellFormed) (w : Word) : d.minimize.accepts w = d.accepts w := by
  obtain ⟨hp, hstable⟩ := refinement_spec hd
  obtain ⟨keys, hq, -⟩ := exists_minimize hd
  rw [accepts_eq, accepts_eq, hq.acceptsFrom_eq hd hp hstable hd.size_pos (Explored.root_eq hq)]

/-- **No two states that merging leaves are equivalent.** -/
theorem eq_of_equivalent_minimize (hd : d.WellFormed) (hx : x < d.minimize.size) (hy : y < d.minimize.size)
    (h : d.minimize.Equivalent x y) : x = y := by
  obtain ⟨hp, hstable⟩ := refinement_spec hd
  obtain ⟨keys, hq, -⟩ := exists_minimize hd
  obtain ⟨i, hi, hxi⟩ := hq.exists_member hp hx
  obtain ⟨j, hj, hyj⟩ := hq.exists_member hp hy
  have hij : d.Equivalent i j := fun w => by
    rw [← hq.map_accepting hd hp hstable hi hxi, ← hq.map_accepting hd hp hstable hj hyj, h w]
  exact (hq.eq_iff hxi hyj).2 ((classOf_refinement hd hi hj).2 hij)

end Dfa
end PatternAutomata
