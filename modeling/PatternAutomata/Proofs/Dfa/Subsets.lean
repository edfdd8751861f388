import Mathlib.Data.Finset.Powerset
import PatternAutomata.Proofs.Dfa.Explored
import PatternAutomata.Proofs.Nfa.Closure
/-!
# Subsets — the automaton of sets of states

The construction of `Dfa.ofNfa` never runs into its limit, since the closed sets of states are subsets of the states
(`subsetsOf_of_ofNfa`), and on a well-formed automaton it never fails either (`exists_explore_sets`).  Within a piece of
the alphabet no move tells two characters apart, so the move found for the piece's first character is the move on all of
them, and a word leads from a closed set to the set of all states that it leads to (`mem_iff_leadsTo_of_run?`).
-/
namespace PatternAutomata

open Relation (ReflTransGen)

/-- There are at most `2 ^ N` sets of numbers below `N`. -/
theorem length_le_two_pow {N : Nat} {ks : List (List Nat)} (hnodup : ks.Nodup)
    (hks : ∀ k ∈ ks, Ascending k ∧ ∀ i ∈ k, i < N) : ks.length ≤ 2 ^ N := by
  have hinj : Set.InjOn (List.toFinset (α := Nat)) (ks.toFinset : Set (List Nat)) := fun k hk l hl heq => by
    have hk := hks k (by simpa using hk)
    have hl := hks l (by simpa using hl)
    exact Ascending.ext hk.1 hl.1 fun z => by rw [← List.mem_toFinset, heq, List.mem_toFinset]
  have hmaps : ∀ k ∈ ks.toFinset, k.toFinset ∈ (Finset.range N).powerset := fun k hk => by
    refine Finset.mem_powerset.2 fun i hi => Finset.mem_range.2 ?_
    exact (hks k (by simpa using hk)).2 i (List.mem_toFinset.1 hi)
  calc ks.length = ks.toFinset.card := (List.toFinset_card_of_nodup hnodup).symm
    _ ≤ (Finset.range N).powerset.card := Finset.card_le_card_of_injOn _ hmaps hinj
    _ = 2 ^ N := by rw [Finset.card_powerset, Finset.card_range]

namespace Nfa

variable {n : Nfa} {states k : List Nat} {c : Char} {w : Word}

/-- A set of states closed under empty moves, in ascending order and not empty. -/
structure ClosedStates (n : Nfa) (k : List Nat) : Prop where
  ascending : Ascending k
  lt : ∀ i ∈ k, i < n.size
  closed : n.IsClosure k k
  ne_nil : k ≠ []

theorem IsClosure.closedStates (hne : states ≠ []) (hasc : Ascending k) (hlt : ∀ i ∈ k, i < n.size)
    (h : n.IsClosure states k) : n.ClosedStates k where
  ascending := hasc
  lt := hlt
  closed j := ⟨fun hj => ⟨j, hj, .refl⟩, fun ⟨_, hi, hreach⟩ => h.mem_of_reflTransGen hi hreach⟩
  ne_nil := by
    obtain ⟨i, is, rfl⟩ := List.exists_cons_of_ne_nil hne
    exact List.ne_nil_of_mem ((h i).2 ⟨i, List.mem_cons_self, .refl⟩)

/-- **What closing some states gives**, whatever the automaton: all that empty moves lead to, which are states. -/
theorem closedSet_eq_ok (h : n.closedSet states = .ok k) :
    Ascending k ∧ (∀ i ∈ k, i < n.size) ∧ n.IsClosure states k := by
  obtain ⟨set, hset, h⟩ := bind_eq_ok.1 h
  obtain ⟨closed, hclosed, h⟩ := bind_eq_ok.1 h
  cases h
  obtain ⟨hinv, hnone, -⟩ := close_eq_ok hclosed
  have hset : ∀ j, j ∈ set.toList ↔ j ∈ states := fun j => by
    rw [(insertAll_eq_ok hset).2, stateSet, IndexSet.toList_empty, List.mem_nil_iff, false_or]
  refine ⟨Ascending.ascending _, fun i hi => ?_, fun j => ?_⟩
  · rcases hinv.followed i (Ascending.mem_ascending.1 hi) with hi | ⟨hlt, -⟩
    · rw [hnone] at hi
      cases hi
    · exact hlt
  · rw [Ascending.mem_ascending]
    exact (hinv.mem_iff hnone).trans (exists_congr fun i => and_congr_left fun _ => hset i)

theorem exists_closedSet (hn : n.WellFormed) (hstates : ∀ i ∈ states, i < n.size) :
    ∃ k, n.closedSet states = .ok k ∧ Ascending k ∧ (∀ i ∈ k, i < n.size) ∧ n.IsClosure states k := by
  have hle : ∀ i ∈ states, i ≤ n.stateSet.bound := fun i hi => Nat.le_of_lt (hstates i hi)
  obtain ⟨set, hset, hbound, hmem⟩ := exists_insertAll hle
  have hlt : ∀ i ∈ set.toList, i < n.size := fun i hi => hstates i <| by
    rwa [hmem, stateSet, IndexSet.toList_empty, List.mem_nil_iff, false_or] at hi
  obtain ⟨closed, hclosed, -⟩ := exists_close hn (s := ⟨set, []⟩) hbound hlt
  have hk : n.closedSet states = .ok (ascending closed.found.toList) :=
    bind_eq_ok.2 ⟨set, hset, bind_eq_ok.2 ⟨closed, hclosed, rfl⟩⟩
  exact ⟨_, hk, closedSet_eq_ok hk⟩

theorem movesOn_cons_of_nil {pieces : List Interval} {piece : Interval} (h : n.targets k piece.lo = []) :
    n.movesOn k (piece :: pieces) = n.movesOn k pieces := by
  rw [movesOn, h]

theorem movesOn_cons_of_ne_nil {pieces : List Interval} {piece : Interval} (h : n.targets k piece.lo ≠ []) :
    n.movesOn k (piece :: pieces) = (n.closedSet (n.targets k piece.lo)).bind fun closed =>
      (n.movesOn k pieces).bind fun rest => .ok ((piece, closed) :: rest) := by
  obtain ⟨i, is, heq⟩ := List.exists_cons_of_ne_nil h
  rw [movesOn, heq]
  rfl

/-- What the moves on some pieces are: one for each piece that has targets, to their closure. -/
structure MovesOn (n : Nfa) (k : List Nat) (pieces : List Interval) (ms : List (Interval × List Nat)) : Prop where
  labels : (ms.map (·.1)).Sublist pieces
  target : ∀ m ∈ ms, n.targets k m.1.lo ≠ [] ∧ Ascending m.2 ∧ n.IsClosure (n.targets k m.1.lo) m.2
  covers : ∀ p ∈ pieces, n.targets k p.lo ≠ [] → ∃ m ∈ ms, m.1 = p

theorem movesOn_eq_ok {pieces : List Interval} {ms : List (Interval × List Nat)} (h : n.movesOn k pieces = .ok ms) :
    n.MovesOn k pieces ms ∧ ∀ m ∈ ms, ∀ i ∈ m.2, i < n.size := by
  induction pieces generalizing ms with
  | nil =>
    cases h
    exact ⟨⟨List.Sublist.refl _, fun m h => (nomatch h), fun p h => (nomatch h)⟩, fun m h => (nomatch h)⟩
  | cons piece pieces ih =>
    by_cases hnil : n.targets k piece.lo = []
    · rw [movesOn_cons_of_nil hnil] at h
      obtain ⟨⟨hlabels, htarget, hcovers⟩, hlt⟩ := ih h
      refine ⟨⟨hlabels.cons _, htarget, fun p hp hne => ?_⟩, hlt⟩
      rcases List.mem_cons.1 hp with rfl | hp
      · exact absurd hnil hne
      · exact hcovers p hp hne
    · rw [movesOn_cons_of_ne_nil hnil] at h
      obtain ⟨closed, hclosed, h⟩ := bind_eq_ok.1 h
      obtain ⟨rest, hrest, h⟩ := bind_eq_ok.1 h
      cases h
      obtain ⟨hasc, hclosedlt, hclosure⟩ := closedSet_eq_ok hclosed
      obtain ⟨⟨hlabels, htarget, hcovers⟩, hlt⟩ := ih hrest
      refine ⟨⟨hlabels.cons_cons _, List.forall_mem_cons.2 ⟨⟨hnil, hasc, hclosure⟩, htarget⟩, fun p hp hne => ?_⟩,
        List.forall_mem_cons.2 ⟨hclosedlt, hlt⟩⟩
      rcases List.mem_cons.1 hp with rfl | hp
      · exact ⟨_, List.mem_cons_self, rfl⟩
      · obtain ⟨m, hm, hmp⟩ := hcovers p hp hne
        exact ⟨m, List.mem_cons_of_mem _ hm, hmp⟩

theorem exists_movesOn (hn : n.WellFormed) (k : List Nat) (pieces : List Interval) :
    ∃ ms, n.movesOn k pieces = .ok ms := by
  induction pieces with
  | nil => exact ⟨[], rfl⟩
  | cons piece pieces ih =>
    obtain ⟨ms, hms⟩ := ih
    by_cases h : n.targets k piece.lo = []
    · exact ⟨ms, (movesOn_cons_of_nil h).trans hms⟩
    · obtain ⟨closed, hclosed, -⟩ := exists_closedSet hn fun i hi => lt_of_mem_targets hn hi
      rw [movesOn_cons_of_ne_nil h]
      exact ⟨_, bind_eq_ok.2 ⟨closed, hclosed, bind_eq_ok.2 ⟨ms, hms, rfl⟩⟩⟩

/-! ## The moves out of a set -/

theorem mem_labels {i : Interval} :
    i ∈ (states.flatMap fun s => (n.movesOf s).map (·.1)) ↔ ∃ s ∈ states, ∃ m ∈ n.movesOf s, m.1 = i := by
  simp only [List.mem_flatMap, List.mem_map]

theorem mem_targets_iff_movesOf {j : Nat} :
    j ∈ n.targets states c ↔ ∃ s ∈ states, ∃ m ∈ n.movesOf s, c ∈ m.1 ∧ m.2 = j := by
  simp only [targets, List.mem_flatMap, List.mem_map, List.mem_filter, Interval.contains_iff, and_assoc]

/-- **One character of a piece stands for all.** -/
theorem targets_eq_of_mem_piece {p : Interval}
    (hp : p ∈ Interval.pieces (states.flatMap fun s => (n.movesOf s).map (·.1))) (hc : c ∈ p) :
    n.targets states c = n.targets states p.lo := by
  refine List.flatMap_congr fun s hs => ?_
  congr 1
  refine List.filter_congr fun m hm => Bool.eq_iff_iff.2 ?_
  rw [Interval.contains_iff, Interval.contains_iff]
  exact Interval.mem_iff_lo_mem_of_mem_pieces hp (mem_labels.2 ⟨s, hs, m, hm, rfl⟩) hc

/-- The moves out of a set of states; none where they cannot be found. -/
def nextSets (n : Nfa) (k : List Nat) : List (Interval × List Nat) := ((n.setMoves k).toOption).getD []

theorem nextSets_of_setMoves {ms : List (Interval × List Nat)} (h : n.setMoves k = .ok ms) : n.nextSets k = ms := by
  rw [nextSets, h]
  rfl

theorem setMoves_eq (hn : n.WellFormed) (k : List Nat) : n.setMoves k = .ok (n.nextSets k) := by
  obtain ⟨ms, hms⟩ := exists_movesOn hn k (Interval.pieces (k.flatMap fun s => (n.movesOf s).map (·.1)))
  have hms : n.setMoves k = .ok ms := hms
  rw [nextSets_of_setMoves hms, hms]

theorem setMoves_of_mem_nextSets {m : Interval × List Nat} (hm : m ∈ n.nextSets k) :
    n.setMoves k = .ok (n.nextSets k) := by
  cases h : n.setMoves k with
  | error f =>
    rw [nextSets, h] at hm
    cases hm
  | ok ms => rw [nextSets_of_setMoves h]

/-- The moves out of a set are disjoint and in order. -/
theorem pairwise_nextSets (n : Nfa) (k : List Nat) : (n.nextSets k).Pairwise fun m l => m.1.stop ≤ l.1.start := by
  cases h : n.setMoves k with
  | error f =>
    rw [nextSets, h]
    exact List.Pairwise.nil
  | ok ms =>
    rw [nextSets_of_setMoves h]
    exact List.pairwise_map.1 ((Interval.pairwise_pieces _).sublist (movesOn_eq_ok h).1.labels)

/-- **Where a move out of a set leads**: to the closure of the targets on any character of its label. -/
theorem isClosure_of_mem_nextSets {m : Interval × List Nat} (hm : m ∈ n.nextSets k) (hc : c ∈ m.1) :
    n.targets k c ≠ [] ∧ Ascending m.2 ∧ n.IsClosure (n.targets k c) m.2 := by
  have hspec := (movesOn_eq_ok (setMoves_of_mem_nextSets hm)).1
  rw [targets_eq_of_mem_piece (hspec.labels.subset (List.mem_map_of_mem hm)) hc]
  exact hspec.target m hm

/-- **There is a move on every character that has targets.** -/
theorem exists_mem_nextSets (hn : n.WellFormed) (h : n.targets k c ≠ []) : ∃ m ∈ n.nextSets k, c ∈ m.1 := by
  obtain ⟨j, js, heq⟩ := List.exists_cons_of_ne_nil h
  obtain ⟨s, hs, m, hm, hc, -⟩ := mem_targets_iff_movesOf.1 (heq ▸ List.mem_cons_self : j ∈ n.targets k c)
  obtain ⟨p, hp, hcp⟩ := Interval.covers_pieces.2 ⟨m.1, mem_labels.2 ⟨s, hs, m, hm, rfl⟩, hc⟩
  have hspec := (movesOn_eq_ok (setMoves_eq hn k)).1
  obtain ⟨l, hl, rfl⟩ := hspec.covers p hp (targets_eq_of_mem_piece hp hcp ▸ h)
  exact ⟨l, hl, hcp⟩

theorem closedStates_of_mem_nextSets {m : Interval × List Nat} (hm : m ∈ n.nextSets k) : n.ClosedStates m.2 := by
  obtain ⟨hne, hasc, hclosure⟩ := isClosure_of_mem_nextSets hm m.1.lo_mem
  exact hclosure.closedStates hne hasc ((movesOn_eq_ok (setMoves_of_mem_nextSets hm)).2 m hm)

end Nfa

/-! ## The automaton -/

namespace Dfa

variable {n : Nfa} {root : List Nat} {keys : Array (List Nat)} {d : Dfa} {i j x : Nat} {k l : List Nat} {w : Word}

/-- The states of `d` are the closed sets that words lead to from the start of `n`, numbered breadth first. -/
structure SubsetsOf (n : Nfa) (keys : Array (List Nat)) (d : Dfa) : Prop where
  explored : ∃ root, n.IsClosure [n.start] root ∧
    d.Explored n.ClosedStates n.nextSets (·.any n.isAccepting) root keys
  breadthFirst : d.BreadthFirst

theorem length_le_of_closedStates {ks : List (List Nat)} (hnodup : ks.Nodup) (hks : ∀ k ∈ ks, n.ClosedStates k) :
    ks.length ≤ 2 ^ n.size :=
  length_le_two_pow hnodup fun k hk => ⟨(hks k hk).ascending, (hks k hk).lt⟩

theorem closedStates_root (hroot : n.closedSet [n.start] = .ok root) : n.ClosedStates root := by
  obtain ⟨hasc, hlt, hclosure⟩ := Nfa.closedSet_eq_ok hroot
  exact hclosure.closedStates (List.cons_ne_nil _ _) hasc hlt

/-- **The search for sets of states ends**: within the limit it visits all that it finds. -/
theorem exists_explore_sets (hn : n.WellFormed) : ∃ root e, n.closedSet [n.start] = .ok root ∧
    n.IsClosure [n.start] root ∧ Exploration.explore n.setMoves (2 ^ n.size) root = .ok e ∧
    e.Invariant n.ClosedStates n.nextSets root ∧ e.rows.size = e.found.keys.size := by
  have hstart : ∀ i ∈ [n.start], i < n.size := fun i hi => List.mem_singleton.1 hi ▸ hn.start_lt
  obtain ⟨root, hroot, -, -, hclosure⟩ := Nfa.exists_closedSet hn hstart
  obtain ⟨e, he, hinv, hfull⟩ := Exploration.exists_explore
    (fun k _ => ⟨Nfa.setMoves_eq hn k, fun m hm => Nfa.closedStates_of_mem_nextSets hm⟩)
    (fun _ => length_le_of_closedStates) (closedStates_root hroot)
  exact ⟨root, e, hroot, hclosure, he, hinv, hfull⟩

theorem subsetsOf_ofExploration {e : Exploration (List Nat) Interval}
    (hroot : n.IsClosure [n.start] root) (hinv : e.Invariant n.ClosedStates n.nextSets root)
    (hfull : e.rows.size = e.found.keys.size) :
    SubsetsOf n e.found.keys (ofExploration (·.any n.isAccepting) e) where
  explored := ⟨root, hroot, explored_ofExploration _ hinv hfull fun k _ => n.pairwise_nextSets k⟩
  breadthFirst := breadthFirst_ofExploration _ hinv hfull fun k _ => n.pairwise_nextSets k

/-- **A well-formed automaton has an automaton of its sets of states.** -/
theorem exists_ofNfa (hn : n.WellFormed) : ∃ d keys, ofNfa n = .ok d ∧ SubsetsOf n keys d := by
  obtain ⟨root, e, hroot, hclosure, he, hinv, hfull⟩ := exists_explore_sets hn
  exact ⟨_, _, bind_eq_ok.2 ⟨root, hroot, bind_eq_ok.2 ⟨e, he, rfl⟩⟩, subsetsOf_ofExploration hclosure hinv hfull⟩

/-- **What is built is the automaton of the sets of states**, also where some states lead to numbers that are none. -/
theorem subsetsOf_of_ofNfa (h : ofNfa n = .ok d) : ∃ keys, SubsetsOf n keys d := by
  obtain ⟨root, hroot, h⟩ := bind_eq_ok.1 h
  obtain ⟨e, he, h⟩ := bind_eq_ok.1 h
  cases h
  have hmoves (k : List Nat) (_ : n.ClosedStates k) (ms : List (Interval × List Nat)) (hms : n.setMoves k = .ok ms) :
      n.nextSets k = ms ∧ ∀ m ∈ ms, n.ClosedStates m.2 := by
    have hnext := Nfa.nextSets_of_setMoves hms
    exact ⟨hnext, fun m hm => Nfa.closedStates_of_mem_nextSets (hnext ▸ hm)⟩
  obtain ⟨hinv, hfull⟩ :=
    Exploration.explore_eq_ok hmoves (fun _ => length_le_of_closedStates) (closedStates_root hroot) he
  exact ⟨_, subsetsOf_ofExploration (Nfa.closedSet_eq_ok hroot).2.2 hinv hfull⟩

theorem SubsetsOf.wellFormed (h : SubsetsOf n keys d) : d.WellFormed := by
  obtain ⟨root, -, hex⟩ := h.explored
  exact hex.wellFormed

/-! ## Runs -/

/-- **A word leads from a set of states to the set of all states that it leads to.** -/
theorem mem_iff_leadsTo_of_run? (h : d.Explored n.ClosedStates n.nextSets (·.any n.isAccepting) root keys)
    (hk : keys[i]? = some k) (hrun : d.run? i w = some j) (hl : keys[j]? = some l) : x ∈ l ↔ n.LeadsTo k w x := by
  induction w generalizing i k with
  | nil =>
    cases hrun
    cases hk.symm.trans hl
    exact (h.holds _ _ hk).closed.leadsTo_nil.symm
  | cons c w ih =>
    rw [run?_cons] at hrun
    obtain ⟨y, hnext, hrun⟩ := Option.bind_eq_some_iff.1 hrun
    obtain ⟨m, hm, hc, hy⟩ := (h.next?_iff hk).1 hnext
    rw [ih hy hrun, (Nfa.isClosure_of_mem_nextSets hm hc).2.2.leadsTo_iff, (h.holds i k hk).closed.leadsTo_cons]

/-- A word that leads somewhere from a set of states leads somewhere in the automaton. -/
theorem exists_run?_of_leadsTo (hn : n.WellFormed)
    (h : d.Explored n.ClosedStates n.nextSets (·.any n.isAccepting) root keys) (hk : keys[i]? = some k)
    (hx : n.LeadsTo k w x) : ∃ j, d.run? i w = some j := by
  induction w generalizing i k with
  | nil => exact ⟨i, rfl⟩
  | cons c w ih =>
    rw [(h.holds i k hk).closed.leadsTo_cons] at hx
    obtain ⟨y, hy, -⟩ := id hx
    obtain ⟨m, hm, hc⟩ := Nfa.exists_mem_nextSets hn (List.ne_nil_of_mem hy)
    obtain ⟨j, hj, -⟩ := exists_mem_row_of_mem (h.moves_eq i k hk) hm
    rw [run?_cons, (h.next?_iff hk).2 ⟨m, hm, hc, hj⟩]
    exact ih hj ((Nfa.isClosure_of_mem_nextSets hm hc).2.2.leadsTo_iff.2 hx)

/-- **Reading a word from a set of states accepts what its runs accept.** -/
theorem acceptsFrom_iff_hasRunFrom (hn : n.WellFormed)
    (h : d.Explored n.ClosedStates n.nextSets (·.any n.isAccepting) root keys) (hk : keys[i]? = some k) (w : Word) :
    d.acceptsFrom i w = true ↔ n.HasRunFrom k w := by
  rw [acceptsFrom, Nfa.hasRunFrom_iff_leadsTo]
  cases hrun : d.run? i w with
  | none =>
    refine iff_of_false Bool.false_ne_true ?_
    rintro ⟨x, hx, -⟩
    obtain ⟨j, hj⟩ := exists_run?_of_leadsTo hn h hk hx
    rw [hrun] at hj
    cases hj
  | some j =>
    obtain ⟨l, hl⟩ := h.exists_key (h.wellFormed.run_lt (h.lt_size hk) hrun)
    simp only [Option.any_some, h.accepting_eq j l hl, List.any_eq_true, mem_iff_leadsTo_of_run? h hk hrun hl]

/-- **The automaton of the sets of states accepts what has a run.** -/
theorem SubsetsOf.accepts_iff (hn : n.WellFormed) (h : SubsetsOf n keys d) (w : Word) :
    d.accepts w = true ↔ n.HasRun w := by
  obtain ⟨root, hroot, hex⟩ := h.explored
  rw [accepts_eq, acceptsFrom_iff_hasRunFrom hn hex hex.root_eq, hroot.hasRunFrom_iff, Nfa.hasRun_iff]

end Dfa
end PatternAutomata
