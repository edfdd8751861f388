import PatternAutomata.Proofs.Dfa.ForcedRun
import PatternAutomata.Proofs.Dfa.Restriction
/-!
# RunStarts — the runs that are found

Runs start at the root and at the destinations of every fork in which a run ends; `IsRunStart` is the least set of
states with that property.  The search finds these states and no other (`WellFormed.mem_runStarts`), so the positions
listed are those of their runs, one for each that passes any state (`WellFormed.mem_offsets_iff`).

It does not matter in what order the runs are followed.  A search by turns takes up any of the pending runs and makes
the destinations of its fork pending, those that are new (`Turn`).  After any number of turns the states met are those
done and those pending, and each state done has its position in the map and its fork's destinations among the states met
(`Agenda.Holds`).  A search therefore takes no more turns than there are states, it can go on as long as a run is
pending, and then it has found the positions that are listed (`Turns.toList_found`).
-/
namespace PatternAutomata
namespace Dfa

/-- The states from which runs start: the root, and where the run from one of them ends in a fork, the fork's
destinations. -/
inductive IsRunStart (d : Dfa) : Nat → Prop where
  | root : IsRunStart d 0
  | branch {s f t : Nat} {passed : List Nat} (start : IsRunStart d s) (run : Follows d s passed f)
      (fork : Ends d passed f (.fork f)) (destination : t ∈ (d.state f).destinations) : IsRunStart d t

variable {d : Dfa} {s t : Nat} {o : Offset}

theorem mem_successors : t ∈ d.successors s ↔
    ∃ passed f, Follows d s passed f ∧ Ends d passed f (.fork f) ∧ t ∈ (d.state f).destinations := by
  rcases hrun : d.forcedRun s with ⟨last, e⟩
  obtain ⟨passed, i, h, he, -⟩ := forcedRun_eq_iff.1 hrun
  -- the run has one end, and what it is decides both sides
  have hsame {q : List Nat} {f : Nat} (hq : Follows d s q f) (hf : Ends d q f (.fork f)) : e = .fork f := by
    have := forcedRun_eq_iff.2 ⟨q, f, hq, hf, rfl⟩
    rw [hrun] at this
    exact congrArg Prod.snd this
  rw [successors, hrun]
  constructor
  · intro ht
    cases he with
    | fork hrejecting hfirst hseveral => exact ⟨passed, i, h, .fork hrejecting hfirst hseveral, ht⟩
    | accepting _ => exact absurd ht List.not_mem_nil
    | noWayOut _ _ _ => exact absurd ht List.not_mem_nil
    | again _ _ => exact absurd ht List.not_mem_nil
  · rintro ⟨q, f, hq, hf, ht⟩
    rw [hsame hq hf]
    exact ht

theorem nodup_successors (d : Dfa) (s : Nat) : (d.successors s).Nodup := by
  unfold successors
  split
  · exact State.nodup_destinations _
  · exact List.nodup_nil

theorem IsRunStart.of_mem_successors (hs : d.IsRunStart s) (ht : t ∈ d.successors s) : d.IsRunStart t := by
  obtain ⟨passed, f, hrun, hfork, ht⟩ := mem_successors.1 ht
  exact hs.branch hrun hfork ht

theorem IsRunStart.lt_size (hd : d.WellFormed) (hs : d.IsRunStart s) : s < d.size := by
  cases hs with
  | root => exact hd.size_pos
  | branch _ _ _ destination => exact hd.destination_lt destination

theorem length_le_of_isRunStart (hd : d.WellFormed) {ss : List Nat} (hnodup : ss.Nodup)
    (hss : ∀ s ∈ ss, d.IsRunStart s) : ss.length ≤ d.size :=
  length_le_of_nodup_of_lt hnodup fun s hs => (hss s hs).lt_size hd

/-- A set that has the root, and the destinations of the fork in which the run from any of its members ends, has all run
starts. -/
theorem IsRunStart.mem_of_closed {P : Nat → Prop} (hroot : P 0) (hclosed : ∀ s, P s → ∀ t ∈ d.successors s, P t)
    (hs : d.IsRunStart s) : P s := by
  induction hs with
  | root => exact hroot
  | branch _ run fork destination ih => exact hclosed _ ih _ (mem_successors.2 ⟨_, _, run, fork, destination⟩)

/-! ## The list of positions -/

/-- **The search finds the run starts**, all of them and nothing else. -/
theorem WellFormed.mem_runStarts (hd : d.WellFormed) : s ∈ d.runStarts ↔ d.IsRunStart s := by
  let next := fun s => (d.successors s).map ((), ·)
  have hnext : ∀ s, d.IsRunStart s → ∀ m ∈ next s, d.IsRunStart m.2 := fun s hs m hm => by
    obtain ⟨t, ht, rfl⟩ := List.mem_map.1 hm
    exact hs.of_mem_successors ht
  obtain ⟨hinv, hfull⟩ := Exploration.exploreAll_spec hnext (fun _ => length_le_of_isRunStart hd) .root
  rw [runStarts, Array.mem_toList_iff]
  refine ⟨hinv.holds_of_mem, fun hs => hs.mem_of_closed (Array.mem_of_getElem? hinv.root_eq) fun s hs t ht => ?_⟩
  obtain ⟨i, hi⟩ := Array.getElem?_of_mem hs
  have hlt := (Array.getElem?_eq_some_iff.1 hi).1
  obtain ⟨j, hj, -⟩ := exists_mem_row_of_mem
    (hinv.row_eq i s _ hi (Array.getElem?_eq_getElem (Nat.lt_of_lt_of_eq hlt hfull.symm))) (List.mem_map_of_mem ht)
  exact Array.mem_of_getElem? hj

/-- **The positions listed are those of the run starts' runs.** -/
theorem WellFormed.mem_offsets_iff (hd : d.WellFormed) : (s, o) ∈ d.offsets ↔
    d.IsRunStart s ∧ ∃ passed i e, Follows d s passed i ∧ Ends d passed i e ∧ d.lastOffset passed = some o := by
  rw [mem_offsets, hd.mem_runStarts]
  refine and_congr_right fun _ => ⟨?_, ?_⟩
  · rcases hrun : d.forcedRun s with ⟨last, e⟩
    rintro rfl
    obtain ⟨passed, i, h, he, hlast⟩ := forcedRun_eq_iff.1 hrun
    exact ⟨passed, i, e, h, he, hlast⟩
  · rintro ⟨passed, i, e, h, he, hlast⟩
    rw [forcedRun_eq_iff.2 ⟨passed, i, h, he, hlast⟩]

/-- **A state has a position listed exactly if a run starts there**, it rejects and it has one destination. -/
theorem WellFormed.exists_mem_offsets_iff (hd : d.WellFormed) : (∃ o, (s, o) ∈ d.offsets) ↔
    d.IsRunStart s ∧ (d.state s).accepting = false ∧ ∃ j, (d.state s).destinations = [j] := by
  simp only [mem_offsets, hd.mem_runStarts, exists_and_left, ← forcedRun_ne_none, Option.ne_none_iff_exists']

theorem pairwise_offsets (d : Dfa) : d.offsets.Pairwise fun a b => a.1 < b.1 := by
  refine List.pairwise_filterMap.2 ((Ascending.ascending d.runStarts).imp fun {s t} hst a ha b hb => ?_)
  obtain ⟨o, -, rfl⟩ := Option.map_eq_some_iff.1 ha
  obtain ⟨p, -, rfl⟩ := Option.map_eq_some_iff.1 hb
  exact Nat.compare_eq_lt.1 hst

/-! ## Runs followed in any order -/

/-- A search for run starts under way: the states met, those of them from which runs are pending, and the positions
found, by the state where the run starts. -/
structure Agenda where
  started : List Nat
  pending : List Nat
  found : Std.TreeMap Nat Offset

/-- The last position of the run from `s` put into a map, if that run passes any. -/
def record (d : Dfa) (found : Std.TreeMap Nat Offset) (s : Nat) : Std.TreeMap Nat Offset :=
  match (d.forcedRun s).1 with
  | some o => found.insert s o
  | none => found

/-- One turn of a search: any of the pending runs is followed, and the destinations of the fork in which it ends become
pending in any order, unless they have been met. -/
inductive Turn (d : Dfa) : Agenda → Agenda → Prop where
  | follow {started pending rest new : List Nat} {found : Std.TreeMap Nat Offset} {s : Nat}
      (taken : pending.Perm (s :: rest)) (nodup : new.Nodup)
      (mem_new : ∀ t, t ∈ new ↔ t ∈ d.successors s ∧ t ∉ started) :
      Turn d ⟨started, pending, found⟩ ⟨new ++ started, new ++ rest, d.record found s⟩

/-- What a search has come to after some turns. -/
inductive Turns (d : Dfa) : Nat → Agenda → Prop where
  | start : Turns d 0 ⟨[0], [0], ∅⟩
  | turn {k : Nat} {a b : Agenda} (before : Turns d k a) (turn : Turn d a b) : Turns d (k + 1) b

variable {a b : Agenda} {done : List Nat} {k : Nat}

theorem getElem?_record {found : Std.TreeMap Nat Offset} (h : (d.forcedRun s).1 = none → found[s]? = none) :
    (d.record found s)[t]? = if s = t then (d.forcedRun s).1 else found[t]? := by
  unfold record
  cases hrun : (d.forcedRun s).1 with
  | some o => simp only [Std.TreeMap.getElem?_insert, Nat.compare_eq_eq]
  | none =>
    by_cases hst : s = t
    · rw [if_pos hst, ← hst, h hrun]
    · rw [if_neg hst]

/-- What a search keeps that has followed the runs from the states `done`. -/
structure Agenda.Holds (d : Dfa) (done : List Nat) (a : Agenda) : Prop where
  started : a.started.Perm (done ++ a.pending)
  nodup : a.started.Nodup
  isRunStart : ∀ s ∈ a.started, d.IsRunStart s
  root_mem : 0 ∈ a.started
  closed : ∀ s ∈ done, ∀ t ∈ d.successors s, t ∈ a.started
  found : ∀ s o, a.found[s]? = some o ↔ s ∈ done ∧ (d.forcedRun s).1 = some o

theorem holds_start (d : Dfa) : Agenda.Holds d [] ⟨[0], [0], ∅⟩ where
  started := List.Perm.refl _
  nodup := List.nodup_singleton 0
  isRunStart s hs := List.mem_singleton.1 hs ▸ .root
  root_mem := List.mem_cons_self
  closed s hs := nomatch hs
  found s o := by simp

/-- **A turn keeps what holds**, one state more being done. -/
theorem Turn.holds (h : Turn d a b) (ha : a.Holds d done) : ∃ s, b.Holds d (s :: done) := by
  cases h with
  | @follow started pending rest new found s taken nodup mem_new =>
  have hstarted : started.Perm (s :: done ++ rest) :=
    ha.started.trans ((taken.append_left done).trans List.perm_middle)
  have hs : s ∈ started := hstarted.mem_iff.2 List.mem_cons_self
  have hdone : s ∉ done := fun hmem =>
    (List.nodup_cons.1 (hstarted.nodup_iff.1 ha.nodup)).1 (List.mem_append_left rest hmem)
  refine ⟨s, ?_, ?_, fun t ht => ?_, List.mem_append_right _ ha.root_mem, fun u hu t ht => ?_, fun t o => ?_⟩
  · exact (hstarted.append_left new).trans (by
      rw [← List.append_assoc, ← List.append_assoc]
      exact List.perm_append_comm.append_right rest)
  · exact List.nodup_append'.2 ⟨nodup, ha.nodup, fun t ht => ((mem_new t).1 ht).2⟩
  · rcases List.mem_append.1 ht with ht | ht
    · exact (ha.isRunStart s hs).of_mem_successors ((mem_new t).1 ht).1
    · exact ha.isRunStart t ht
  · rcases List.mem_cons.1 hu with rfl | hu
    · by_cases hmet : t ∈ started
      · exact List.mem_append_right _ hmet
      · exact List.mem_append_left _ ((mem_new t).2 ⟨ht, hmet⟩)
    · exact List.mem_append_right _ (ha.closed u hu t ht)
  · have hfresh : found[s]? = none := Option.eq_none_iff_forall_ne_some.2 fun o ho => hdone ((ha.found s o).1 ho).1
    dsimp only
    rw [getElem?_record fun _ => hfresh]
    by_cases hst : s = t
    · subst hst
      rw [if_pos rfl]
      exact ⟨fun ho => ⟨List.mem_cons_self, ho⟩, And.right⟩
    · rw [if_neg hst, List.mem_cons, or_iff_right (Ne.symm hst)]
      exact ha.found t o

theorem Turns.exists_holds (h : Turns d k a) : ∃ done, done.length = k ∧ a.Holds d done := by
  induction h with
  | start => exact ⟨[], rfl, holds_start d⟩
  | turn _ turn ih =>
    obtain ⟨done, hlen, ha⟩ := ih
    obtain ⟨s, hb⟩ := turn.holds ha
    exact ⟨s :: done, by rw [List.length_cons, hlen], hb⟩

/-- **A search ends**: it follows no more runs than there are states. -/
theorem Turns.le_size (hd : d.WellFormed) (h : Turns d k a) : k + a.pending.length ≤ d.size := by
  obtain ⟨done, rfl, ha⟩ := h.exists_holds
  rw [← List.length_append, ← ha.started.length_eq]
  exact length_le_of_isRunStart hd ha.nodup ha.isRunStart

theorem exists_turn (d : Dfa) (h : a.pending ≠ []) : ∃ b, Turn d a b := by
  obtain ⟨s, rest, hpending⟩ := List.exists_cons_of_ne_nil h
  have htaken : a.pending.Perm (s :: rest) := List.Perm.of_eq hpending
  refine ⟨_, .follow htaken ((nodup_successors d s).filter (· ∉ a.started)) fun t => ?_⟩
  rw [List.mem_filter, decide_eq_true_eq]

/-- **In whatever order the runs are followed**, the positions found are those listed. -/
theorem Turns.toList_found (hd : d.WellFormed) (h : Turns d k a) (hpending : a.pending = []) :
    a.found.toList = d.offsets := by
  obtain ⟨done, -, ha⟩ := h.exists_holds
  have hdone (s : Nat) : s ∈ done ↔ d.IsRunStart s := by
    have hmem : s ∈ done ↔ s ∈ a.started := by rw [ha.started.mem_iff, hpending, List.append_nil]
    refine ⟨fun hs => ha.isRunStart s (hmem.1 hs), fun hs => hmem.2 ?_⟩
    refine hs.mem_of_closed ha.root_mem fun s hs t ht => ha.closed s ?_ t ht
    rwa [ha.started.mem_iff, hpending, List.append_nil] at hs
  refine eq_of_pairwise_lt Prod.fst (Std.TreeMap.ordered_keys_toList.imp Nat.compare_eq_lt.1) d.pairwise_offsets
    fun (s, o) => ?_
  rw [Std.TreeMap.mem_toList_iff_getElem?_eq_some, ha.found, hdone, mem_offsets, hd.mem_runStarts]

end Dfa
end PatternAutomata
