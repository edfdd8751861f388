import PatternAutomata.Nfa.Matching
import PatternAutomata.Proofs.Nfa.Closure
/-!
# Matching — the two sets hold what the characters read so far lead to

On a well-formed automaton matching never fails, and it decides whether there is a run (`exists_accepts`).  The set in
front is always the closure of the targets of the one before; what the other set held before it was cleared is of no
account, and stopping at an empty set settles the answer early without changing it.
-/
namespace PatternAutomata
namespace Nfa

variable {n : Nfa}

theorem exists_state {i : Nat} (hi : i < n.size) : ∃ s, n.states[i]? = some s ∧ n.state i = .ok s :=
  ⟨_, Array.getElem?_eq_getElem hi, state_eq_ok.2 (Array.getElem?_eq_getElem hi)⟩

theorem stepFrom_cons (n : Nfa) (c : Char) (i : Nat) (is : List Nat) (next : IndexSet) :
    n.stepFrom c (i :: is) next =
      (n.state i).bind fun state => (insertAll next (state.targets c)).bind (n.stepFrom c is) := rfl

/-- A step from states of a well-formed automaton adds the targets of their moves. -/
theorem exists_stepFrom (hn : n.WellFormed) (c : Char) {is : List Nat} (next : IndexSet) (his : ∀ i ∈ is, i < n.size)
    (hnext : next.bound = n.size) : ∃ t, n.stepFrom c is next = .ok t ∧ t.bound = n.size ∧
      ∀ j, j ∈ t.toList ↔ j ∈ next.toList ∨ j ∈ n.targets is c := by
  induction is generalizing next with
  | nil => exact ⟨next, rfl, hnext, by simp [targets]⟩
  | cons i is ih =>
    obtain ⟨s, hs, hstate⟩ := exists_state (his i List.mem_cons_self)
    have hone : ∀ j, j ∈ n.targets [i] c ↔ j ∈ s.targets c := fun j => by
      rw [mem_targets]
      constructor
      · rintro ⟨k, hk, t, ht, hj⟩
        cases List.mem_singleton.1 hk
        cases hs.symm.trans ht
        exact hj
      · exact fun hj => ⟨i, List.mem_cons_self, s, hs, hj⟩
    have hle : ∀ j ∈ s.targets c, j ≤ next.bound := fun j hj => by
      rw [hnext]
      exact Nat.le_of_lt (lt_of_mem_targets hn ((hone j).2 hj))
    obtain ⟨u, hu, hbound, hmem⟩ := exists_insertAll hle
    obtain ⟨t, ht, hb, hmem'⟩ := ih u (fun j hj => his j (List.mem_cons_of_mem _ hj)) (hbound.trans hnext)
    refine ⟨t, ?_, hb, fun j => ?_⟩
    · rw [stepFrom_cons, hstate]
      change (insertAll next (s.targets c)).bind (n.stepFrom c is) = .ok t
      rw [hu]
      exact ht
    · have hsplit : n.targets (i :: is) c = n.targets [i] c ++ n.targets is c := by simp [targets]
      rw [hmem', hmem, hsplit, List.mem_append, hone, or_assoc]

theorem anyAccepting_eq {is : List Nat} (his : ∀ i ∈ is, i < n.size) :
    n.anyAccepting is = .ok (is.any n.isAccepting) := by
  induction is with
  | nil => rfl
  | cons i is ih =>
    obtain ⟨s, hs, hstate⟩ := exists_state (his i List.mem_cons_self)
    have ih := ih fun j hj => his j (List.mem_cons_of_mem _ hj)
    have hacc : n.isAccepting i = s.accepting := by rw [isAccepting, hs]
    have hcons : n.anyAccepting (i :: is) = if s.accepting then .ok true else n.anyAccepting is := by
      change (n.state i).bind _ = _
      rw [hstate]
      rfl
    rw [hcons, List.any_cons, hacc, ih]
    cases s.accepting <;> rfl

/-- **Reading one character.** -/
theorem exists_advance (hn : n.WellFormed) {sets : IndexSets} (c : Char) (hfirst : ∀ i ∈ sets.first.toList, i < n.size)
    (hbounds : sets.first.bound = n.size ∧ sets.second.bound = n.size) :
    ∃ t, n.advance sets c = .ok t ∧ (t.first.bound = n.size ∧ t.second.bound = n.size) ∧
      n.IsClosure (n.targets sets.first.toList c) t.first.toList := by
  obtain ⟨next, hnext, hb, hmem⟩ := exists_stepFrom hn c sets.second.clear hfirst hbounds.2
  have hmem : ∀ j, j ∈ next.toList ↔ j ∈ n.targets sets.first.toList c := fun j => by
    rw [hmem, IndexSet.toList_clear, List.mem_nil_iff, false_or]
  obtain ⟨closed, hclosed, -, hb', hclosure⟩ := exists_close hn (s := ⟨next, []⟩) hb
    fun i hi => lt_of_mem_targets hn ((hmem i).1 hi)
  refine ⟨⟨closed.found, sets.first⟩, ?_, ⟨hb', hbounds.1⟩, fun j => (hclosure j).trans ?_⟩
  · change (n.stepFrom c sets.first.toList sets.second.clear).bind _ = _
    rw [hnext]
    change (n.close ⟨next, []⟩).bind _ = _
    rw [hclosed]
    rfl
  · exact exists_congr fun i => and_congr_left fun _ => hmem i

theorem run_cons (n : Nfa) (sets : IndexSets) (c : Char) (w : Word) :
    n.run sets (c :: w) =
      (n.advance sets c).bind fun sets => if sets.first.isEmpty then .ok false else n.run sets w := rfl

/-- **Reading the rest of a word** from a closed set of states decides whether they have a run on it. -/
theorem exists_run (hn : n.WellFormed) (sets : IndexSets) {states : List Nat} (w : Word)
    (hbounds : sets.first.bound = n.size ∧ sets.second.bound = n.size) (hstates : ∀ i ∈ states, i < n.size)
    (hclosed : n.IsClosure states sets.first.toList) :
    ∃ b, n.run sets w = .ok b ∧ (b = true ↔ n.HasRunFrom sets.first.toList w) := by
  have hlt : ∀ i ∈ sets.first.toList, i < n.size := fun i hi => hclosed.lt hn hstates hi
  induction w generalizing sets states with
  | nil => exact ⟨_, anyAccepting_eq hlt, hclosed.hasRunFrom_nil.symm⟩
  | cons c w ih =>
    obtain ⟨t, ht, hb, hclosure⟩ := exists_advance hn c hlt hbounds
    have htargets : ∀ i ∈ n.targets sets.first.toList c, i < n.size := fun i hi => lt_of_mem_targets hn hi
    rw [run_cons, ht, hclosed.hasRunFrom_cons, ← hclosure.hasRunFrom_iff]
    change ∃ b, (if t.first.isEmpty then .ok false else n.run t w) = .ok b ∧ _
    split
    · rename_i hempty
      have : t.first.toList = [] :=
        List.eq_nil_of_length_eq_zero (by rw [IndexSet.length_toList]; simpa [IndexSet.isEmpty] using hempty)
      rw [this]
      exact ⟨false, rfl, iff_of_false Bool.false_ne_true not_hasRunFrom_nil⟩
    · exact ih t hb htargets hclosure fun i hi => hclosure.lt hn htargets hi

/-- **The first set** holds all that empty moves lead to from the start. -/
theorem exists_start (hn : n.WellFormed) : ∃ r closed, n.stateSet.insert n.start = .ok r ∧
    n.close ⟨r.2, []⟩ = .ok closed ∧ closed.found.bound = n.size ∧ n.IsClosure [n.start] closed.found.toList := by
  cases hins : n.stateSet.insert n.start with
  | error f =>
    have : n.size < n.start := (IndexSet.insert_eq_error.1 hins).1
    exact absurd hn.start_lt (Nat.lt_asymm this)
  | ok r =>
    obtain ⟨hbound, -, hlist⟩ := IndexSet.insert_eq_ok hins
    have hlist : r.2.toList = [n.start] := by rw [hlist]; rfl
    have hstart : ∀ i ∈ r.2.toList, i < n.size := fun i hi => by
      rw [hlist, List.mem_singleton] at hi
      exact hi ▸ hn.start_lt
    obtain ⟨closed, hclosed, -, hb, hclosure⟩ := exists_close hn (s := ⟨r.2, []⟩) hbound hstart
    exact ⟨r, closed, rfl, hclosed, hb, hlist ▸ hclosure⟩

/-- **Matching decides whether there is a run.** -/
theorem exists_accepts (hn : n.WellFormed) (w : Word) : ∃ b, n.accepts w = .ok b ∧ (b = true ↔ n.HasRun w) := by
  have hpos : n.size ≠ 0 := Nat.ne_of_gt (Nat.lt_of_le_of_lt (Nat.zero_le _) hn.start_lt)
  have hstart : ∀ i ∈ [n.start], i < n.size := fun i hi => List.mem_singleton.1 hi ▸ hn.start_lt
  obtain ⟨r, closed, hins, hclosed, hb, hclosure⟩ := exists_start hn
  obtain ⟨b, hrun, hiff⟩ := exists_run hn ⟨closed.found, .empty n.size⟩ w ⟨hb, rfl⟩ hstart hclosure
  refine ⟨b, ?_, hiff.trans (hclosure.hasRunFrom_iff.trans hasRun_iff.symm)⟩
  rw [accepts, if_neg hpos]
  exact bind_eq_ok.2 ⟨r, hins, bind_eq_ok.2 ⟨closed, hclosed, hrun⟩⟩

end Nfa
end PatternAutomata
