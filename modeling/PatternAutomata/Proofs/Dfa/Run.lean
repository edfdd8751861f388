import PatternAutomata.Dfa
/-!
# Run — what a deterministic automaton does with a word

In a well-formed automaton the moves of each state are disjoint and in order, so the binary search finds the one move on
a character, if there is one (`State.next?_eq_some`).  `d.acceptsFrom i w` says whether reading `w` from state `i` ends
in an accepting state, a missing move counting as rejection.
-/
namespace PatternAutomata
namespace Dfa

def State.Ordered (s : State) : Prop := s.moves.toList.Pairwise fun m l => m.1.stop ≤ l.1.start

/-- There is a root, the moves of each state are disjoint and in order, and all targets are states. -/
structure WellFormed (d : Dfa) : Prop where
  size_pos : 0 < d.size
  ordered : ∀ i, (d.state i).Ordered
  target_lt : ∀ i, ∀ m ∈ (d.state i).moves, m.2 < d.size

namespace State

variable {s : State} {c : Char} {t : Nat}

theorem endsBefore_iff {i : Nat} (h : i < s.moves.size) : s.endsBefore c i = true ↔ s.moves[i].1.stop ≤ c.ordinal := by
  rw [endsBefore, Array.getElem?_eq_getElem h]
  simp only [decide_eq_true_eq]
  rw [Char.lt_iff_ordinal_lt, Fin.lt_def]
  exact Iff.rfl

theorem Ordered.stop_le_start (hs : s.Ordered) {i j : Nat} (hij : i < j) (hj : j < s.moves.size) :
    s.moves[i].1.stop ≤ s.moves[j].1.start := by
  have := List.pairwise_iff_getElem.1 hs i j (by simpa using Nat.lt_trans hij hj) (by simpa using hj) hij
  simpa using this

/-- A move that ends before a character is found before all that do not. -/
theorem Ordered.endsBefore_of_lt (hs : s.Ordered) {i j : Nat} (hij : i < j) (hj : j < s.moves.size)
    (h : s.endsBefore c j = true) : s.endsBefore c i = true := by
  rw [endsBefore_iff hj] at h
  rw [endsBefore_iff (Nat.lt_trans hij hj)]
  have := hs.stop_le_start hij hj
  have := s.moves[j].1.start_lt_stop
  omega

/-- **The move on a character is found exactly if there is one.** -/
theorem next?_eq_some (hs : s.Ordered) : s.next? c = some t ↔ ∃ m ∈ s.moves, c ∈ m.1 ∧ m.2 = t := by
  have hpoint {i : Nat} (hi : i < s.moves.size) :
      i < partitionPoint (s.endsBefore c) 0 s.moves.size ↔ s.endsBefore c i = true :=
    lt_partitionPoint_iff (fun j k _ hjk hk h => hs.endsBefore_of_lt hjk hk h) (Nat.zero_le i) hi
  unfold next?
  generalize partitionPoint (s.endsBefore c) 0 s.moves.size = q at hpoint
  constructor
  · intro h
    split at h
    · rename_i m hm
      split at h
      · rename_i hc
        exact ⟨m, Array.mem_of_getElem? hm, Interval.contains_iff.1 hc, Option.some.inj h⟩
      · cases h
    · cases h
  · rintro ⟨m, hm, hc, rfl⟩
    obtain ⟨i, hi, rfl⟩ := Array.mem_iff_getElem.1 hm
    have hci := Interval.mem_iff_ordinal.1 hc
    -- the moves before the one on `c` end before it, and that one does not
    have hle : ¬ i < q := fun h => by
      have := (endsBefore_iff hi).1 ((hpoint hi).1 h)
      omega
    have hge : ¬ q < i := fun h => by
      have hq := Nat.lt_trans h hi
      have := hs.stop_le_start h hi
      exact Nat.lt_irrefl q ((hpoint hq).2 ((endsBefore_iff hq).2 (by omega)))
    have hiq : q = i := by omega
    subst hiq
    rw [Array.getElem?_eq_getElem hi]
    exact if_pos (Interval.contains_iff.2 hc)

end State

variable {d : Dfa} {i j k : Nat} {c : Char} {u v w : Word}

theorem state_of_size_le (h : d.size ≤ i) : d.state i = ⟨false, #[]⟩ := by
  rw [state, Array.getD_eq_getD_getElem?, Array.getElem?_eq_none h]
  rfl

theorem WellFormed.next_lt (hd : d.WellFormed) (h : (d.state i).next? c = some j) : j < d.size := by
  obtain ⟨m, hm, -, rfl⟩ := (State.next?_eq_some (hd.ordered i)).1 h
  exact hd.target_lt i m hm

/-! ## Runs -/

@[simp] theorem run?_nil : d.run? i [] = some i := rfl

theorem run?_cons : d.run? i (c :: w) = ((d.state i).next? c).bind (d.run? · w) := rfl

theorem run?_append : d.run? i (u ++ v) = (d.run? i u).bind (d.run? · v) := by
  induction u generalizing i with
  | nil => rfl
  | cons c u ih =>
    rw [List.cons_append, run?_cons, run?_cons]
    cases (d.state i).next? c with
    | none => rfl
    | some j => exact ih

theorem WellFormed.run_lt (hd : d.WellFormed) (hi : i < d.size) (h : d.run? i w = some j) : j < d.size := by
  induction w generalizing i with
  | nil => cases h; exact hi
  | cons c w ih =>
    rw [run?_cons] at h
    obtain ⟨k, hk, h⟩ := Option.bind_eq_some_iff.1 h
    exact ih (hd.next_lt hk) h

/-- Whether reading `w` from state `i` ends in an accepting state. -/
def acceptsFrom (d : Dfa) (i : Nat) (w : Word) : Bool := (d.run? i w).any fun j => (d.state j).accepting

theorem accepts_eq (d : Dfa) (w : Word) : d.accepts w = d.acceptsFrom 0 w := by
  rw [accepts, acceptsFrom]
  cases d.run? 0 w <;> rfl

@[simp] theorem acceptsFrom_nil : d.acceptsFrom i [] = (d.state i).accepting := rfl

theorem acceptsFrom_cons : d.acceptsFrom i (c :: w) = ((d.state i).next? c).any (d.acceptsFrom · w) := by
  rw [acceptsFrom, run?_cons]
  cases (d.state i).next? c <;> rfl

theorem acceptsFrom_append : d.acceptsFrom i (u ++ v) = (d.run? i u).any (d.acceptsFrom · v) := by
  rw [acceptsFrom, run?_append]
  cases d.run? i u <;> rfl

theorem acceptsFrom_eq_getD (d : Dfa) (i : Nat) (w : Word) :
    d.acceptsFrom i w = ((d.run? i w).map fun k => (d.state k).accepting).getD false := by
  rw [acceptsFrom]
  cases d.run? i w <;> rfl

/-- Where all states are rejecting, nothing is accepted. -/
theorem acceptsFrom_eq_false (h : ∀ s ∈ d.states, s.accepting = false) (i : Nat) (w : Word) :
    d.acceptsFrom i w = false := by
  rw [acceptsFrom]
  cases d.run? i w with
  | none => rfl
  | some k =>
    rw [Option.any_some]
    by_cases hk : k < d.size
    · have hk : k < d.states.size := hk
      rw [state, Array.getD_eq_getD_getElem?, Array.getElem?_eq_getElem hk]
      exact h _ (Array.getElem_mem hk)
    · rw [state_of_size_le (Nat.not_lt.1 hk)]

/-- The same states, the same acceptance and the same moves on every character, however they are cut into intervals. -/
structure Agree (d e : Dfa) : Prop where
  size_eq : d.size = e.size
  accepting_eq : ∀ i, (d.state i).accepting = (e.state i).accepting
  next?_eq : ∀ i c, (d.state i).next? c = (e.state i).next? c

end Dfa
end PatternAutomata
