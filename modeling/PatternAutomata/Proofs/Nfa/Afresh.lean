import PatternAutomata.Proofs.Nfa.Matching
/-!
# Afresh — matching with a new set for each character

Matching reuses two sets and stops where no state is left.  Without either it is `Nfa.acceptsAfresh`: a new set takes up
the states after each character, and the word is read to its end.  The answers are the same, faults included
(`accepts_eq_acceptsAfresh`).  What carries the comparison is `IndexSet.SameMembers`: what a cleared set still holds in
its arrays is in no answer, so sets that list the same members stay so under every operation, and from no state a word
leads to none.

In a well-formed automaton the states after a word are exactly those that the word leads to (`exists_statesAfter`), so
the answer is whether there is a run (`accepts_decides_run`).
-/
namespace PatternAutomata

/-- Two computations end alike: with the same error, or with values that are related. -/
inductive EndAlike {α β ε : Type} (R : α → β → Prop) : Except ε α → Except ε β → Prop where
  | ok {a : α} {b : β} (h : R a b) : EndAlike R (.ok a) (.ok b)
  | error (e : ε) : EndAlike R (.error e) (.error e)

namespace EndAlike

variable {α β γ δ ε : Type} {R : α → β → Prop} {S : γ → δ → Prop} {x : Except ε α} {y : Except ε β} {f : α → Except ε γ}
  {g : β → Except ε δ}

theorem bind (h : EndAlike R x y) (hfg : ∀ a b, R a b → EndAlike S (f a) (g b)) : EndAlike S (x.bind f) (y.bind g) := by
  cases h with
  | ok h => exact hfg _ _ h
  | error e => exact .error e

theorem bind_eq {g : β → Except ε γ} (h : EndAlike R x y) (hfg : ∀ a b, R a b → f a = g b) : x.bind f = y.bind g := by
  cases h with
  | ok h => exact hfg _ _ h
  | error e => rfl

theorem exists_ok {a : α} (h : EndAlike R (.ok a) y) : ∃ b, y = .ok b ∧ R a b := by
  cases h with
  | ok h => exact ⟨_, rfl, h⟩

end EndAlike

namespace IndexSet

/-- Both sets admit the numbers up to `bound` and list the same members; their arrays may differ in all else. -/
structure SameMembers (bound : Nat) (s t : IndexSet) : Prop where
  bound_left : s.bound = bound
  bound_right : t.bound = bound
  toList_eq : s.toList = t.toList

variable {bound : Nat} {s t : IndexSet}

/-- **Insertion does not see what else the arrays hold.** -/
theorem SameMembers.insert (h : SameMembers bound s t) (x : Nat) :
    EndAlike (fun r q => r.1 = q.1 ∧ SameMembers bound r.2 q.2) (s.insert x) (t.insert x) := by
  cases hs : s.insert x with
  | error f =>
    obtain ⟨hlt, rfl⟩ := insert_eq_error.1 hs
    have ht : t.insert x = .error (.valueTooLarge x s.bound) := insert_eq_error.2 <| by
      rw [h.bound_right, h.bound_left]
      exact ⟨h.bound_left ▸ hlt, rfl⟩
    rw [ht]
    exact .error _
  | ok r =>
    obtain ⟨new, s'⟩ := r
    obtain ⟨hbound, hnew, hlist⟩ := insert_eq_ok hs
    cases ht : t.insert x with
    | error f =>
      have hlt : s.bound < x := by
        rw [h.bound_left, ← h.bound_right]
        exact (insert_eq_error.1 ht).1
      rw [insert_eq_error.2 ⟨hlt, rfl⟩] at hs
      cases hs
    | ok q =>
      obtain ⟨new', t'⟩ := q
      obtain ⟨hbound', hnew', hlist'⟩ := insert_eq_ok ht
      refine .ok ⟨Bool.eq_iff_iff.2 ?_, hbound.trans h.bound_left, hbound'.trans h.bound_right, ?_⟩
      · rw [hnew, hnew', h.toList_eq]
      · rw [hlist, hlist', h.toList_eq]

theorem sameMembers_clear (hs : s.bound = bound) : SameMembers bound s.clear (empty bound) := ⟨hs, rfl, rfl⟩

end IndexSet

open IndexSet (SameMembers)

namespace Search

variable {bound : Nat} {s t : Search}

/-- Both searches have found the same states, in the same order, and the same of them are pending. -/
def SameFound (bound : Nat) (s t : Search) : Prop := SameMembers bound s.found t.found ∧ s.pending = t.pending

theorem SameFound.find (h : SameFound bound s t) (i : Nat) : EndAlike (SameFound bound) (s.find i) (t.find i) :=
  (h.1.insert i).bind fun r q hrq => .ok ⟨hrq.2, by rw [hrq.1, h.2]⟩

theorem SameFound.findAll (h : SameFound bound s t) (ids : List Nat) :
    EndAlike (SameFound bound) (s.findAll ids) (t.findAll ids) := by
  induction ids generalizing s t with
  | nil => exact .ok h
  | cons i is ih => exact (h.find i).bind fun _ _ => ih

end Search

open Search (SameFound)

namespace Nfa

variable {n : Nfa} {s t : IndexSet} {w : Word}

/-! ## What sets with the same members lead to -/

theorem sameFound_turn {bound : Nat} (h : SameMembers bound s t) (i : Nat) (rest : List Nat) :
    EndAlike (SameFound bound) (n.turn s i rest) (n.turn t i rest) := by
  rw [turn, turn]
  cases n.state i with
  | error f => exact .error f
  | ok state =>
    have hrest : SameFound bound ⟨s, rest⟩ ⟨t, rest⟩ := ⟨h, rfl⟩
    exact hrest.findAll state.empties

theorem sameFound_follow {bound : Nat} (turns : Nat) {s t : Search} (h : SameFound bound s t) :
    EndAlike (SameFound bound) (n.follow turns s) (n.follow turns t) := by
  induction turns generalizing s t with
  | zero => exact .ok h
  | succ turns ih =>
    obtain ⟨s, pending⟩ := s
    obtain ⟨t, pending'⟩ := t
    obtain ⟨hfound, rfl⟩ : SameMembers bound s t ∧ pending = pending' := h
    cases pending with
    | nil => exact .ok ⟨hfound, rfl⟩
    | cons i rest =>
      rw [follow_succ_cons, follow_succ_cons]
      exact (sameFound_turn hfound i rest).bind fun _ _ => ih

theorem sameFound_close {bound : Nat} (h : SameMembers bound s t) :
    EndAlike (SameFound bound) (n.close ⟨s, []⟩) (n.close ⟨t, []⟩) := by
  have hstart : SameFound bound (Search.restart ⟨s, []⟩) (Search.restart ⟨t, []⟩) :=
    ⟨h, congrArg List.reverse h.toList_eq⟩
  rw [close, close, h.bound_left, h.bound_right]
  exact sameFound_follow _ hstart

theorem sameMembers_insertAll {bound : Nat} (h : SameMembers bound s t) (ids : List Nat) :
    EndAlike (SameMembers bound) (insertAll s ids) (insertAll t ids) := by
  induction ids generalizing s t with
  | nil => exact .ok h
  | cons i is ih => exact (h.insert i).bind fun _ _ hrq => ih hrq.2

theorem sameMembers_stepFrom {bound : Nat} (c : Char) (states : List Nat) (h : SameMembers bound s t) :
    EndAlike (SameMembers bound) (n.stepFrom c states s) (n.stepFrom c states t) := by
  induction states generalizing s t with
  | nil => exact .ok h
  | cons i is ih =>
    rw [stepFrom_cons, stepFrom_cons]
    cases n.state i with
    | error f => exact .error f
    | ok state => exact (sameMembers_insertAll h (state.targets c)).bind fun _ _ => ih

/-! ## Reading without reuse -/

/-- The states after reading one character, in a new set. -/
def advanceAfresh (n : Nfa) (current : IndexSet) (c : Char) : Except Fault IndexSet := do
  let next ← n.step current c n.stateSet
  let closed ← n.close ⟨next, []⟩
  return closed.found

def readAfresh (n : Nfa) : IndexSet → Word → Except Fault IndexSet
  | current, [] => .ok current
  | current, c :: w => do n.readAfresh (← n.advanceAfresh current c) w

/-- The states after reading a word from the start. -/
def statesAfter (n : Nfa) (w : Word) : Except Fault IndexSet := do
  let (_, first) ← n.stateSet.insert n.start
  let closed ← n.close ⟨first, []⟩
  n.readAfresh closed.found w

/-- Whether one of the states after a word is accepting. -/
def acceptsAfresh (n : Nfa) (w : Word) : Except Fault Bool := do n.anyAccepting (← n.statesAfter w).toList

theorem readAfresh_cons (n : Nfa) (s : IndexSet) (c : Char) (w : Word) :
    n.readAfresh s (c :: w) = (n.advanceAfresh s c).bind (n.readAfresh · w) := rfl

/-- **A character read into the cleared set leads to the states that a new set takes up**, whatever the cleared one held
before. -/
theorem sameMembers_advance (sets : IndexSets) (h : SameMembers n.size sets.first s)
    (hsecond : sets.second.bound = n.size) (c : Char) :
    EndAlike (fun a b => SameMembers n.size a.first b ∧ a.second.bound = n.size) (n.advance sets c)
      (n.advanceAfresh s c) := by
  have hstep : EndAlike (SameMembers n.size) (n.step sets.first c sets.second.clear) (n.step s c n.stateSet) := by
    rw [step, step, h.toList_eq]
    exact sameMembers_stepFrom c _ (IndexSet.sameMembers_clear hsecond)
  exact hstep.bind fun _ _ hnext => (sameFound_close hnext).bind fun _ _ hclosed => .ok ⟨hclosed.1, h.bound_left⟩

/-- From no state a word leads to none. -/
theorem exists_readAfresh_of_nil (hs : s.toList = []) (w : Word) :
    ∃ t, n.readAfresh s w = .ok t ∧ t.toList = [] := by
  induction w generalizing s with
  | nil => exact ⟨s, rfl, hs⟩
  | cons c w ih =>
    have hadvance : n.advanceAfresh s c = .ok n.stateSet := by
      rw [advanceAfresh, step, hs]
      rfl
    rw [readAfresh_cons, hadvance]
    exact ih rfl

/-- **Reuse and early stopping leave the answer as it is.** -/
theorem run_eq_readAfresh (sets : IndexSets) (h : SameMembers n.size sets.first s)
    (hsecond : sets.second.bound = n.size) (w : Word) :
    n.run sets w = (n.readAfresh s w).bind fun last => n.anyAccepting last.toList := by
  induction w generalizing sets s with
  | nil =>
    change n.anyAccepting sets.first.toList = n.anyAccepting s.toList
    rw [h.toList_eq]
  | cons c w ih =>
    rw [run_cons, readAfresh_cons]
    change _ = (n.advanceAfresh s c >>= (n.readAfresh · w)) >>= fun last => n.anyAccepting last.toList
    rw [bind_assoc]
    refine (sameMembers_advance sets h hsecond c).bind_eq fun a b hab => ?_
    by_cases hempty : a.first.isEmpty
    · -- stopping early: what is left of the word leads nowhere
      have hnil : b.toList = [] := by
        rw [← hab.1.toList_eq]
        exact List.eq_nil_of_length_eq_zero (by rw [IndexSet.length_toList]; simpa [IndexSet.isEmpty] using hempty)
      obtain ⟨t, ht, htnil⟩ := exists_readAfresh_of_nil hnil w
      rw [if_pos hempty, ht]
      change _ = n.anyAccepting t.toList
      rw [htnil]
      rfl
    · rw [if_neg hempty]
      exact ih a hab.1 hab.2

theorem accepts_eq_acceptsAfresh (hn : n.size ≠ 0) (w : Word) : n.accepts w = n.acceptsAfresh w := by
  rw [accepts, if_neg hn]
  change (n.stateSet.insert n.start).bind _ = ((n.stateSet.insert n.start).bind _).bind _
  cases hinsert : n.stateSet.insert n.start with
  | error f => rfl
  | ok r =>
    change (n.close ⟨r.2, []⟩).bind _ = ((n.close ⟨r.2, []⟩).bind _).bind _
    cases hclose : n.close ⟨r.2, []⟩ with
    | error f => rfl
    | ok closed =>
      have hbound : closed.found.bound = n.size := (close_eq_ok hclose).2.2.trans (IndexSet.insert_eq_ok hinsert).1
      exact run_eq_readAfresh ⟨closed.found, .empty n.size⟩ ⟨hbound, hbound, rfl⟩ rfl w

/-! ## What the sets hold -/

/-- **After each character the set holds what the characters read so far lead to.** -/
theorem exists_readAfresh (hn : n.WellFormed) {states : List Nat} (hbound : s.bound = n.size)
    (hstates : ∀ i ∈ states, i < n.size) (hclosed : n.IsClosure states s.toList) (w : Word) :
    ∃ t, n.readAfresh s w = .ok t ∧ ∀ j, j ∈ t.toList ↔ n.LeadsTo s.toList w j := by
  induction w generalizing s states with
  | nil => exact ⟨s, rfl, fun j => hclosed.leadsTo_nil.symm⟩
  | cons c w ih =>
    let before : IndexSets := ⟨s, n.stateSet⟩
    have hlt : ∀ i ∈ before.first.toList, i < n.size := fun i hi => hclosed.lt hn hstates hi
    obtain ⟨after, hafter, -, hclosure⟩ := exists_advance hn c hlt ⟨hbound, rfl⟩
    have halike := sameMembers_advance before ⟨hbound, hbound, rfl⟩ rfl c
    rw [hafter] at halike
    obtain ⟨next, hnext, hsame, -⟩ := halike.exists_ok
    obtain ⟨t, ht, hmem⟩ := ih hsame.bound_right (fun i hi => lt_of_mem_targets hn hi) (hsame.toList_eq ▸ hclosure)
    refine ⟨t, by rw [readAfresh_cons, hnext]; exact ht, fun j => ?_⟩
    rw [hmem, hclosed.leadsTo_cons, ← hsame.toList_eq, hclosure.leadsTo_iff]

/-- **The states after a word are those that the word leads to from the start.** -/
theorem exists_statesAfter (hn : n.WellFormed) (w : Word) :
    ∃ t, n.statesAfter w = .ok t ∧ ∀ j, j ∈ t.toList ↔ n.Path n.start w j := by
  have hstart : ∀ i ∈ [n.start], i < n.size := fun i hi => List.mem_singleton.1 hi ▸ hn.start_lt
  obtain ⟨r, closed, hinsert, hclose, hbound, hclosure⟩ := exists_start hn
  obtain ⟨t, ht, hmem⟩ := exists_readAfresh hn hbound hstart hclosure w
  refine ⟨t, bind_eq_ok.2 ⟨r, hinsert, bind_eq_ok.2 ⟨closed, hclose, ht⟩⟩, fun j => ?_⟩
  rw [hmem, hclosure.leadsTo_iff, LeadsTo]
  simp only [List.mem_singleton, exists_eq_left]

/-- **Matching decides whether there is an accepting run**, and neither the reuse of two sets nor stopping at an empty
one has a part in it: read to its end with new sets, the word leaves exactly the states that it leads to from the start,
and the answer is whether one of them is accepting. -/
theorem accepts_decides_run (n : Nfa) (hn : n.WellFormed) (w : Word) :
    n.accepts w = n.acceptsAfresh w ∧
    (∃ last, n.statesAfter w = .ok last ∧ ∀ j, j ∈ last.toList ↔ n.Path n.start w j) ∧
    ∃ b, n.accepts w = .ok b ∧ (b = true ↔ ∃ j, n.Path n.start w j ∧ n.isAccepting j = true) := by
  have hpos : n.size ≠ 0 := Nat.ne_of_gt (Nat.lt_of_le_of_lt (Nat.zero_le _) hn.start_lt)
  obtain ⟨last, hlast, hmem⟩ := exists_statesAfter hn w
  obtain ⟨b, hb, hrun⟩ := exists_accepts hn w
  refine ⟨accepts_eq_acceptsAfresh hpos w, ⟨last, hlast, hmem⟩, b, hb, hrun.trans ?_⟩
  exact exists_congr fun j => and_comm

/-- Empty moves lead round between two states; one is left on `a` for the other, and the other on `b` for an accepting
one. -/
def carousel : Nfa :=
  ((((((empty.addState false).2.addState false).2.addState true).2.addEmpty 0 1).addEmpty 1 0).addMove
    1 (.single 'a') 0).addMove 0 (.single 'b') 2

/-- After `ba` no state is left, so what follows is not read. -/
theorem carousel_decides_run : carousel.WellFormed ∧ carousel.acceptsAfresh ['a', 'b'] = .ok true ∧
    (∃ j, carousel.Path 0 ['a', 'b'] j ∧ carousel.isAccepting j = true) ∧
    carousel.acceptsAfresh ['b', 'a', 'b'] = .ok false ∧
    ¬ ∃ j, carousel.Path 0 ['b', 'a', 'b'] j ∧ carousel.isAccepting j = true := by
  have hwf : carousel.WellFormed := by decide
  have hab : carousel.accepts ['a', 'b'] = .ok true := by with_unfolding_all rfl
  have hbab : carousel.accepts ['b', 'a', 'b'] = .ok false := by with_unfolding_all rfl
  obtain ⟨heq, -, b, hb, hrun⟩ := accepts_decides_run carousel hwf ['a', 'b']
  obtain ⟨heq', -, b', hb', hrun'⟩ := accepts_decides_run carousel hwf ['b', 'a', 'b']
  cases hab.symm.trans hb
  cases hbab.symm.trans hb'
  exact ⟨hwf, heq.symm.trans hab, hrun.1 rfl, heq'.symm.trans hbab, fun h => Bool.false_ne_true (hrun'.2 h)⟩

end Nfa
end PatternAutomata
