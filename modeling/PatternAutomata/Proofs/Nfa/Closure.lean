import PatternAutomata.Proofs.Nfa.Path
/-!
# Closure — what following empty moves finds

`Nfa.close` finds exactly the states that empty moves lead to (`close_eq_ok`), and it fails exactly where one of these
is no state of the automaton (`close_eq_error`, `exists_close_iff`).  What carries the search is `Search.Invariant`: a
state that has been found and is not pending has been followed.  It is kept by each turn of a search that goes on until
nothing is pending (`Nfa.Follows`).  Each turn follows one state, so the limit on the turns is never what ends the search
(`follows_follow`).  `close_reaches` says all this of a search that begins with given states.
-/
namespace PatternAutomata

open Relation (ReflTransGen)

namespace Search

/-- `t` is `s` after the states `ids` have been found: the new ones stand behind the old, and they are pending. -/
structure Finds (s t : Search) (ids : List Nat) : Prop where
  bound_eq : t.found.bound = s.found.bound
  new : ∃ new, t.found.toList = s.found.toList ++ new ∧ t.pending = new.reverse ++ s.pending ∧ ∀ x ∈ new, x ∈ ids
  found : ∀ x ∈ ids, x ∈ t.found.toList

theorem find_eq_ok {s t : Search} {i : Nat} (h : s.find i = .ok t) : s.Finds t [i] := by
  unfold find at h
  obtain ⟨⟨new, found⟩, hi, h⟩ := bind_eq_ok.1 h
  cases h
  obtain ⟨hbound, hnew, hlist⟩ := IndexSet.insert_eq_ok hi
  by_cases hmem : i ∈ s.found.toList
  · rw [if_pos hmem] at hlist
    have : new = false := by simpa [hmem] using hnew
    subst this
    exact ⟨hbound, ⟨[], by simp [hlist]⟩, by simp [hlist, hmem]⟩
  · rw [if_neg hmem] at hlist
    have : new = true := hnew.2 hmem
    subst this
    exact ⟨hbound, ⟨[i], by simp [hlist]⟩, by simp [hlist]⟩

theorem Finds.trans {s t u : Search} {is js : List Nat} (h : s.Finds t is) (h' : t.Finds u js) :
    s.Finds u (is ++ js) := by
  obtain ⟨new, hnew, hpending, hmem⟩ := h.new
  obtain ⟨new', hnew', hpending', hmem'⟩ := h'.new
  refine ⟨h'.bound_eq.trans h.bound_eq, ⟨new ++ new', ?_, ?_, fun x hx => ?_⟩, fun x hx => ?_⟩
  · rw [hnew', hnew, List.append_assoc]
  · rw [hpending', hpending, List.reverse_append, List.append_assoc]
  · rcases List.mem_append.1 hx with hx | hx
    · exact List.mem_append_left _ (hmem x hx)
    · exact List.mem_append_right _ (hmem' x hx)
  · rcases List.mem_append.1 hx with hx | hx
    · rw [hnew']
      exact List.mem_append_left _ (h.found x hx)
    · exact h'.found x hx

theorem findAll_cons (s : Search) (i : Nat) (is : List Nat) :
    s.findAll (i :: is) = (s.find i).bind (·.findAll is) := rfl

theorem findAll_eq_ok {s t : Search} {ids : List Nat} (h : s.findAll ids = .ok t) : s.Finds t ids := by
  induction ids generalizing s with
  | nil =>
    cases h
    exact ⟨rfl, ⟨[], by simp⟩, by simp⟩
  | cons i is ih =>
    rw [findAll_cons] at h
    obtain ⟨u, hi, h⟩ := bind_eq_ok.1 h
    exact (find_eq_ok hi).trans (ih h)

theorem findAll_eq_error {s : Search} {ids : List Nat} {f : Fault} (h : s.findAll ids = .error f) :
    ∃ x ∈ ids, s.found.bound < x ∧ f = .valueTooLarge x s.found.bound := by
  induction ids generalizing s with
  | nil => cases h
  | cons i is ih =>
    rw [findAll_cons] at h
    rcases bind_eq_error.1 h with hi | ⟨u, hi, h⟩
    · unfold find at hi
      rcases bind_eq_error.1 hi with hins | ⟨_, -, hi⟩
      · exact ⟨i, List.mem_cons_self, IndexSet.insert_eq_error.1 hins⟩
      · cases hi
    · obtain ⟨x, hx, hfault⟩ := ih h
      exact ⟨x, List.mem_cons_of_mem _ hx, (find_eq_ok hi).bound_eq ▸ hfault⟩

/-- What a search that began with the states `first` keeps: it has found nothing but what empty moves lead to, and each
state found is pending unless all that its empty moves lead to has been found. -/
structure Invariant (n : Nfa) (first : List Nat) (s : Search) : Prop where
  first_prefix : first <+: s.found.toList
  reached : ∀ i ∈ s.found.toList, ∃ j ∈ first, ReflTransGen n.EmptyMove j i
  pending_found : ∀ i ∈ s.pending, i ∈ s.found.toList
  followed : ∀ i ∈ s.found.toList, i ∈ s.pending ∨ i < n.size ∧ ∀ j, n.EmptyMove i j → j ∈ s.found.toList

theorem Invariant.restart (n : Nfa) (s : Search) : s.restart.Invariant n s.found.toList where
  first_prefix := List.prefix_refl _
  reached i hi := ⟨i, hi, .refl⟩
  pending_found _ hi := List.mem_reverse.1 hi
  followed _ hi := .inl (List.mem_reverse.2 hi)

/-- **One turn keeps the invariant.** -/
theorem Invariant.turn {n : Nfa} {first rest : List Nat} {found : IndexSet} {i : Nat} {state : Nfa.State} {t : Search}
    (h : Invariant n first ⟨found, i :: rest⟩) (hstate : n.states[i]? = some state)
    (ht : Finds ⟨found, rest⟩ t state.empties) : t.Invariant n first := by
  obtain ⟨new, hnew, hpending, hmem⟩ := ht.new
  have hi : i ∈ found.toList := h.pending_found i List.mem_cons_self
  have hold : ∀ j ∈ found.toList, j ∈ t.found.toList := fun j hj => by
    rw [hnew]; exact List.mem_append_left _ hj
  refine ⟨?_, fun j hj => ?_, fun j hj => ?_, fun j hj => ?_⟩
  · rw [hnew]
    exact h.first_prefix.trans (List.prefix_append _ _)
  · rw [hnew] at hj
    rcases List.mem_append.1 hj with hj | hj
    · exact h.reached j hj
    · obtain ⟨k, hk, hreach⟩ := h.reached i hi
      exact ⟨k, hk, hreach.tail ⟨state, hstate, hmem j hj⟩⟩
  · rw [hpending] at hj
    rcases List.mem_append.1 hj with hj | hj
    · rw [hnew]
      exact List.mem_append_right _ (List.mem_reverse.1 hj)
    · exact hold j (h.pending_found j (List.mem_cons_of_mem _ hj))
  · rw [hpending]
    rw [hnew] at hj
    rcases List.mem_append.1 hj with hj | hj
    · rcases h.followed j hj with hj | ⟨hlt, hall⟩
      · rcases List.mem_cons.1 hj with rfl | hj
        · refine .inr ⟨(Array.getElem?_eq_some_iff.1 hstate).1, ?_⟩
          rintro k ⟨s, hs, hk⟩
          cases hstate.symm.trans hs
          exact ht.found k hk
        · exact .inl (List.mem_append_right _ hj)
      · exact .inr ⟨hlt, fun k hk => hold k (hall k hk)⟩
    · exact .inl (List.mem_append_left _ (List.mem_reverse.2 hj))

/-- Where nothing is pending, all that empty moves lead to has been found. -/
theorem Invariant.mem_iff {n : Nfa} {first : List Nat} {s : Search} (h : s.Invariant n first) (hs : s.pending = [])
    {j : Nat} : j ∈ s.found.toList ↔ ∃ i ∈ first, ReflTransGen n.EmptyMove i j := by
  refine ⟨h.reached j, ?_⟩
  rintro ⟨i, hi, hreach⟩
  induction hreach with
  | refl => exact h.first_prefix.subset hi
  | tail _ hmove ih =>
    rcases h.followed _ ih with hp | ⟨-, hall⟩
    · rw [hs] at hp; cases hp
    · exact hall _ hmove

end Search

namespace Nfa

variable {n : Nfa} {s t u : Search} {f : Fault} {first : List Nat}

/-! ## Turn by turn -/

/-- One turn of a search: all that the empty moves of `i` lead to is found, and `rest` stays pending. -/
def turn (n : Nfa) (found : IndexSet) (i : Nat) (rest : List Nat) : Except Fault Search := do
  let state ← n.state i
  Search.findAll ⟨found, rest⟩ state.empties

/-- What a search comes to that goes on until nothing is pending, in however many turns. -/
inductive Follows (n : Nfa) : Search → Except Fault Search → Prop where
  | done (found : IndexSet) : n.Follows ⟨found, []⟩ (.ok ⟨found, []⟩)
  | fault {found : IndexSet} {i : Nat} {rest : List Nat} {f : Fault} (h : n.turn found i rest = .error f) :
    n.Follows ⟨found, i :: rest⟩ (.error f)
  | next {found : IndexSet} {i : Nat} {rest : List Nat} {s : Search} {r : Except Fault Search}
    (h : n.turn found i rest = .ok s) (hs : n.Follows s r) : n.Follows ⟨found, i :: rest⟩ r

/-- The fault that a number which is no state ends a search with: it is not found among the states or, if it is beyond
the bound, not even admitted. -/
def missing (n : Nfa) (bound j : Nat) : Fault := if j ≤ bound then .noSuchState n.size j else .valueTooLarge j bound

theorem Follows.unique {r r' : Except Fault Search} (h : n.Follows s r) (h' : n.Follows s r') : r = r' := by
  induction h with
  | done => cases h' with | done => rfl
  | fault h =>
    cases h' with
    | fault h' => exact congrArg Except.error (Except.error.inj (h.symm.trans h'))
    | next h' => cases h.symm.trans h'
  | next h _ ih =>
    cases h' with
    | fault h' => cases h.symm.trans h'
    | next h' hs' =>
      cases h.symm.trans h'
      exact ih hs'

theorem turn_eq_ok {found : IndexSet} {i : Nat} {rest : List Nat} (h : n.turn found i rest = .ok t) :
    ∃ state, n.states[i]? = some state ∧ Search.Finds ⟨found, rest⟩ t state.empties := by
  obtain ⟨state, hstate, ht⟩ := bind_eq_ok.1 h
  exact ⟨state, state_eq_ok.1 hstate, Search.findAll_eq_ok ht⟩

theorem turn_eq_error {found : IndexSet} {i : Nat} {rest : List Nat} (hi : i ≤ found.bound)
    (hbound : n.size ≤ found.bound) (h : n.turn found i rest = .error f) :
    ∃ j, (j = i ∨ n.EmptyMove i j) ∧ n.size ≤ j ∧ f = n.missing found.bound j := by
  rcases bind_eq_error.1 h with hstate | ⟨state, hstate, h⟩
  · obtain ⟨hle, rfl⟩ := state_eq_error.1 hstate
    exact ⟨i, .inl rfl, hle, (if_pos hi).symm⟩
  · obtain ⟨j, hj, hlt, rfl⟩ := Search.findAll_eq_error h
    exact ⟨j, .inr ⟨state, state_eq_ok.1 hstate, hj⟩, Nat.le_of_lt (Nat.lt_of_le_of_lt hbound hlt),
      (if_neg (Nat.not_le.2 hlt)).symm⟩

theorem follow_succ_cons (n : Nfa) (turns : Nat) (found : IndexSet) (i : Nat) (rest : List Nat) :
    n.follow (turns + 1) ⟨found, i :: rest⟩ = (n.turn found i rest).bind (n.follow turns) := by
  change (n.state i).bind (fun state => (Search.findAll ⟨found, rest⟩ state.empties).bind (n.follow turns)) =
    ((n.state i).bind fun state => Search.findAll ⟨found, rest⟩ state.empties).bind (n.follow turns)
  cases n.state i <;> rfl

/-- **The limit on the turns is not what ends a search.**  Each turn adds as many states to those found as to those
pending and takes one from the latter, so the states followed are one more, and they are at most as many as can be
found. -/
theorem follows_follow {turns : Nat} (hturns : s.found.bound + 1 + s.pending.length ≤ turns + s.found.size) :
    n.Follows s (n.follow turns s) := by
  induction turns generalizing s with
  | zero =>
    obtain ⟨found, pending⟩ := s
    have := found.size_le
    obtain rfl : pending = [] := List.eq_nil_of_length_eq_zero (by dsimp only at hturns; omega)
    exact .done found
  | succ turns ih =>
    obtain ⟨found, pending⟩ := s
    cases pending with
    | nil => exact .done found
    | cons i rest =>
      rw [follow_succ_cons]
      cases ht : n.turn found i rest with
      | error f => exact .fault ht
      | ok t =>
        obtain ⟨state, -, hfinds⟩ := turn_eq_ok ht
        obtain ⟨new, hnew, hpending, -⟩ := hfinds.new
        have hsize : t.found.size = found.size + new.length := by
          rw [← IndexSet.length_toList, hnew, List.length_append, IndexSet.length_toList]
        have hlen : t.pending.length = new.length + rest.length := by
          rw [hpending, List.length_append, List.length_reverse]
        have hbound : t.found.bound = found.bound := hfinds.bound_eq
        exact .next ht (ih (by rw [List.length_cons] at hturns; dsimp only at hturns; omega))

/-- **A search that ends has found all that empty moves lead to.** -/
theorem Follows.invariant {r : Except Fault Search} (h : n.Follows s r) (hs : s.Invariant n first) (hr : r = .ok t) :
    t.Invariant n first ∧ t.pending = [] ∧ t.found.bound = s.found.bound := by
  induction h with
  | done =>
    cases hr
    exact ⟨hs, rfl, rfl⟩
  | fault => cases hr
  | next h _ ih =>
    obtain ⟨state, hstate, hfinds⟩ := turn_eq_ok h
    obtain ⟨ht, hnone, hbound⟩ := ih (hs.turn hstate hfinds) hr
    exact ⟨ht, hnone, hbound.trans hfinds.bound_eq⟩

/-- **A search that fails has come upon a number that is no state**, to which empty moves lead. -/
theorem Follows.exists_missing {r : Except Fault Search} (h : n.Follows s r) (hs : s.Invariant n first)
    (hbound : n.size ≤ s.found.bound) (hr : r = .error f) :
    ∃ i ∈ first, ∃ j, ReflTransGen n.EmptyMove i j ∧ n.size ≤ j ∧ f = n.missing s.found.bound j := by
  induction h with
  | done => cases hr
  | @fault found i rest _ h =>
    cases hr
    have hi := hs.pending_found i List.mem_cons_self
    obtain ⟨k, hk, hreach⟩ := hs.reached i hi
    obtain ⟨j, hj, hle, rfl⟩ := turn_eq_error (IndexSet.le_bound_of_mem hi) hbound h
    refine ⟨k, hk, j, ?_, hle, rfl⟩
    rcases hj with rfl | hj
    · exact hreach
    · exact hreach.tail hj
  | next h _ ih =>
    obtain ⟨state, hstate, hfinds⟩ := turn_eq_ok h
    have heq := hfinds.bound_eq
    have := ih (hs.turn hstate hfinds) (heq ▸ hbound) hr
    rwa [heq] at this

/-! ## Closing a set -/

/-- Closing a set is following what empty moves lead to, without a limit. -/
theorem follows_restart_iff {r : Except Fault Search} : n.Follows s.restart r ↔ n.close s = r := by
  have hclose : n.Follows s.restart (n.close s) := follows_follow (by simp [Search.restart, IndexSet.length_toList])
  exact ⟨hclose.unique, fun h => h ▸ hclose⟩

/-- **What closing a set finds.** -/
theorem close_eq_ok (h : n.close s = .ok t) :
    t.Invariant n s.found.toList ∧ t.pending = [] ∧ t.found.bound = s.found.bound :=
  (follows_restart_iff.2 h).invariant (Search.Invariant.restart n s) rfl

theorem close_eq_error (hbound : n.size ≤ s.found.bound) (h : n.close s = .error f) :
    ∃ i ∈ s.found.toList, ∃ j, ReflTransGen n.EmptyMove i j ∧ n.size ≤ j ∧ f = n.missing s.found.bound j :=
  (follows_restart_iff.2 h).exists_missing (Search.Invariant.restart n s) hbound rfl

/-- **A set can be closed exactly if empty moves lead to states only.** -/
theorem exists_close_iff (hbound : n.size ≤ s.found.bound) :
    (∃ t, n.close s = .ok t) ↔ ∀ i ∈ s.found.toList, ∀ j, ReflTransGen n.EmptyMove i j → j < n.size := by
  constructor
  · rintro ⟨t, ht⟩ i hi j hreach
    obtain ⟨hinv, hnone, -⟩ := close_eq_ok ht
    rcases hinv.followed j ((hinv.mem_iff hnone).2 ⟨i, hi, hreach⟩) with hj | ⟨hlt, -⟩
    · rw [hnone] at hj
      cases hj
    · exact hlt
  · intro hall
    cases h : n.close s with
    | error f =>
      obtain ⟨i, hi, j, hreach, hle, -⟩ := close_eq_error hbound h
      exact absurd (hall i hi j hreach) (Nat.not_lt.2 hle)
    | ok t => exact ⟨t, rfl⟩

/-- **A set of states of a well-formed automaton can be closed.** -/
theorem exists_close (hn : n.WellFormed) (hbound : s.found.bound = n.size)
    (hs : ∀ i ∈ s.found.toList, i < n.size) : ∃ t, n.close s = .ok t ∧ t.pending = [] ∧ t.found.bound = n.size ∧
      n.IsClosure s.found.toList t.found.toList := by
  obtain ⟨t, ht⟩ := (exists_close_iff (Nat.le_of_eq hbound.symm)).2 fun i hi j hreach =>
    lt_of_reflTransGen hn hreach (hs i hi)
  obtain ⟨hinv, hnone, hb⟩ := close_eq_ok ht
  exact ⟨t, ht, hnone, hb.trans hbound, fun j => hinv.mem_iff hnone⟩

/-! ## Inserting many numbers -/

theorem insertAll_cons (s : IndexSet) (i : Nat) (is : List Nat) :
    insertAll s (i :: is) = (s.insert i).bind fun r => insertAll r.2 is := rfl

theorem insertAll_eq_ok {s t : IndexSet} {is : List Nat} (h : insertAll s is = .ok t) :
    t.bound = s.bound ∧ ∀ j, j ∈ t.toList ↔ j ∈ s.toList ∨ j ∈ is := by
  induction is generalizing s with
  | nil =>
    cases h
    exact ⟨rfl, by simp⟩
  | cons i is ih =>
    rw [insertAll_cons] at h
    obtain ⟨⟨new, u⟩, hi, h⟩ := bind_eq_ok.1 h
    obtain ⟨hbound, -, hlist⟩ := IndexSet.insert_eq_ok hi
    have hu : ∀ j, j ∈ u.toList ↔ j ∈ s.toList ∨ j = i := fun j => by
      rw [hlist]
      split
      · rename_i hmem
        exact ⟨.inl, fun h => h.elim id fun e => e ▸ hmem⟩
      · rw [List.mem_append, List.mem_singleton]
    obtain ⟨hb, hmem⟩ := ih h
    refine ⟨hb.trans hbound, fun j => ?_⟩
    rw [hmem, hu, List.mem_cons, or_assoc]

theorem exists_insertAll {s : IndexSet} {is : List Nat} (h : ∀ i ∈ is, i ≤ s.bound) :
    ∃ t, insertAll s is = .ok t ∧ t.bound = s.bound ∧ ∀ j, j ∈ t.toList ↔ j ∈ s.toList ∨ j ∈ is := by
  have hok : ∃ t, insertAll s is = .ok t := by
    induction is generalizing s with
    | nil => exact ⟨s, rfl⟩
    | cons i is ih =>
      rw [insertAll_cons]
      cases hi : s.insert i with
      | error f => exact absurd (h i List.mem_cons_self) (Nat.not_le.2 (IndexSet.insert_eq_error.1 hi).1)
      | ok r =>
        have hbound := (IndexSet.insert_eq_ok hi).1
        exact ih fun j hj => hbound ▸ h j (List.mem_cons_of_mem _ hj)
  obtain ⟨t, ht⟩ := hok
  exact ⟨t, ht, insertAll_eq_ok ht⟩

/-- Numbers that are new stand behind the old ones, in the order in which they are inserted. -/
theorem exists_insertAll_of_nodup {s : IndexSet} {is : List Nat} (hle : ∀ i ∈ is, i ≤ s.bound)
    (hnodup : (s.toList ++ is).Nodup) : ∃ t, insertAll s is = .ok t ∧ t.toList = s.toList ++ is ∧ t.bound = s.bound := by
  induction is generalizing s with
  | nil => exact ⟨s, rfl, (List.append_nil _).symm, rfl⟩
  | cons i is ih =>
    rw [insertAll_cons]
    cases hi : s.insert i with
    | error f => exact absurd (hle i List.mem_cons_self) (Nat.not_le.2 (IndexSet.insert_eq_error.1 hi).1)
    | ok r =>
      obtain ⟨new, u⟩ := r
      obtain ⟨hbound, -, hlist⟩ := IndexSet.insert_eq_ok hi
      have hnew : i ∉ s.toList := fun h => (List.nodup_append.1 hnodup).2.2 i h i List.mem_cons_self rfl
      have hu : u.toList ++ is = s.toList ++ i :: is := by
        rw [hlist, if_neg hnew, List.append_assoc, List.singleton_append]
      obtain ⟨t, ht, hlist', hbound'⟩ := ih (s := u) (fun j hj => hbound ▸ hle j (List.mem_cons_of_mem _ hj))
        (hu ▸ hnodup)
      exact ⟨t, ht, hlist'.trans hu, hbound'.trans hbound⟩

/-! ## Closing states that are inserted -/

/-- **The order of the states a search begins with is no matter**, but for the order of those it finds. -/
theorem exists_close_of_perm (hbound : n.size ≤ s.found.bound) (hbound' : n.size ≤ u.found.bound)
    (hperm : u.found.toList.Perm s.found.toList) (h : n.close s = .ok t) :
    ∃ v, n.close u = .ok v ∧ v.found.toList.Perm t.found.toList := by
  have hall := (exists_close_iff hbound).1 ⟨t, h⟩
  obtain ⟨v, hv⟩ := (exists_close_iff hbound').2 fun i hi => hall i (hperm.subset hi)
  obtain ⟨ht, htnone, -⟩ := close_eq_ok h
  obtain ⟨hvinv, hvnone, -⟩ := close_eq_ok hv
  refine ⟨v, hv, (List.perm_ext_iff_of_nodup v.found.nodup_toList t.found.nodup_toList).2 fun j => ?_⟩
  rw [hvinv.mem_iff hvnone, ht.mem_iff htnone]
  simp only [hperm.mem_iff]

/-- **Closing finds exactly the states that empty moves lead to, and fails exactly if they lead to a number that is no
state.**  The search comes to an end without a limit on its turns, whatever was pending before it; the states it begins
with keep their places; and the order in which they are inserted is no matter for what is found. -/
theorem close_reaches (n : Nfa) (ids : List Nat) (hnodup : ids.Nodup) (hids : ∀ i ∈ ids, i < n.size) :
    ∃ s, insertAll n.stateSet ids = .ok s ∧ s.toList = ids ∧
      (∀ pending r, n.Follows (Search.restart ⟨s, pending⟩) r ↔ n.close ⟨s, pending⟩ = r) ∧
      ((∀ i ∈ ids, ∀ j, ReflTransGen n.EmptyMove i j → j < n.size) → ∀ pending, ∃ t, n.close ⟨s, pending⟩ = .ok t ∧
        t.pending = [] ∧ ids <+: t.found.toList ∧ n.IsClosure ids t.found.toList) ∧
      ((∃ i ∈ ids, ∃ j, ReflTransGen n.EmptyMove i j ∧ n.size ≤ j) → ∀ pending,
        ∃ i ∈ ids, ∃ j, ReflTransGen n.EmptyMove i j ∧ n.size ≤ j ∧
          n.close ⟨s, pending⟩ = .error (n.missing n.size j)) ∧
      ∀ ids', ids'.Perm ids → ∃ s', insertAll n.stateSet ids' = .ok s' ∧ ∀ pending pending' t,
        n.close ⟨s, pending⟩ = .ok t →
          ∃ t', n.close ⟨s', pending'⟩ = .ok t' ∧ t'.found.toList.Perm t.found.toList := by
  have hinsert : ∀ {is : List Nat}, is.Perm ids →
      ∃ s, insertAll n.stateSet is = .ok s ∧ s.toList = is ∧ s.bound = n.size := fun hperm =>
    exists_insertAll_of_nodup (fun i hi => Nat.le_of_lt (hids i (hperm.subset hi))) (hperm.nodup_iff.2 hnodup)
  obtain ⟨s, hs, hlist, hbound⟩ := hinsert (.refl ids)
  have hle : n.size ≤ s.bound := Nat.le_of_eq hbound.symm
  refine ⟨s, hs, hlist, fun pending r => follows_restart_iff, fun hall pending => ?_, fun hmissing pending => ?_,
    fun ids' hperm => ?_⟩
  · obtain ⟨t, ht⟩ := (exists_close_iff (s := ⟨s, pending⟩) hle).2 (hlist.symm ▸ hall)
    obtain ⟨hinv, hnone, -⟩ := close_eq_ok ht
    exact ⟨t, ht, hnone, hlist ▸ hinv.first_prefix, fun j => hlist ▸ hinv.mem_iff hnone⟩
  · obtain ⟨i, hi, j, hreach, hj⟩ := hmissing
    cases h : n.close ⟨s, pending⟩ with
    | ok t =>
      have hall := (exists_close_iff (s := ⟨s, pending⟩) hle).1 ⟨t, h⟩
      exact absurd (hall i (hlist.symm ▸ hi) j hreach) (Nat.not_lt.2 hj)
    | error f =>
      obtain ⟨i, hi, j, hreach, hj, rfl⟩ := close_eq_error (s := ⟨s, pending⟩) hle h
      exact ⟨i, hlist ▸ hi, j, hreach, hj, congrArg (fun b => Except.error (n.missing b j)) hbound⟩
  · obtain ⟨s', hs', hlist', hbound'⟩ := hinsert hperm
    refine ⟨s', hs', fun pending pending' t ht => ?_⟩
    exact exists_close_of_perm (s := ⟨s, pending⟩) (u := ⟨s', pending'⟩) hle (Nat.le_of_eq hbound'.symm)
      (show s'.toList.Perm s.toList from hlist.symm ▸ hlist'.symm ▸ hperm) ht

/-- Empty moves go round 0 and 1 and lead on to 2; the one from 3 leads to a number that is no state. -/
def pier : Nfa := ⟨#[⟨false, [], [1]⟩, ⟨false, [], [0, 2]⟩, ⟨true, [], []⟩, ⟨false, [], [4]⟩], 0⟩

theorem reflTransGen_pier_le {bound i j : Nat}
    (hstep : ∀ i ≤ bound, ∀ s ∈ pier.states[i]?, ∀ j ∈ s.empties, j ≤ bound)
    (hreach : ReflTransGen pier.EmptyMove i j) (hi : i ≤ bound) : j ≤ bound := by
  induction hreach with
  | refl => exact hi
  | tail _ hmove ih =>
    obtain ⟨s, hs, hj⟩ := hmove
    exact hstep _ ih s hs _ hj

/-- From 2 and 0 the search finds 1 and is done; from 0 and 3 it comes upon the number 4. -/
theorem close_reaches_pier :
    ([2, 0].Nodup ∧ (∀ i ∈ [2, 0], i < pier.size) ∧ ∃ s, insertAll pier.stateSet [2, 0] = .ok s ∧
      ∀ pending, ∃ t, pier.close ⟨s, pending⟩ = .ok t ∧ t.pending = [] ∧ [2, 0] <+: t.found.toList ∧
        ∀ j, j ∈ t.found.toList ↔ j ≤ 2) ∧
    [0, 3].Nodup ∧ (∀ i ∈ [0, 3], i < pier.size) ∧ ∃ s, insertAll pier.stateSet [0, 3] = .ok s ∧
      ∀ pending, pier.close ⟨s, pending⟩ = .error (.noSuchState 4 4) := by
  refine ⟨⟨by decide, by decide, ?_⟩, by decide, by decide, ?_⟩
  · have hle : ∀ i ∈ [2, 0], ∀ j, ReflTransGen pier.EmptyMove i j → j ≤ 2 := fun i hi j hreach =>
      reflTransGen_pier_le (by decide) hreach ((by decide : ∀ i ∈ [2, 0], i ≤ 2) i hi)
    obtain ⟨s, hs, -, -, hok, -⟩ := close_reaches pier [2, 0] (by decide) (by decide)
    refine ⟨s, hs, fun pending => ?_⟩
    obtain ⟨t, ht, hnone, hfirst, hclosure⟩ :=
      hok (fun i hi j hreach => Nat.lt_of_le_of_lt (hle i hi j hreach) (by decide)) pending
    refine ⟨t, ht, hnone, hfirst, fun j => ⟨fun hj => ?_, fun hj => (hclosure j).2 ?_⟩⟩
    · obtain ⟨i, hi, hreach⟩ := (hclosure j).1 hj
      exact hle i hi j hreach
    · rcases (by omega : j = 0 ∨ j = 1 ∨ j = 2) with rfl | rfl | rfl
      · exact ⟨0, by decide, .refl⟩
      · exact ⟨0, by decide, .single ⟨⟨false, [], [1]⟩, rfl, by decide⟩⟩
      · exact ⟨2, by decide, .refl⟩
  · have hle : ∀ i ∈ [0, 3], ∀ j, ReflTransGen pier.EmptyMove i j → j ≤ 4 := fun i hi j hreach =>
      reflTransGen_pier_le (by decide) hreach ((by decide : ∀ i ∈ [0, 3], i ≤ 4) i hi)
    have hmissing : ∃ i ∈ [0, 3], ∃ j, ReflTransGen pier.EmptyMove i j ∧ pier.size ≤ j :=
      ⟨3, by decide, 4, .single ⟨⟨false, [], [4]⟩, rfl, by decide⟩, by decide⟩
    obtain ⟨s, hs, -, -, -, herror, -⟩ := close_reaches pier [0, 3] (by decide) (by decide)
    refine ⟨s, hs, fun pending => ?_⟩
    obtain ⟨i, hi, j, hreach, hge, hclose⟩ := herror hmissing pending
    obtain rfl : j = 4 := Nat.le_antisymm (hle i hi j hreach) hge
    exact hclose

end Nfa
end PatternAutomata
