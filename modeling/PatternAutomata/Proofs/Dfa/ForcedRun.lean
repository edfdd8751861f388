import PatternAutomata.IndexSet
import PatternAutomata.Proofs.Dfa.Forced
/-!
# ForcedRun — what a forced run is

A forced run goes from state to state as long as each rejects, has one destination only and has not been passed before
(`Follows`), and where it can go no further it ends for one of four reasons (`Ends`).  It passes each state once, so it
does end (`exists_ends`), and the walk finds nothing else: the last position of that run, and how it ends
(`forcedRun_eq_iff`).

A run gets stuck where there is no way out, or where it comes round to a state that it has passed.  In the second case
every state of the circle rejects and leads nowhere else, so from a state that gets stuck nothing is accepted
(`Follows.ne_stuck`).
-/
namespace PatternAutomata
namespace Dfa

/-- The forced run from `start` comes to a state, having passed the states `passed`, the latest first. -/
inductive Follows (d : Dfa) (start : Nat) : (passed : List Nat) → (current : Nat) → Prop where
  | here : Follows d start [] start
  | step {passed : List Nat} {i j : Nat} (before : Follows d start passed i)
      (rejecting : (d.state i).accepting = false) (first : i ∉ passed) (only : (d.state i).destinations = [j]) :
      Follows d start (i :: passed) j

/-- How a run that has passed the states `passed` ends in state `i`. -/
inductive Ends (d : Dfa) (passed : List Nat) (i : Nat) : RunEnd → Prop where
  | accepting (accepting : (d.state i).accepting = true) : Ends d passed i .accepting
  | fork (rejecting : (d.state i).accepting = false) (first : i ∉ passed)
      (several : 1 < (d.state i).destinations.length) : Ends d passed i (.fork i)
  | noWayOut (rejecting : (d.state i).accepting = false) (first : i ∉ passed)
      (none : (d.state i).destinations = []) : Ends d passed i .stuck
  | again (rejecting : (d.state i).accepting = false) (again : i ∈ passed) : Ends d passed i .stuck

/-- The last position of a run that has passed some states, the latest first: how many it passed before, and the span of
the moves out of that state. -/
def lastOffset (d : Dfa) : (passed : List Nat) → Option Offset
  | [] => none
  | i :: passed => (d.state i).span.map (⟨passed.length, ·⟩)

variable {d : Dfa} {s i j : Nat} {passed : List Nat} {e : RunEnd} {o : Option Offset}

namespace State

variable {t : State} {x : Nat}

theorem moves_size_pos_of_mem_destinations (h : x ∈ t.destinations) : 0 < t.moves.size := by
  rw [destinations, Ascending.mem_ascending, List.mem_map] at h
  obtain ⟨m, hm, -⟩ := h
  exact Array.size_pos_of_mem (Array.mem_toList_iff.1 hm)

theorem exists_span_of_mem_destinations (h : x ∈ t.destinations) : ∃ r, t.span = some r := by
  refine Option.ne_none_iff_exists'.1 fun hnone => ?_
  have := moves_size_pos_of_mem_destinations h
  rw [span_eq_none hnone] at this
  exact Nat.lt_irrefl 0 this

theorem nodup_destinations (t : State) : t.destinations.Nodup := (Ascending.ascending _).nodup

end State

theorem lt_size_of_destinations (h : (d.state i).destinations = [j]) : i < d.size := by
  refine Nat.lt_of_not_le fun hle => ?_
  have hpos := State.moves_size_pos_of_mem_destinations (t := d.state i) (x := j) (by rw [h]; exact List.mem_cons_self)
  rw [state_of_size_le hle] at hpos
  exact Nat.lt_irrefl 0 hpos

/-! ## What a run has passed -/

theorem Follows.nodup (h : Follows d s passed i) : passed.Nodup := by
  induction h with
  | here => exact List.nodup_nil
  | step _ _ first _ ih => exact List.nodup_cons.2 ⟨first, ih⟩

/-- **The states passed** reject and have one destination each, which has been passed too or is where the run is. -/
theorem Follows.of_mem (h : Follows d s passed i) {k : Nat} (hk : k ∈ passed) :
    (d.state k).accepting = false ∧ ∃ j, (d.state k).destinations = [j] ∧ (j = i ∨ j ∈ passed) := by
  induction h with
  | here => cases hk
  | step _ rejecting _ only ih =>
    rcases List.mem_cons.1 hk with rfl | hk
    · exact ⟨rejecting, _, only, .inl rfl⟩
    · obtain ⟨hrejecting, j, hj, hpassed⟩ := ih hk
      exact ⟨hrejecting, j, hj, .inr (List.mem_cons.2 hpassed)⟩

theorem Follows.length_le (h : Follows d s passed i) : passed.length ≤ d.size :=
  length_le_of_nodup_of_lt h.nodup fun _ hk => by
    obtain ⟨-, _, hj, -⟩ := h.of_mem hk
    exact lt_size_of_destinations hj

theorem Follows.lt_size (hd : d.WellFormed) (hs : s < d.size) (h : Follows d s passed i) : i < d.size := by
  cases h with
  | here => exact hs
  | step _ _ _ only => exact hd.destination_lt (only ▸ List.mem_cons_self)

theorem Follows.start_mem (h : Follows d s passed i) (hne : passed ≠ []) : s ∈ passed := by
  induction h with
  | here => exact absurd rfl hne
  | @step passed i j before _ _ _ ih =>
    by_cases hpassed : passed = []
    · subst hpassed
      cases before
      exact List.mem_cons_self
    · exact List.mem_cons_of_mem _ (ih hpassed)

theorem Follows.lastOffset_eq_none (h : Follows d s passed i) : d.lastOffset passed = none ↔ passed = [] := by
  cases h with
  | here => exact iff_of_true rfl rfl
  | step _ _ _ only =>
    obtain ⟨r, hr⟩ := State.exists_span_of_mem_destinations (only ▸ List.mem_cons_self)
    rw [lastOffset, hr]
    exact iff_of_false (by simp) (by simp)

/-! ## Runs end -/

theorem ends_or_goes_on (d : Dfa) (passed : List Nat) (i : Nat) : (∃ e, Ends d passed i e) ∨
    (d.state i).accepting = false ∧ i ∉ passed ∧ ∃ j, (d.state i).destinations = [j] := by
  cases haccepting : (d.state i).accepting with
  | true => exact .inl ⟨_, .accepting haccepting⟩
  | false =>
    by_cases hpassed : i ∈ passed
    · exact .inl ⟨_, .again haccepting hpassed⟩
    · rcases hdests : (d.state i).destinations with _ | ⟨j, _ | ⟨k, rest⟩⟩
      · exact .inl ⟨_, .noWayOut haccepting hpassed hdests⟩
      · exact .inr ⟨rfl, hpassed, j, rfl⟩
      · exact .inl ⟨_, .fork haccepting hpassed (by rw [hdests]; exact Nat.succ_lt_succ (Nat.succ_pos _))⟩

/-- **Every run ends**, since it passes no state twice. -/
theorem Follows.exists_ends (h : Follows d s passed i) : ∃ passed i e, Follows d s passed i ∧ Ends d passed i e := by
  induction hleft : d.size - passed.length using Nat.strongRecOn generalizing passed i with
  | ind left ih =>
    rcases ends_or_goes_on d passed i with ⟨e, he⟩ | ⟨hrejecting, hfirst, j, hj⟩
    · exact ⟨passed, i, e, h, he⟩
    · have hstep := h.step hrejecting hfirst hj
      have hlen := hstep.length_le
      rw [List.length_cons] at hlen
      exact ih _ (by rw [← hleft, List.length_cons]; omega) hstep rfl

/-! ## The walk -/

/-- **The walk follows the run**: it passes the same states, and it has not reached its limit. -/
theorem Follows.forcedRun_eq (h : Follows d s passed i) : ∃ limit, passed.length + limit = d.size ∧
    d.forcedRun s = d.forcedFrom (limit + 1) passed (d.lastOffset passed) i := by
  induction h with
  | here => exact ⟨d.size, Nat.zero_add _, rfl⟩
  | @step passed i j before rejecting first only ih =>
    obtain ⟨limit, hlimit, hrun⟩ := ih
    have hlen := (before.step rejecting first only).length_le
    rw [List.length_cons] at hlen
    obtain ⟨limit, rfl⟩ : ∃ l, limit = l + 1 := ⟨limit - 1, by omega⟩
    obtain ⟨r, hr⟩ := State.exists_span_of_mem_destinations (t := d.state i) (only ▸ List.mem_cons_self)
    refine ⟨limit, by rw [List.length_cons]; omega, ?_⟩
    rw [hrun, forcedFrom, if_neg (by rw [rejecting]; exact Bool.false_ne_true), if_neg first, only, hr, lastOffset, hr]
    rfl

theorem Ends.forcedFrom_eq (h : Ends d passed i e) (limit : Nat) (o : Option Offset) :
    d.forcedFrom (limit + 1) passed o i = (o, e) := by
  have hno (hrejecting : (d.state i).accepting = false) : ¬ (d.state i).accepting = true := by
    rw [hrejecting]
    exact Bool.false_ne_true
  rw [forcedFrom]
  cases h with
  | accepting haccepting => rw [if_pos haccepting]
  | again hrejecting hagain => rw [if_neg (hno hrejecting), if_pos hagain]
  | noWayOut hrejecting hfirst hnone => rw [if_neg (hno hrejecting), if_neg hfirst, hnone]
  | fork hrejecting hfirst hseveral =>
    rw [if_neg (hno hrejecting), if_neg hfirst]
    rcases hdests : (d.state i).destinations with _ | ⟨j, _ | ⟨k, rest⟩⟩
    · rw [hdests] at hseveral; cases hseveral
    · rw [hdests] at hseveral; exact absurd hseveral (Nat.lt_irrefl 1)
    · obtain ⟨r, hr⟩ := State.exists_span_of_mem_destinations (t := d.state i) (x := j) (by simp [hdests])
      rw [hr]

/-- **The walk finds the run's last position and how it ends**, and nothing else. -/
theorem forcedRun_eq_iff : d.forcedRun s = (o, e) ↔
    ∃ passed i, Follows d s passed i ∧ Ends d passed i e ∧ d.lastOffset passed = o := by
  have hfound {passed : List Nat} {i : Nat} {e : RunEnd} (h : Follows d s passed i) (he : Ends d passed i e) :
      d.forcedRun s = (d.lastOffset passed, e) := by
    obtain ⟨limit, -, hrun⟩ := h.forcedRun_eq
    rw [hrun, he.forcedFrom_eq]
  constructor
  · intro hrun
    obtain ⟨passed, i, e', h, he⟩ := Follows.here.exists_ends (d := d) (s := s)
    cases hrun.symm.trans (hfound h he)
    exact ⟨passed, i, h, he, rfl⟩
  · rintro ⟨passed, i, h, he, rfl⟩
    exact hfound h he

theorem forcedRun_ne_none : (d.forcedRun s).1 ≠ none ↔
    (d.state s).accepting = false ∧ ∃ j, (d.state s).destinations = [j] := by
  rcases hrun : d.forcedRun s with ⟨o, e⟩
  obtain ⟨passed, i, h, he, rfl⟩ := forcedRun_eq_iff.1 hrun
  rw [Ne, h.lastOffset_eq_none]
  constructor
  · intro hne
    obtain ⟨hrejecting, j, hj, -⟩ := h.of_mem (h.start_mem hne)
    exact ⟨hrejecting, j, hj⟩
  · rintro ⟨hrejecting, j, hj⟩ rfl
    cases h
    -- the run would end where it starts, but it can go on
    cases he with
    | accepting haccepting => rw [hrejecting] at haccepting; cases haccepting
    | fork _ _ hseveral => rw [hj] at hseveral; exact Nat.lt_irrefl 1 hseveral
    | noWayOut _ _ hnone => rw [hj] at hnone; cases hnone
    | again _ hagain => cases hagain

/-! ## Runs that get stuck -/

/-- Nothing is accepted from states that reject and lead only to one another. -/
theorem WellFormed.acceptsFrom_eq_false (hd : d.WellFormed) (ks : List Nat)
    (hks : ∀ k ∈ ks, (d.state k).accepting = false ∧ ∀ t ∈ (d.state k).destinations, t ∈ ks) (w : Word) :
    ∀ k ∈ ks, d.acceptsFrom k w = false := by
  induction w with
  | nil => exact fun k hk => (hks k hk).1
  | cons c w ih =>
    intro k hk
    rw [acceptsFrom_cons]
    cases hnext : (d.state k).next? c with
    | none => rfl
    | some t => exact ih t ((hks k hk).2 t ((State.mem_destinations (hd.ordered k)).2 ⟨c, hnext⟩))

/-- **No run gets stuck on the way to acceptance.** -/
theorem Follows.ne_stuck (hd : d.WellFormed) (hlive : ∀ i, i < d.size → ∃ w, d.acceptsFrom i w = true) (hs : s < d.size)
    (h : Follows d s passed i) (he : Ends d passed i e) : e ≠ .stuck := by
  obtain ⟨w, hw⟩ := hlive i (h.lt_size hd hs)
  rintro rfl
  cases he with
  | noWayOut hrejecting _ hnone =>
    have hdead := hd.acceptsFrom_eq_false [i] (fun k hk => by
      rw [List.mem_singleton.1 hk, hnone]
      exact ⟨hrejecting, fun t ht => absurd ht List.not_mem_nil⟩) w i List.mem_cons_self
    rw [hw] at hdead
    cases hdead
  | again hrejecting hagain =>
    have hdead := hd.acceptsFrom_eq_false passed (fun k hk => by
      obtain ⟨hrejecting, j, hj, hpassed⟩ := h.of_mem hk
      refine ⟨hrejecting, fun t ht => ?_⟩
      rw [hj, List.mem_singleton] at ht
      exact ht ▸ hpassed.elim (· ▸ hagain) id) w i hagain
    rw [hw] at hdead
    cases hdead

end Dfa
end PatternAutomata
