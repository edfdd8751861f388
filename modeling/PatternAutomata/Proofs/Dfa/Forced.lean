import PatternAutomata.Dfa.Forced
import PatternAutomata.Proofs.Dfa.Run
/-!
# Forced — what forced runs depend on

The destinations of a state and the interval around its moves can be told from where the characters lead, so automata
that agree on that have the same forced runs and the same forced positions (`Agree.offsets_eq`).  A run stays within the
states (`WellFormed.fork_lt`).
-/
namespace PatternAutomata
namespace Dfa

namespace State

variable {s s' : State} {t : Nat} {c : Char} {r : Interval}

theorem mem_destinations (hs : s.Ordered) : t ∈ s.destinations ↔ ∃ c, s.next? c = some t := by
  simp only [destinations, Ascending.mem_ascending, List.mem_map, Array.mem_toList_iff, next?_eq_some hs]
  constructor
  · rintro ⟨m, hm, rfl⟩
    exact ⟨m.1.lo, m, hm, m.1.lo_mem, rfl⟩
  · rintro ⟨c, m, hm, -, rfl⟩
    exact ⟨m, hm, rfl⟩

theorem destinations_congr (hs : s.Ordered) (hs' : s'.Ordered) (h : ∀ c, s.next? c = s'.next? c) :
    s.destinations = s'.destinations := by
  refine Ascending.ext (Ascending.ascending _) (Ascending.ascending _) fun t => ?_
  simp only [mem_destinations hs, mem_destinations hs', h]

theorem span_eq_none (h : s.span = none) : s.moves.size = 0 := by
  refine Nat.eq_zero_of_not_pos fun hpos => ?_
  unfold span at h
  rw [Array.back?, Array.getElem?_eq_getElem hpos, Array.getElem?_eq_getElem (Nat.sub_lt hpos Nat.one_pos)] at h
  cases h

/-- All moves lie between the first and the last. -/
theorem Ordered.between (hs : s.Ordered) {i : Nat} (hi : i < s.moves.size) :
    s.moves[0].1.start ≤ s.moves[i].1.start ∧ s.moves[i].1.stop ≤ s.moves[s.moves.size - 1].1.stop := by
  constructor
  · by_cases h : 0 < i
    · have := hs.stop_le_start h hi
      have := s.moves[0].1.start_lt_stop
      omega
    · obtain rfl : i = 0 := by omega
      exact Nat.le_refl _
  · by_cases h : i < s.moves.size - 1
    · have := hs.stop_le_start h (by omega)
      have := s.moves[s.moves.size - 1].1.start_lt_stop
      omega
    · obtain rfl : i = s.moves.size - 1 := by omega
      exact Nat.le_refl _

/-- **The span is the smallest interval around the characters with a move**: both its bounds have one. -/
theorem span_eq_some (hs : s.Ordered) (h : s.span = some r) :
    (∃ t, s.next? r.lo = some t) ∧ (∃ t, s.next? r.hi = some t) ∧ ∀ c t, s.next? c = some t → c ∈ r := by
  have hpos : 0 < s.moves.size := Nat.pos_of_ne_zero fun hzero => by
    unfold span at h
    rw [Array.getElem?_eq_none (Nat.le_of_eq hzero)] at h
    cases h
  unfold span at h
  rw [Array.back?, Array.getElem?_eq_getElem hpos, Array.getElem?_eq_getElem (Nat.sub_lt hpos Nat.one_pos)] at h
  cases h
  have hlast := (hs.between (i := s.moves.size - 1) (Nat.sub_lt hpos Nat.one_pos)).1
  have hfirst := (hs.between hpos).2
  have hstart := Interval.start_span (j := s.moves[s.moves.size - 1].1) (Char.le_iff_ordinal_le.2 hlast)
  have hstop := Interval.stop_span s.moves[0].1 s.moves[s.moves.size - 1].1
  rw [Nat.max_eq_right hfirst] at hstop
  refine ⟨?_, ?_, fun c t hc => ?_⟩
  · refine ⟨_, (next?_eq_some hs).2 ⟨s.moves[0], Array.getElem_mem hpos, Interval.mem_iff_ordinal.2 ?_, rfl⟩⟩
    exact ⟨Nat.le_of_eq hstart.symm, by have := s.moves[0].1.start_lt_stop; change Interval.start _ < _; omega⟩
  · refine ⟨_, (next?_eq_some hs).2
      ⟨s.moves[s.moves.size - 1], Array.getElem_mem _, Interval.mem_iff_ordinal.2 ?_, rfl⟩⟩
    have := s.moves[s.moves.size - 1].1.start_lt_stop
    have hhi : ((s.moves[0].1.span s.moves[s.moves.size - 1].1).hi.ordinal : Nat) + 1 = _ := hstop
    omega
  · obtain ⟨m, hm, hcm, -⟩ := (next?_eq_some hs).1 hc
    obtain ⟨i, hi, rfl⟩ := Array.mem_iff_getElem.1 hm
    have := hs.between hi
    have := Interval.mem_iff_ordinal.1 hcm
    exact Interval.mem_iff_ordinal.2 ⟨by omega, by omega⟩

theorem span_congr (hs : s.Ordered) (hs' : s'.Ordered) (h : ∀ c, s.next? c = s'.next? c) : s.span = s'.span := by
  have hnone {s s' : State} (hs' : s'.Ordered) (h : ∀ c, s.next? c = s'.next? c) (hspan : s.span = none) :
      s'.span = none := by
    cases hspan' : s'.span with
    | none => rfl
    | some r =>
      obtain ⟨⟨t, ht⟩, -⟩ := span_eq_some hs' hspan'
      rw [← h] at ht
      unfold next? at ht
      rw [Array.getElem?_eq_none (by rw [span_eq_none hspan]; exact Nat.zero_le _)] at ht
      cases ht
  cases hspan : s.span with
  | none => rw [hnone hs' h hspan]
  | some r =>
    cases hspan' : s'.span with
    | none =>
      rw [hnone hs (fun c => (h c).symm) hspan'] at hspan
      cases hspan
    | some r' =>
      obtain ⟨⟨t₁, h₁⟩, ⟨t₂, h₂⟩, hmem⟩ := span_eq_some hs hspan
      obtain ⟨⟨t₁', h₁'⟩, ⟨t₂', h₂'⟩, hmem'⟩ := span_eq_some hs' hspan'
      have hlo := (hmem' _ t₁ (h r.lo ▸ h₁)).1
      have hhi := (hmem' _ t₂ (h r.hi ▸ h₂)).2
      have hlo' := (hmem _ t₁' (h r'.lo ▸ h₁')).1
      have hhi' := (hmem _ t₂' (h r'.hi ▸ h₂')).2
      exact congrArg some (Interval.ext (Char.le_antisymm hlo' hlo) (Char.le_antisymm hhi hhi'))

end State

namespace WellFormed

variable {d : Dfa} (hd : d.WellFormed) {i t : Nat}

include hd

theorem destination_lt (ht : t ∈ (d.state i).destinations) : t < d.size := by
  obtain ⟨c, hc⟩ := (State.mem_destinations (hd.ordered i)).1 ht
  exact hd.next_lt hc

/-- A run that ends in a fork ends in a state. -/
theorem fork_lt {limit fork : Nat} {visited : List Nat} {last : Option Offset} (hi : i < d.size)
    (h : (d.forcedFrom limit visited last i).2 = .fork fork) : fork < d.size := by
  fun_induction forcedFrom d limit visited last i with
  | case1 => cases h
  | case2 => cases h
  | case3 => cases h
  | case4 _ _ _ _ _ _ next _ _ hdests ih => exact ih (hd.destination_lt (hdests ▸ List.mem_cons_self)) h
  | case5 => cases h
  | case6 => cases h
  | case7 => cases h; exact hi

end WellFormed

namespace Agree

variable {d e : Dfa} (h : d.Agree e) (hd : d.WellFormed) (he : e.WellFormed)

include h hd he

theorem destinations_eq (i : Nat) : (d.state i).destinations = (e.state i).destinations :=
  State.destinations_congr (hd.ordered i) (he.ordered i) (h.next?_eq i)

theorem span_eq (i : Nat) : (d.state i).span = (e.state i).span :=
  State.span_congr (hd.ordered i) (he.ordered i) (h.next?_eq i)

theorem forcedFrom_eq (limit : Nat) (visited : List Nat) (last : Option Offset) (current : Nat) :
    d.forcedFrom limit visited last current = e.forcedFrom limit visited last current := by
  induction limit generalizing visited last current with
  | zero => rfl
  | succ limit ih =>
    simp only [forcedFrom, h.accepting_eq, h.destinations_eq hd he, h.span_eq hd he, ih]

theorem forcedRun_eq (start : Nat) : d.forcedRun start = e.forcedRun start := by
  unfold forcedRun
  rw [h.size_eq, h.forcedFrom_eq hd he]

theorem offset_eq : d.offset = e.offset := by
  unfold offset
  rw [h.forcedRun_eq hd he]

theorem runStarts_eq : d.runStarts = e.runStarts := by
  have hsuccessors (i : Nat) : d.successors i = e.successors i := by
    simp only [successors, h.forcedRun_eq hd he, h.destinations_eq hd he]
  unfold runStarts
  simp only [h.size_eq, hsuccessors]

/-- **Automata that agree have the same forced positions.** -/
theorem offsets_eq : d.offsets = e.offsets := by
  unfold offsets
  rw [h.runStarts_eq hd he]
  congr 1
  funext i
  rw [h.forcedRun_eq hd he]

end Agree

end Dfa
end PatternAutomata
