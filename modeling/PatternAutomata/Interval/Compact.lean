import PatternAutomata.Ascending
import PatternAutomata.Interval
/-!
# Compact — the fewest intervals over the same characters

`Interval.compact` takes the intervals in ascending order and joins each to the run before it unless a character lies
between the two.  The runs hold the same characters (`covers_compact`), and between any two of them there is a character
that none holds (`apart_compact`).
-/
namespace PatternAutomata
namespace Interval

/-- Joins the intervals to the run `i` while they overlap or adjoin it; the first one that does neither starts the next
run. -/
def joinRuns (i : Interval) : List Interval → List Interval
  | [] => [i]
  | j :: rest => if i.stop < j.start then i :: joinRuns j rest else joinRuns (i.span j) rest

/-- The runs of consecutive characters that the intervals cover, in ascending order. -/
def compact (intervals : List Interval) : List Interval :=
  match ascending intervals with
  | [] => []
  | i :: rest => joinRuns i rest

theorem lo_le_of_lt {i j : Interval} (h : compare i j = .lt) : i.lo ≤ j.lo := by
  have h : (compare i.lo j.lo).then (compare i.hi j.hi) = .lt := h
  rcases Ordering.then_eq_lt.1 h with h | h
  · exact Std.le_of_lt (compareOfLessAndEq_eq_lt.1 h)
  · exact Std.compare_eq_iff_eq.1 h.1 ▸ Char.le_refl i.lo

/-- An ascending list of intervals is one in the order of their first characters. -/
theorem pairwise_lo_le {intervals : List Interval} (h : Ascending intervals) :
    intervals.Pairwise fun i j => i.lo ≤ j.lo :=
  h.imp lo_le_of_lt

theorem start_le_of_lo_le {i j : Interval} (h : i.lo ≤ j.lo) : i.start ≤ j.start := Char.le_iff_ordinal_le.1 h

theorem lo_span {i j : Interval} (h : i.lo ≤ j.lo) : (i.span j).lo = i.lo := if_pos h

theorem covers_joinRuns {c : Char} : ∀ {i : Interval} {rest : List Interval},
    ((i :: rest).Pairwise fun i j => i.lo ≤ j.lo) → (Covers (joinRuns i rest) c ↔ Covers (i :: rest) c)
  | _, [], _ => Iff.rfl
  | i, j :: rest, h => by
    obtain ⟨hi, hrest⟩ := List.pairwise_cons.1 h
    have hij := hi j List.mem_cons_self
    unfold joinRuns
    split
    · rw [covers_cons, covers_cons, covers_joinRuns hrest]
    · rename_i hreach
      have hspan : ((i.span j) :: rest).Pairwise fun i j => i.lo ≤ j.lo :=
        List.pairwise_cons.2 ⟨fun k hk => lo_span hij ▸ hi k (List.mem_cons_of_mem _ hk),
          (List.pairwise_cons.1 hrest).2⟩
      rw [covers_joinRuns hspan, covers_cons, covers_cons, covers_cons, mem_span hij (Nat.not_lt.1 hreach), or_assoc]

/-- **The runs cover the same characters.** -/
theorem covers_compact {intervals : List Interval} {c : Char} : Covers (compact intervals) c ↔ Covers intervals c := by
  have hsorted := Ascending.ascending intervals
  have hmem : Covers (ascending intervals) c ↔ Covers intervals c :=
    exists_congr fun i => and_congr_left fun _ => Ascending.mem_ascending
  rw [← hmem, compact]
  cases h : ascending intervals with
  | nil => exact Iff.rfl
  | cons i rest => rw [h] at hsorted; exact covers_joinRuns (pairwise_lo_le hsorted)

theorem start_le_of_mem_joinRuns : ∀ {i : Interval} {rest : List Interval},
    ((i :: rest).Pairwise fun i j => i.lo ≤ j.lo) → ∀ k ∈ joinRuns i rest, i.start ≤ k.start
  | i, [], _, _, hk => List.mem_singleton.1 hk ▸ Nat.le_refl i.start
  | i, j :: rest, h, k, hk => by
    obtain ⟨hi, hrest⟩ := List.pairwise_cons.1 h
    have hij := hi j List.mem_cons_self
    unfold joinRuns at hk
    split at hk
    · rcases List.mem_cons.1 hk with rfl | hk
      · exact Nat.le_refl _
      · exact Nat.le_trans (start_le_of_lo_le hij) (start_le_of_mem_joinRuns hrest k hk)
    · have := start_le_of_mem_joinRuns
        (List.pairwise_cons.2 ⟨fun k hk => lo_span hij ▸ hi k (List.mem_cons_of_mem _ hk),
          (List.pairwise_cons.1 hrest).2⟩) k hk
      rwa [start, lo_span hij] at this

theorem apart_joinRuns : ∀ {i : Interval} {rest : List Interval},
    ((i :: rest).Pairwise fun i j => i.lo ≤ j.lo) → (joinRuns i rest).Pairwise fun i j => i.stop < j.start
  | i, [], _ => List.pairwise_singleton _ i
  | i, j :: rest, h => by
    obtain ⟨hi, hrest⟩ := List.pairwise_cons.1 h
    have hij := hi j List.mem_cons_self
    unfold joinRuns
    split
    · rename_i hgap
      exact List.pairwise_cons.2 ⟨fun k hk => Nat.lt_of_lt_of_le hgap (start_le_of_mem_joinRuns hrest k hk),
        apart_joinRuns hrest⟩
    · exact apart_joinRuns (List.pairwise_cons.2 ⟨fun k hk => lo_span hij ▸ hi k (List.mem_cons_of_mem _ hk),
        (List.pairwise_cons.1 hrest).2⟩)

/-- **Runs neither overlap nor adjoin.** -/
theorem apart_compact (intervals : List Interval) :
    (compact intervals).Pairwise fun i j => i.stop < j.start := by
  have hsorted := Ascending.ascending intervals
  rw [compact]
  cases h : ascending intervals with
  | nil => exact List.Pairwise.nil
  | cons i rest => rw [h] at hsorted; exact apart_joinRuns (pairwise_lo_le hsorted)

end Interval
end PatternAutomata
