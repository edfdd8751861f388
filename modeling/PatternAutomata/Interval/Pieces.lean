import PatternAutomata.Ascending
import PatternAutomata.Interval
/-!
# Pieces — the coarsest split of overlapping intervals

A set of intervals cuts the alphabet before each first character and behind each last one.  Between two neighbouring
cuts no interval begins or ends, so each interval holds all of the characters there or none of them
(`mem_iff_lo_mem_of_mem_pieces`); `Interval.pieces` keeps the stretches that some interval holds, so it covers the same
characters (`covers_pieces`).
-/
namespace PatternAutomata
namespace Interval

/-- The ordinals at which an interval starts or stops, ascending. -/
def cuts (intervals : List Interval) : List Nat := ascending (intervals.flatMap fun i => [i.start, i.stop])

/-- The characters between two cuts, if some interval holds the first of them. -/
def piece? (intervals : List Interval) (start stop : Nat) : Option Interval :=
  (ofOrdinals? start stop).filter fun piece => intervals.any (·.contains piece.lo)

/-- The stretches between neighbouring cuts that the intervals cover, in ascending order. -/
def pieces (intervals : List Interval) : List Interval :=
  let cuts := cuts intervals
  (cuts.zip cuts.tail).filterMap fun (start, stop) => piece? intervals start stop

theorem mem_cuts {intervals : List Interval} {n : Nat} :
    n ∈ cuts intervals ↔ ∃ i ∈ intervals, n = i.start ∨ n = i.stop := by
  rw [cuts, Ascending.mem_ascending, List.mem_flatMap]
  exact exists_congr fun i => and_congr_right fun _ => by
    rw [List.mem_cons, List.mem_singleton]

theorem mem_pieces {intervals : List Interval} {k : Interval} : k ∈ pieces intervals ↔
    (k.start, k.stop) ∈ (cuts intervals).zip (cuts intervals).tail ∧ Covers intervals k.lo := by
  rw [pieces, List.mem_filterMap]
  constructor
  · rintro ⟨⟨a, b⟩, hab, h⟩
    obtain ⟨h, hany⟩ := Option.filter_eq_some_iff.1 h
    obtain ⟨rfl, rfl⟩ := ofOrdinals?_eq_some.1 h
    obtain ⟨i, hi, hc⟩ := List.any_eq_true.1 hany
    exact ⟨hab, i, hi, contains_iff.1 hc⟩
  · rintro ⟨hab, i, hi, hc⟩
    exact ⟨_, hab, Option.filter_eq_some_iff.2 ⟨ofOrdinals?_eq_some.2 ⟨rfl, rfl⟩,
      List.any_eq_true.2 ⟨i, hi, contains_iff.2 hc⟩⟩⟩

/-- **No interval splits a piece**: it holds the whole of it or none of it. -/
theorem mem_iff_lo_mem_of_mem_pieces {intervals : List Interval} {k i : Interval} {c : Char} (hk : k ∈ pieces intervals)
    (hi : i ∈ intervals) (hc : c ∈ k) : c ∈ i ↔ k.lo ∈ i := by
  obtain ⟨-, -, -, h⟩ := Ascending.le_or_ge_of_mem_zip_tail (Ascending.ascending _) (mem_pieces.1 hk).1
  have hstart := h i.start (mem_cuts.2 ⟨i, hi, .inl rfl⟩)
  have hstop := h i.stop (mem_cuts.2 ⟨i, hi, .inr rfl⟩)
  rw [mem_iff_ordinal] at hc ⊢
  rw [mem_iff_ordinal]
  have := k.start_lt_stop
  have : (k.lo.ordinal : Nat) = k.start := rfl
  omega

/-- **The pieces cover the same characters.** -/
theorem covers_pieces {intervals : List Interval} {c : Char} : Covers (pieces intervals) c ↔ Covers intervals c := by
  constructor
  · rintro ⟨k, hk, hc⟩
    obtain ⟨i, hi, hlo⟩ := (mem_pieces.1 hk).2
    exact ⟨i, hi, (mem_iff_lo_mem_of_mem_pieces hk hi hc).2 hlo⟩
  · rintro ⟨i, hi, hc⟩
    have hcuts : Ascending (cuts intervals) := Ascending.ascending _
    have ⟨hstart, hstop⟩ := mem_iff_ordinal.1 hc
    obtain ⟨a, b, hab, ha, hb⟩ := Ascending.exists_mem_zip_tail hcuts (mem_cuts.2 ⟨i, hi, .inl rfl⟩)
      (mem_cuts.2 ⟨i, hi, .inr rfl⟩) hstart hstop
    obtain ⟨hlt, -, hmem, h⟩ := Ascending.le_or_ge_of_mem_zip_tail hcuts hab
    have hle : b ≤ Char.numCodePoints := by
      obtain ⟨j, -, rfl | rfl⟩ := mem_cuts.1 hmem
      · exact Nat.le_trans (Nat.le_of_lt j.start_lt_stop) j.stop_le
      · exact j.stop_le
    obtain ⟨k, hk⟩ : ∃ k, ofOrdinals? a b = some k := ⟨_, dif_pos ⟨hlt, hle⟩⟩
    obtain ⟨rfl, rfl⟩ := ofOrdinals?_eq_some.1 hk
    refine ⟨k, mem_pieces.2 ⟨hab, i, hi, mem_iff_ordinal.2 ?_⟩, mem_iff_ordinal.2 ⟨ha, hb⟩⟩
    have := h i.start (mem_cuts.2 ⟨i, hi, .inl rfl⟩)
    have : (k.lo.ordinal : Nat) = k.start := rfl
    omega

/-- Pieces are disjoint and in order. -/
theorem pairwise_pieces (intervals : List Interval) : (pieces intervals).Pairwise fun i j => i.stop ≤ j.start := by
  have hcuts : Ascending (cuts intervals) := Ascending.ascending _
  refine List.pairwise_filterMap.2 (hcuts.pairwise_zip_tail.imp fun {p q} h i hi j hj => ?_)
  obtain ⟨hi, -⟩ := Option.filter_eq_some_iff.1 hi
  obtain ⟨hj, -⟩ := Option.filter_eq_some_iff.1 hj
  rw [(ofOrdinals?_eq_some.1 hi).2, (ofOrdinals?_eq_some.1 hj).1]
  exact h

end Interval
end PatternAutomata
