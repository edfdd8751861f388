import PatternAutomata.Interval.Compact
import PatternAutomata.Proofs.Interval.Pieces
/-!
# Compact — one list of runs for each set of characters

Two runs are apart when a character lies between them that neither holds, and then none of the others holds it either
(`Apart.exists_gap`).  So an interval of covered characters cannot reach from one run into another: it lies within one
(`Apart.exists_run`).  Two things follow.  Runs that are apart are the largest intervals of covered characters, hence
decided by what is covered (`Apart.eq_of_covers`), and no list of intervals over the same characters is shorter
(`Apart.length_le`).
-/
namespace PatternAutomata
namespace Interval

/-- In order, and neither overlapping nor adjoining one another. -/
def Apart (runs : List Interval) : Prop := runs.Pairwise fun i j => i.stop < j.start

variable {runs others parts intervals : List Interval} {i j q : Interval} {c : Char}

namespace Apart

variable (h : Apart runs)

include h

theorem pairwise_stop_le : runs.Pairwise fun i j => i.stop ≤ j.start := h.imp Nat.le_of_lt

theorem eq_or_lt (hi : i ∈ runs) (hj : j ∈ runs) : i = j ∨ i.stop < j.start ∨ j.stop < i.start := by
  have hapart : runs.Pairwise fun a b => a.stop < b.start ∨ b.stop < a.start := h.imp Or.inl
  have : Std.Symm fun a b : Interval => a.stop < b.start ∨ b.stop < a.start := ⟨fun _ _ h => h.symm⟩
  exact or_iff_not_imp_left.2 fun hne => hapart.forall hi hj hne

theorem not_covers_of_ordinal_eq (hi : i ∈ runs) (hc : (c.ordinal : Nat) = i.stop) : ¬ Covers runs c := by
  rintro ⟨j, hj, hcj⟩
  rw [mem_iff_ordinal] at hcj
  have := i.start_lt_stop
  rcases h.eq_or_lt hi hj with rfl | hlt | hlt <;> omega

/-- **Between two runs there is a character that none holds.** -/
theorem exists_gap (hi : i ∈ runs) (hij : i.stop < j.start) : ∃ c, i.hi < c ∧ c < j.lo ∧ ¬ Covers runs c := by
  have hlt : i.stop < Char.numCodePoints := Nat.lt_trans hij j.lo.ordinal.isLt
  have hordinal : ((Char.ofOrdinal ⟨i.stop, hlt⟩).ordinal : Nat) = i.stop := by rw [Char.ordinal_ofOrdinal]
  refine ⟨Char.ofOrdinal ⟨i.stop, hlt⟩, ?_, ?_, h.not_covers_of_ordinal_eq hi hordinal⟩
  · rw [Char.lt_iff_ordinal_lt, Fin.lt_def, hordinal]
    exact Nat.lt_succ_self _
  · rw [Char.lt_iff_ordinal_lt, Fin.lt_def, hordinal]
    exact hij

/-- **An interval of covered characters lies within a run.** -/
theorem exists_run (hq : ∀ c ∈ q, Covers runs c) : ∃ i ∈ runs, ∀ c ∈ q, c ∈ i := by
  obtain ⟨i, hi, hlo⟩ := hq q.lo q.lo_mem
  refine ⟨i, hi, ?_⟩
  rw [mem_iff_ordinal] at hlo
  have hstart : (q.lo.ordinal : Nat) = q.start := rfl
  -- the character behind the run is not covered, so it is none of the interval's
  have hstop : q.stop ≤ i.stop := by
    by_contra hlt
    have hcode : i.stop < Char.numCodePoints := Nat.lt_of_lt_of_le (Nat.lt_of_not_le hlt) q.stop_le
    have hordinal : ((Char.ofOrdinal ⟨i.stop, hcode⟩).ordinal : Nat) = i.stop := by rw [Char.ordinal_ofOrdinal]
    refine h.not_covers_of_ordinal_eq hi hordinal (hq _ (mem_iff_ordinal.2 ?_))
    omega
  intro c hc
  rw [mem_iff_ordinal] at hc ⊢
  omega

theorem mem_of_covers (hothers : Apart others) (hcovers : ∀ c, Covers others c ↔ Covers runs c) (hi : i ∈ runs) :
    i ∈ others := by
  obtain ⟨j, hj, hij⟩ := hothers.exists_run (q := i) fun c hc => (hcovers c).2 ⟨i, hi, hc⟩
  obtain ⟨k, hk, hjk⟩ := h.exists_run (q := j) fun c hc => (hcovers c).1 ⟨j, hj, hc⟩
  -- `i` lies within `j`, and `j` within a run, which can only be `i`
  obtain rfl : i = k := eq_of_mem_both h.pairwise_stop_le hi hk i.lo_mem (hjk _ (hij _ i.lo_mem))
  have hlo := hij _ i.lo_mem
  have hhi := hij _ i.hi_mem
  have hlo' := hjk _ j.lo_mem
  have hhi' := hjk _ j.hi_mem
  have heq : i = j := ext (Char.le_antisymm hlo'.1 hlo.1) (Char.le_antisymm hhi.2 hhi'.2)
  exact heq ▸ hj

/-- **Runs that are apart are decided by the characters they cover.** -/
theorem eq_of_covers (hothers : Apart others) (hcovers : ∀ c, Covers others c ↔ Covers runs c) : others = runs := by
  have hlt {is : List Interval} (his : Apart is) : is.Pairwise fun i j => i.start < j.start :=
    his.imp fun {i j} hij => Nat.lt_trans i.start_lt_stop hij
  refine eq_of_pairwise_lt start (hlt hothers) (hlt h) fun i => ⟨fun hi => ?_, h.mem_of_covers hothers hcovers⟩
  exact hothers.mem_of_covers h (fun c => (hcovers c).symm) hi

/-- **No list of intervals over the same characters is shorter** than runs that are apart. -/
theorem length_le (hcovers : ∀ c, Covers parts c ↔ Covers runs c) : runs.length ≤ parts.length :=
  length_le_of_within h.pairwise_stop_le (fun i hi => (hcovers i.lo).2 ⟨i, hi, i.lo_mem⟩) fun q hq =>
    h.exists_run fun c hc => (hcovers c).1 ⟨q, hq, hc⟩

end Apart

/-- **The compact list is canonical** for the characters that some intervals cover: it covers these characters, in
order, with a character left out between any two of its members, and each interval of such characters lies within a
member.  It is the same for all lists over these characters, and none of them is shorter. -/
theorem compact_canonical (intervals : List Interval) :
    (∀ c, Covers (compact intervals) c ↔ Covers intervals c) ∧
    ((compact intervals).Pairwise fun i j => i.lo < j.lo ∧ ∃ c, i.hi < c ∧ c < j.lo ∧ ¬ Covers intervals c) ∧
    (∀ q : Interval, (∀ c ∈ q, Covers intervals c) → ∃ i ∈ compact intervals, ∀ c ∈ q, c ∈ i) ∧
    (∀ others, (∀ c, Covers others c ↔ Covers intervals c) →
      compact others = compact intervals ∧ (compact intervals).length ≤ others.length) ∧
    compact (compact intervals) = compact intervals := by
  have hapart (is : List Interval) : Apart (compact is) := apart_compact is
  have hcompact (others : List Interval) (hothers : ∀ c, Covers others c ↔ Covers intervals c) :
      compact others = compact intervals :=
    (hapart intervals).eq_of_covers (hapart others) fun c => by rw [covers_compact, covers_compact, hothers]
  refine ⟨fun c => covers_compact, ?_, fun q hq => ?_, fun others hothers => ⟨hcompact others hothers, ?_⟩,
    hcompact _ fun c => covers_compact⟩
  · refine List.Pairwise.imp_of_mem (fun {i j} hi _ hij => ?_) (hapart intervals)
    obtain ⟨c, hic, hcj, hc⟩ := (hapart intervals).exists_gap hi hij
    exact ⟨Std.lt_of_le_of_lt i.lo_le_hi (Char.lt_trans hic hcj), c, hic, hcj, fun h => hc (covers_compact.2 h)⟩
  · exact (hapart intervals).exists_run fun c hc => covers_compact.2 (hq c hc)
  · exact (hapart intervals).length_le fun c => by rw [covers_compact, hothers]

/-- No character lies between D7FF and E000, so intervals that meet there cover one run. -/
theorem compact_canonical_surrogates :
    let met : List Interval := [⟨'\uE000', '\uE005', by decide⟩, ⟨'a', '\uD7FF', by decide⟩, ⟨'m', 'p', by decide⟩]
    let joined : List Interval := [⟨'a', '\uE005', by decide⟩]
    (∀ c, Covers joined c ↔ Covers met c) ∧ compact joined = compact met ∧ compact met = joined ∧
      (compact met).length ≤ joined.length := by
  intro met joined
  have hmet : compact met = joined := by decide +kernel
  have hcovers (c : Char) : Covers joined c ↔ Covers met c := by rw [← hmet, covers_compact]
  obtain ⟨heq, hlen⟩ := (compact_canonical met).2.2.2.1 joined hcovers
  exact ⟨hcovers, heq, hmet, hlen⟩

end Interval
end PatternAutomata
