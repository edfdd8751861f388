import Mathlib.Data.List.Nodup
import Mathlib.Data.List.Pairwise
import PatternAutomata.Interval.Pieces
/-!
# Pieces — no split is coarser

A split of some intervals covers the same characters, and none of the intervals holds only a part of one of its members
(`IsSplit`).  The pieces are a split, and each cut between two of them is needed: an interval begins or ends there, so no
member of a split reaches across it (`IsSplit.not_across`).  Hence the members of any split lie within pieces, and there
are at least as many of them (`pieces_coarsest`).
-/
namespace PatternAutomata
namespace Interval

/-- The parts cover what the intervals cover, and each interval holds the whole of a part or none of it. -/
structure IsSplit (parts intervals : List Interval) : Prop where
  covers : ∀ c, Covers parts c ↔ Covers intervals c
  whole : ∀ p ∈ parts, ∀ i ∈ intervals, (∀ c ∈ p, c ∈ i) ∨ ∀ c ∈ p, c ∉ i

variable {intervals others parts runs : List Interval} {p q : Interval} {a b c : Char} {x : Nat}

/-! ## Intervals one behind another -/

theorem eq_of_mem_both (hruns : runs.Pairwise fun p q => p.stop ≤ q.start) (hp : p ∈ runs) (hq : q ∈ runs)
    (hcp : c ∈ p) (hcq : c ∈ q) : p = q := by
  have hdisjoint : runs.Pairwise fun p q => ¬ (c ∈ p ∧ c ∈ q) := hruns.imp fun {p q} hpq ⟨hp, hq⟩ => by
    rw [mem_iff_ordinal] at hp hq
    omega
  have : Std.Symm fun p q : Interval => ¬ (c ∈ p ∧ c ∈ q) := ⟨fun _ _ h hs => h hs.symm⟩
  by_contra hne
  exact hdisjoint.forall hp hq hne ⟨hcp, hcq⟩

theorem nodup_of_pairwise (hruns : runs.Pairwise fun p q => p.stop ≤ q.start) : runs.Nodup :=
  hruns.imp fun {p q} h heq => by
    have := p.start_lt_stop
    rw [heq] at h this
    omega

/-- **Where each part lies within a run, there are no fewer parts than runs**: the parts that hold the first characters
of the runs are all different. -/
theorem length_le_of_within (hruns : runs.Pairwise fun p q => p.stop ≤ q.start) (hlo : ∀ p ∈ runs, Covers parts p.lo)
    (hwithin : ∀ q ∈ parts, ∃ p ∈ runs, ∀ c ∈ q, c ∈ p) : runs.length ≤ parts.length := by
  choose! part hmem hlo using hlo
  have hinj : ∀ p ∈ runs, ∀ q ∈ runs, part p = part q → p = q := fun p hp q hq heq => by
    obtain ⟨k, hk, hsub⟩ := hwithin _ (hmem p hp)
    rw [eq_of_mem_both hruns hp hk p.lo_mem (hsub _ (hlo p hp)),
      eq_of_mem_both hruns hq hk q.lo_mem (hsub _ (heq ▸ hlo q hq))]
  have hnodup : (runs.map part).Nodup := List.Nodup.map_on hinj (nodup_of_pairwise hruns)
  have hsub : runs.map part ⊆ parts := fun q hq => by
    obtain ⟨p, hp, rfl⟩ := List.mem_map.1 hq
    exact hmem p hp
  rw [← List.length_map part]
  exact hnodup.length_le_of_subset hsub

/-! ## The pieces as a split -/

theorem isSplit_pieces (intervals : List Interval) : IsSplit (pieces intervals) intervals where
  covers _ := covers_pieces
  whole p hp i hi := by
    have h {c : Char} (hc : c ∈ p) : c ∈ i ↔ p.lo ∈ i := mem_iff_lo_mem_of_mem_pieces hp hi hc
    by_cases hlo : p.lo ∈ i
    · exact .inl fun c hc => (h hc).2 hlo
    · exact .inr fun c hc hci => hlo ((h hc).1 hci)

/-! ## Cuts -/

/-- At a cut an interval begins or ends, so it holds one of the characters on the two sides and not the other. -/
theorem exists_mem_iff_of_mem_cuts (hx : x ∈ cuts intervals) (ha : (a.ordinal : Nat) + 1 = x)
    (hb : (b.ordinal : Nat) = x) : ∃ i ∈ intervals, a ∈ i ↔ b ∉ i := by
  obtain ⟨i, hi, hix⟩ := mem_cuts.1 hx
  have := i.start_lt_stop
  refine ⟨i, hi, ?_⟩
  rw [mem_iff_ordinal, mem_iff_ordinal]
  omega

theorem stop_mem_cuts (hp : p ∈ pieces intervals) : p.stop ∈ cuts intervals :=
  (Ascending.le_or_ge_of_mem_zip_tail (Ascending.ascending _) (mem_pieces.1 hp).1).2.2.1

/-- **No member of a split reaches across a cut.** -/
theorem IsSplit.not_across (h : IsSplit parts intervals) (hq : q ∈ parts) (hx : x ∈ cuts intervals) :
    ¬ (q.start < x ∧ x < q.stop) := by
  rintro ⟨hstart, hstop⟩
  have hlt := Nat.lt_of_lt_of_le hstop q.stop_le
  let a : Char := Char.ofOrdinal ⟨x - 1, by omega⟩
  let b : Char := Char.ofOrdinal ⟨x, hlt⟩
  have ha : (a.ordinal : Nat) = x - 1 := by simp [a]
  have hb : (b.ordinal : Nat) = x := by simp [b]
  have haq : a ∈ q := mem_iff_ordinal.2 (by omega)
  have hbq : b ∈ q := mem_iff_ordinal.2 (by omega)
  obtain ⟨i, hi, hiff⟩ := exists_mem_iff_of_mem_cuts (a := a) (b := b) hx (by omega) hb
  rcases h.whole q hq i hi with hall | hnone
  · exact hiff.1 (hall a haq) (hall b hbq)
  · exact hnone a haq (hiff.2 (hnone b hbq))

/-! ## Any split against the pieces -/

/-- **Each member of a split lies within a piece.** -/
theorem IsSplit.exists_piece (h : IsSplit parts intervals) (hq : q ∈ parts) :
    ∃ p ∈ pieces intervals, ∀ c ∈ q, c ∈ p := by
  obtain ⟨p, hp, hlo⟩ := covers_pieces.2 ((h.covers q.lo).1 ⟨q, hq, q.lo_mem⟩)
  have hacross := h.not_across hq (stop_mem_cuts hp)
  refine ⟨p, hp, fun c hc => ?_⟩
  rw [mem_iff_ordinal] at hlo hc ⊢
  have : (q.lo.ordinal : Nat) = q.start := rfl
  omega

/-- **No split has fewer members than there are pieces.** -/
theorem IsSplit.length_pieces_le (h : IsSplit parts intervals) : (pieces intervals).length ≤ parts.length :=
  length_le_of_within (pairwise_pieces intervals)
    (fun p hp => (h.covers p.lo).2 (covers_pieces.1 ⟨p, hp, p.lo_mem⟩)) fun _ hq => h.exists_piece hq

/-- No character lies between two intervals of which one adjoins the other. -/
theorem adjoins_iff : p.Adjoins q ↔ p.hi < q.lo ∧ ∀ c, p.hi < c → ¬ c < q.lo := by
  have hhi : (p.hi.ordinal : Nat) + 1 = p.stop := rfl
  have hlo : (q.lo.ordinal : Nat) = q.start := rfl
  simp only [Char.lt_iff_ordinal_lt, Fin.lt_def]
  constructor
  · intro (h : p.stop = q.start)
    exact ⟨by omega, fun c => by omega⟩
  · rintro ⟨hlt, hbetween⟩
    by_contra hne
    have hne : p.stop ≠ q.start := hne
    have := q.start_lt_stop
    have := q.stop_le
    have := hbetween (Char.ofOrdinal ⟨p.stop, by omega⟩)
    rw [Char.ordinal_ofOrdinal] at this
    dsimp only at this
    omega

/-- **Some interval tells adjoining pieces apart**: it holds the whole of one and nothing of the other. -/
theorem exists_tells_apart (hp : p ∈ pieces intervals) (hq : q ∈ pieces intervals) (h : p.Adjoins q) :
    ∃ i ∈ intervals, (∀ c ∈ p, c ∈ i) ∧ (∀ c ∈ q, c ∉ i) ∨ (∀ c ∈ p, c ∉ i) ∧ ∀ c ∈ q, c ∈ i := by
  obtain ⟨i, hi, hiff⟩ := exists_mem_iff_of_mem_cuts (a := p.hi) (b := q.lo) (stop_mem_cuts hp) rfl h.symm
  refine ⟨i, hi, ?_⟩
  rcases (isSplit_pieces intervals).whole p hp i hi with hpi | hpi <;>
    rcases (isSplit_pieces intervals).whole q hq i hi with hqi | hqi
  · exact absurd (hqi _ q.lo_mem) (hiff.1 (hpi _ p.hi_mem))
  · exact .inl ⟨hpi, hqi⟩
  · exact .inr ⟨hpi, hqi⟩
  · exact absurd (hiff.2 (hqi _ q.lo_mem)) (hpi _ p.hi_mem)

/-! ## Order and repetition -/

theorem cuts_congr (h : ∀ i, i ∈ others ↔ i ∈ intervals) : cuts others = cuts intervals :=
  Ascending.ext (Ascending.ascending _) (Ascending.ascending _) fun x => by
    simp only [mem_cuts, h]

/-- Only which intervals there are decides the pieces. -/
theorem pieces_congr (h : ∀ i, i ∈ others ↔ i ∈ intervals) : pieces others = pieces intervals := by
  have hpiece (start stop : Nat) : piece? others start stop = piece? intervals start stop := by
    refine congrArg (Option.filter · _) (funext fun piece => Bool.eq_iff_iff.2 ?_)
    simp only [List.any_eq_true, h]
  simp only [pieces, cuts_congr h, hpiece]

/-- **The pieces are the coarsest split**, in order and apart: some interval tells adjoining ones apart, the members of
any split lie within them and are no fewer, and it is of no account in which order or how often the intervals are
given. -/
theorem pieces_coarsest (intervals : List Interval) :
    (pieces intervals).Pairwise (fun p q => p.hi < q.lo) ∧ IsSplit (pieces intervals) intervals ∧
    (∀ p ∈ pieces intervals, ∀ q ∈ pieces intervals, p.hi < q.lo → (∀ c, p.hi < c → ¬ c < q.lo) →
      ∃ i ∈ intervals, (∀ c ∈ p, c ∈ i) ∧ (∀ c ∈ q, c ∉ i) ∨ (∀ c ∈ p, c ∉ i) ∧ ∀ c ∈ q, c ∈ i) ∧
    (∀ parts, IsSplit parts intervals →
      (∀ q ∈ parts, ∃ p ∈ pieces intervals, ∀ c ∈ q, c ∈ p) ∧ (pieces intervals).length ≤ parts.length) ∧
    ∀ others, (∀ i, i ∈ others ↔ i ∈ intervals) → pieces others = pieces intervals := by
  refine ⟨?_, isSplit_pieces intervals, fun p hp q hq hlt hbetween => ?_, fun parts h => ?_, fun others h => ?_⟩
  · exact (pairwise_pieces intervals).imp stop_le_start_iff.1
  · exact exists_tells_apart hp hq (adjoins_iff.2 ⟨hlt, hbetween⟩)
  · exact ⟨fun q hq => h.exists_piece hq, h.length_pieces_le⟩
  · exact pieces_congr h

/-- The last two pieces adjoin across the surrogates, and the first interval tells them apart. -/
example : pieces [⟨'a', '\uD7FF', by decide⟩, ⟨'m', '\uE000', by decide⟩] =
    [⟨'a', 'l', by decide⟩, ⟨'m', '\uD7FF', by decide⟩, single '\uE000'] := by decide +kernel

end Interval
end PatternAutomata
