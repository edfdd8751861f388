import PatternAutomata.Dfa.Minimal
import PatternAutomata.Proofs.Dfa.Run
/-!
# Behaviour — comparing states by their moves

Two lists of moves can lead to the same places and yet be cut into different intervals.  Joining the moves that adjoin
and have one target leaves a list that is decided by where the characters lead (`Joined.ext`), so the behaviours of two
states under a partition are equal exactly when every character leads from both into one class or from both nowhere
(`behaviour_eq_iff`).
-/
namespace PatternAutomata
namespace Dfa

/-- One of the moves leads to `t` on `c`. -/
def MovesTo (ms : List (Interval × Nat)) (c : Char) (t : Nat) : Prop := ∃ m ∈ ms, c ∈ m.1 ∧ m.2 = t

/-- The moves are disjoint and in order, and those with the same target do not adjoin. -/
def Joined (ms : List (Interval × Nat)) : Prop :=
  ms.Pairwise fun m l => m.1.stop ≤ l.1.start ∧ (m.2 = l.2 → m.1.stop < l.1.start)

variable {m k : Interval × Nat} {ms ls rest : List (Interval × Nat)} {c : Char} {t : Nat}

theorem movesTo_cons : MovesTo (m :: ms) c t ↔ c ∈ m.1 ∧ m.2 = t ∨ MovesTo ms c t := by
  simp only [MovesTo, List.mem_cons, exists_eq_or_imp]

theorem not_movesTo_nil : ¬ MovesTo [] c t := fun ⟨_, h, _⟩ => (nomatch h)

/-! ## A joined list is decided by where the characters lead -/

/-- No move begins before the first one does, and those behind it begin where it has stopped. -/
theorem Joined.start_le (h : Joined (m :: ms)) (hc : MovesTo (m :: ms) c t) : m.1.start ≤ c.ordinal := by
  rcases movesTo_cons.1 hc with ⟨hm, -⟩ | ⟨l, hl, hlc, -⟩
  · exact (Interval.mem_iff_ordinal.1 hm).1
  · have := ((List.pairwise_cons.1 h).1 l hl).1
    have := (Interval.mem_iff_ordinal.1 hlc).1
    have := m.1.start_lt_stop
    omega

theorem Joined.not_mem_of_movesTo (h : Joined (m :: ms)) (hc : MovesTo ms c t) : c ∉ m.1 := fun hm => by
  obtain ⟨l, hl, hlc, -⟩ := hc
  have := ((List.pairwise_cons.1 h).1 l hl).1
  have := (Interval.mem_iff_ordinal.1 hlc).1
  have := (Interval.mem_iff_ordinal.1 hm).2
  omega

theorem Joined.target_eq (h : Joined (m :: ms)) (hc : MovesTo (m :: ms) c t) (hm : c ∈ m.1) : m.2 = t := by
  rcases movesTo_cons.1 hc with ⟨-, heq⟩ | hc
  · exact heq
  · exact absurd hm (h.not_mem_of_movesTo hc)

/-- The first move reaches as far as any that leads to the same place from where it begins. -/
theorem Joined.stop_le (h : Joined (m :: ms)) (hstart : k.1.start = m.1.start)
    (hk : ∀ c ∈ k.1, MovesTo (m :: ms) c m.2) : k.1.stop ≤ m.1.stop := by
  refine Nat.not_lt.1 fun hlt => ?_
  -- the character behind the first move would be led to the same place by a later one
  let c : Char := Char.ofOrdinal ⟨m.1.stop, Nat.lt_of_lt_of_le hlt k.1.stop_le⟩
  have hc : (c.ordinal : Nat) = m.1.stop := by simp [c]
  have hm := m.1.start_lt_stop
  rcases movesTo_cons.1 (hk c (Interval.mem_iff_ordinal.2 (by omega))) with ⟨hcm, -⟩ | ⟨l, hl, hlc, heq⟩
  · have := (Interval.mem_iff_ordinal.1 hcm).2
    omega
  · have := ((List.pairwise_cons.1 h).1 l hl).2 heq.symm
    have := (Interval.mem_iff_ordinal.1 hlc).1
    omega

theorem start_eq_of_movesTo (hm : Joined (m :: ms)) (hk : Joined (k :: ls))
    (heq : ∀ c t, MovesTo (m :: ms) c t ↔ MovesTo (k :: ls) c t) : m.1.start = k.1.start := by
  have h₁ := hm.start_le ((heq k.1.lo k.2).2 (movesTo_cons.2 (.inl ⟨k.1.lo_mem, rfl⟩)))
  have h₂ := hk.start_le ((heq m.1.lo m.2).1 (movesTo_cons.2 (.inl ⟨m.1.lo_mem, rfl⟩)))
  exact Nat.le_antisymm h₁ h₂

/-- **A joined list of moves is decided by where the characters lead.** -/
theorem Joined.ext : ∀ {ms ls : List (Interval × Nat)}, Joined ms → Joined ls →
    (∀ c t, MovesTo ms c t ↔ MovesTo ls c t) → ms = ls
  | [], [], _, _, _ => rfl
  | [], k :: ls, _, _, heq =>
    absurd ((heq k.1.lo k.2).2 (movesTo_cons.2 (.inl ⟨k.1.lo_mem, rfl⟩))) not_movesTo_nil
  | m :: ms, [], _, _, heq =>
    absurd ((heq m.1.lo m.2).1 (movesTo_cons.2 (.inl ⟨m.1.lo_mem, rfl⟩))) not_movesTo_nil
  | m :: ms, k :: ls, hm, hk, heq => by
    have hstart : m.1.start = k.1.start := start_eq_of_movesTo hm hk heq
    have hlo : m.1.lo ∈ k.1 :=
      Interval.mem_iff_ordinal.2 ⟨Nat.le_of_eq hstart.symm, by have := k.1.start_lt_stop; change m.1.start < _; omega⟩
    have htarget : k.2 = m.2 := hk.target_eq ((heq _ _).1 (movesTo_cons.2 (.inl ⟨m.1.lo_mem, rfl⟩))) hlo
    have hstop : m.1.stop = k.1.stop := Nat.le_antisymm
      (hk.stop_le hstart fun c hc => (heq c _).1 (movesTo_cons.2 (.inl ⟨hc, htarget.symm⟩)))
      (hm.stop_le hstart.symm fun c hc => (heq c _).2 (movesTo_cons.2 (.inl ⟨hc, htarget⟩)))
    have hmk : m = k := by
      have hl : some m.1 = some k.1 := (Interval.ofOrdinals?_eq_some.2 ⟨rfl, rfl⟩).symm.trans
        (Interval.ofOrdinals?_eq_some.2 ⟨hstart.symm, hstop.symm⟩)
      exact Prod.ext (Option.some.inj hl) htarget.symm
    subst hmk
    refine congrArg _ (Joined.ext (List.pairwise_cons.1 hm).2 (List.pairwise_cons.1 hk).2 fun c t => ?_)
    -- what a later move leads to is not what the first one leads to
    constructor
    · intro hc
      exact ((movesTo_cons.1 ((heq c t).1 (movesTo_cons.2 (.inr hc)))).resolve_left
        fun hcm => hm.not_mem_of_movesTo hc hcm.1)
    · intro hc
      exact ((movesTo_cons.1 ((heq c t).2 (movesTo_cons.2 (.inr hc)))).resolve_left
        fun hcm => hk.not_mem_of_movesTo hc hcm.1)

/-! ## Joining moves -/

theorem lo_le_of_adjoins {i j : Interval} (h : i.Adjoins j) : i.lo ≤ j.lo := by
  have := i.start_lt_stop
  have h : i.stop = j.start := h
  exact Char.le_iff_ordinal_le.2 (by change i.start ≤ j.start; omega)

theorem movesTo_joinMoves : MovesTo (joinMoves m rest) c t ↔ MovesTo (m :: rest) c t := by
  induction rest generalizing m with
  | nil => exact Iff.rfl
  | cons k rest ih =>
    unfold joinMoves
    split
    · rename_i h
      rw [ih, movesTo_cons, movesTo_cons, movesTo_cons,
        Interval.mem_span (lo_le_of_adjoins h.2) (Nat.le_of_eq h.2.symm), ← or_assoc, h.1, ← or_and_right]
    · rw [movesTo_cons, ih, movesTo_cons (m := m)]

/-- The moves that are left begin where the first one does or behind it. -/
theorem mem_joinMoves (h : (m :: rest).Pairwise fun m l => m.1.stop ≤ l.1.start) {l : Interval × Nat}
    (hl : l ∈ joinMoves m rest) : l.1.start = m.1.start ∧ l.2 = m.2 ∨ m.1.stop ≤ l.1.start := by
  induction rest generalizing m with
  | nil =>
    cases List.mem_singleton.1 hl
    exact .inl ⟨rfl, rfl⟩
  | cons k rest ih =>
    obtain ⟨hm, hrest⟩ := List.pairwise_cons.1 h
    have hk := k.1.start_lt_stop
    have hmk := hm k List.mem_cons_self
    unfold joinMoves at hl
    split at hl
    · rename_i hjoin
      have hstart := Interval.start_span (lo_le_of_adjoins hjoin.2)
      have hstop := Interval.stop_span m.1 k.1
      have hspan : ((m.1.span k.1, m.2) :: rest).Pairwise fun m l => m.1.stop ≤ l.1.start := by
        refine List.pairwise_cons.2 ⟨fun l hl => ?_, (List.pairwise_cons.1 hrest).2⟩
        have := hm l (List.mem_cons_of_mem _ hl)
        have := (List.pairwise_cons.1 hrest).1 l hl
        simp only [hstop]
        omega
      rcases ih hspan hl with ⟨h₁, h₂⟩ | h₁
      · exact .inl ⟨h₁.trans hstart, h₂⟩
      · simp only [hstop] at h₁
        exact .inr (by omega)
    · rcases List.mem_cons.1 hl with rfl | hl
      · exact .inl ⟨rfl, rfl⟩
      · rcases ih hrest hl with ⟨h₁, -⟩ | h₁
        · exact .inr (h₁ ▸ hmk)
        · exact .inr (by omega)

theorem joined_joinMoves (h : (m :: rest).Pairwise fun m l => m.1.stop ≤ l.1.start) : Joined (joinMoves m rest) := by
  induction rest generalizing m with
  | nil => exact List.pairwise_singleton _ m
  | cons k rest ih =>
    obtain ⟨hm, hrest⟩ := List.pairwise_cons.1 h
    have hk := k.1.start_lt_stop
    have hmk := hm k List.mem_cons_self
    unfold joinMoves
    split
    · have hstop := Interval.stop_span m.1 k.1
      refine ih (List.pairwise_cons.2 ⟨fun l hl => ?_, (List.pairwise_cons.1 hrest).2⟩)
      have := hm l (List.mem_cons_of_mem _ hl)
      have := (List.pairwise_cons.1 hrest).1 l hl
      simp only [hstop]
      omega
    · rename_i hapart
      refine List.pairwise_cons.2 ⟨fun l hl => ?_, ih hrest⟩
      rcases mem_joinMoves hrest hl with ⟨h₁, h₂⟩ | h₁
      · refine ⟨h₁ ▸ hmk, fun heq => Nat.lt_of_le_of_ne (h₁ ▸ hmk) fun hadj => hapart ⟨heq.trans h₂, ?_⟩⟩
        exact hadj.trans h₁
      · exact ⟨by omega, fun _ => by omega⟩

/-! ## Behaviours -/

variable {p : Partition} {s s' : State}

theorem behaviour_spec (hs : s.Ordered) : Joined (behaviour p s) ∧
    ∀ c t, MovesTo (behaviour p s) c t ↔ (s.next? c).map p.classOf = some t := by
  have hpair : (s.moves.toList.map fun m => (m.1, p.classOf m.2)).Pairwise fun m l => m.1.stop ≤ l.1.start :=
    List.pairwise_map.2 hs
  have hmoves (c : Char) (t : Nat) : MovesTo (s.moves.toList.map fun m => (m.1, p.classOf m.2)) c t ↔
      (s.next? c).map p.classOf = some t := by
    simp only [MovesTo, List.mem_map, Option.map_eq_some_iff, State.next?_eq_some hs]
    constructor
    · rintro ⟨_, ⟨m, hm, rfl⟩, hc, ht⟩
      exact ⟨m.2, ⟨m, Array.mem_toList_iff.1 hm, hc, rfl⟩, ht⟩
    · rintro ⟨_, ⟨m, hm, hc, rfl⟩, ht⟩
      exact ⟨_, ⟨m, Array.mem_toList_iff.2 hm, rfl⟩, hc, ht⟩
  rw [behaviour]
  revert hpair hmoves
  cases s.moves.toList.map fun m => (m.1, p.classOf m.2) with
  | nil => exact fun _ hmoves => ⟨List.Pairwise.nil, hmoves⟩
  | cons m rest =>
    intro hpair hmoves
    exact ⟨joined_joinMoves hpair, fun c t => movesTo_joinMoves.trans (hmoves c t)⟩

/-- **States behave alike when every character leads from both into one class or from both nowhere.** -/
theorem behaviour_eq_iff (hs : s.Ordered) (hs' : s'.Ordered) : behaviour p s = behaviour p s' ↔
    ∀ c, (s.next? c).map p.classOf = (s'.next? c).map p.classOf := by
  obtain ⟨hjoined, hmoves⟩ := behaviour_spec (p := p) hs
  obtain ⟨hjoined', hmoves'⟩ := behaviour_spec (p := p) hs'
  constructor
  · intro h c
    refine Option.ext fun t => ?_
    rw [← hmoves, h, hmoves']
  · intro h
    exact hjoined.ext hjoined' fun c t => by rw [hmoves, hmoves', h]

theorem encodeMoves_injective : ∀ {ms ls : List (Interval × Nat)}, encodeMoves ms = encodeMoves ls → ms = ls
  | [], [], _ => rfl
  | [], _ :: _, h => nomatch h
  | _ :: _, [], h => nomatch h
  | (i, t) :: ms, (j, u) :: ls, h => by
    simp only [encodeMoves, List.flatMap_cons, List.cons_append, List.nil_append, List.cons.injEq] at h
    obtain ⟨hstart, hstop, rfl, h⟩ := h
    have hij : some i = some j := (Interval.ofOrdinals?_eq_some.2 ⟨rfl, rfl⟩).symm.trans
      (Interval.ofOrdinals?_eq_some.2 ⟨hstart.symm, hstop.symm⟩)
    cases hij
    exact congrArg _ (encodeMoves_injective h)

end Dfa
end PatternAutomata
