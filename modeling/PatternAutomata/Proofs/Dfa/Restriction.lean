import PatternAutomata.Proofs.Dfa.Forced
import PatternAutomata.Proofs.Dfa.Quotient
import PatternAutomata.Proofs.Dfa.Subsets
/-!
# Restriction — what forced positions say about accepted words

Where all moves of a state lead to one destination, an accepted word goes there, and the character it reads lies in the
interval around the moves (`ForcedTo.restricts`).  Along a run of such states each position is restricted that way, so a
forced position holds for every word that leads from the start of its run to an accepting state (`forcedRun_restricts`),
and the labels of the chain hold for every accepted word but the empty one (`chain_restricts`).  The chain does not ask
whether the root is accepting, and the empty word reads no character.
-/
namespace PatternAutomata
namespace Dfa

variable {d : Dfa} {i j : Nat} {r : Interval} {c : Char} {w : Word} {o : Offset} {last : Option Offset}

/-- All moves out of state `i` lead to `j`, on characters of `r`. -/
def ForcedTo (d : Dfa) (i : Nat) (r : Interval) (j : Nat) : Prop :=
  ∀ c t, (d.state i).next? c = some t → c ∈ r ∧ t = j

theorem ForcedTo.restricts (h : d.ForcedTo i r j) (hw : d.acceptsFrom i (c :: w) = true) :
    c ∈ r ∧ d.acceptsFrom j w = true := by
  rw [acceptsFrom_cons, Option.any_eq_true] at hw
  obtain ⟨t, ht, hw⟩ := hw
  obtain ⟨hc, rfl⟩ := h c t ht
  exact ⟨hc, hw⟩

theorem WellFormed.forcedTo_of_moves (hd : d.WellFormed) (h : (d.state i).moves.toList = [(r, j)]) :
    d.ForcedTo i r j := by
  intro c t ht
  obtain ⟨m, hm, hc, rfl⟩ := (State.next?_eq_some (hd.ordered i)).1 ht
  rw [← Array.mem_toList_iff, h, List.mem_singleton] at hm
  subst hm
  exact ⟨hc, rfl⟩

theorem WellFormed.forcedTo_of_destinations (hd : d.WellFormed) (hdest : (d.state i).destinations = [j])
    (hspan : (d.state i).span = some r) : d.ForcedTo i r j := by
  intro c t ht
  have hmem : t ∈ (d.state i).destinations := (State.mem_destinations (hd.ordered i)).2 ⟨c, ht⟩
  rw [hdest, List.mem_singleton] at hmem
  exact ⟨(State.span_eq_some (hd.ordered i) hspan).2.2 c t ht, hmem⟩

/-! ## Forced runs -/

/-- A position found lies behind those passed already, and restricts what is accepted from the current state. -/
theorem WellFormed.forcedFrom_restricts (hd : d.WellFormed) {limit : Nat} {visited : List Nat}
    (h : (d.forcedFrom limit visited last i).1 = some o) : last = some o ∨ visited.length ≤ o.depth ∧
      ∀ w, d.acceptsFrom i w = true → ∃ c, w[o.depth - visited.length]? = some c ∧ c ∈ o.range := by
  induction limit generalizing visited last i with
  | zero => exact .inl h
  | succ limit ih =>
    unfold forcedFrom at h
    split at h
    · exact .inl h
    · rename_i hrejecting
      split at h
      · exact .inl h
      · split at h
        · rename_i next range hdest hspan
          have hforced := hd.forcedTo_of_destinations hdest hspan
          -- the current state is rejecting, so a word accepted from it has a character to read
          have hread {w : Word} (hw : d.acceptsFrom i w = true) :
              ∃ c v, w = c :: v ∧ c ∈ range ∧ d.acceptsFrom next v = true := by
            cases w with
            | nil => exact absurd hw hrejecting
            | cons c v => exact ⟨c, v, rfl, hforced.restricts hw⟩
          right
          rcases ih h with hlast | ⟨hdepth, hrest⟩
          · cases hlast
            refine ⟨Nat.le_refl _, fun w hw => ?_⟩
            obtain ⟨c, v, rfl, hc, -⟩ := hread hw
            exact ⟨c, by rw [Nat.sub_self]; rfl, hc⟩
          · rw [List.length_cons] at hdepth hrest
            refine ⟨by omega, fun w hw => ?_⟩
            obtain ⟨c, v, rfl, -, hv⟩ := hread hw
            obtain ⟨a, ha, har⟩ := hrest v hv
            have hdepth : o.depth - visited.length = o.depth - (visited.length + 1) + 1 := by omega
            exact ⟨a, by rw [hdepth, List.getElem?_cons_succ, ha], har⟩
        · exact .inl h
        · exact .inl h
        · exact .inl h

/-- **A forced position restricts what is accepted from the start of its run.** -/
theorem WellFormed.forcedRun_restricts (hd : d.WellFormed) (h : (d.forcedRun i).1 = some o)
    (hw : d.acceptsFrom i w = true) : ∃ h : o.depth < w.length, w[o.depth] ∈ o.range := by
  rcases hd.forcedFrom_restricts h with hlast | ⟨-, hrest⟩
  · cases hlast
  · obtain ⟨c, hc, hmem⟩ := hrest w hw
    obtain ⟨hlt, rfl⟩ := List.getElem?_eq_some_iff.1 hc
    exact ⟨hlt, hmem⟩

theorem forcedRun_of_offset (h : d.offset = some o) : d.forcedRun 0 = (some o, .accepting) := by
  unfold offset at h
  split at h
  · rename_i last heq
    rw [heq, h]
  · cases h

theorem mem_offsets {s : Nat} : (s, o) ∈ d.offsets ↔ s ∈ d.runStarts ∧ (d.forcedRun s).1 = some o := by
  simp only [offsets, List.mem_filterMap, Ascending.mem_ascending, Option.map_eq_some_iff, Prod.mk.injEq]
  constructor
  · rintro ⟨s, hs, o, ho, rfl, rfl⟩
    exact ⟨hs, ho⟩
  · rintro ⟨hs, ho⟩
    exact ⟨s, hs, o, ho, rfl, rfl⟩

/-- If the run from the root ends in no fork, it is the only one. -/
theorem runStarts_eq_root (hsize : 0 < d.size) (h : d.successors 0 = []) : d.runStarts = [0] := by
  have hone : ∀ ks : List Nat, ks.Nodup → (∀ k ∈ ks, k = 0) → ks.length ≤ 1 := fun ks hnodup hks =>
    length_le_of_nodup_of_lt hnodup fun k hk => hks k hk ▸ Nat.one_pos
  have hinv : (Exploration.exploreAll (fun s => (d.successors s).map ((), ·)) d.size 0).Invariant (· = 0)
      (fun s => (d.successors s).map ((), ·)) 0 :=
    (Exploration.exploreAll_spec (fun k hk m hm => by rw [hk, h] at hm; cases hm)
      (fun ks hnodup hks => Nat.le_trans (hone ks hnodup hks) hsize) rfl).1
  have hle := hinv.size_le hone
  obtain ⟨hlt, hroot⟩ := Array.getElem?_eq_some_iff.1 hinv.root_eq
  obtain ⟨k, hk⟩ := List.length_eq_one_iff.1 (Nat.le_antisymm hle hlt)
  have hroot : k = 0 := by rw [← hroot, ← Array.getElem_toList]; simp only [hk, List.getElem_cons_zero]
  exact hroot ▸ hk

/-- If the run from the root ends in an accepting state, its last position is the only one of all runs. -/
theorem offsets_of_offset (hsize : 0 < d.size) (h : d.offset = some o) : d.offsets = [(0, o)] := by
  have hrun := forcedRun_of_offset h
  have hstarts := runStarts_eq_root hsize (by rw [successors, hrun])
  rw [offsets, hstarts]
  change ([0].filterMap fun s => (d.forcedRun s).1.map (s, ·)) = [(0, o)]
  rw [List.filterMap_cons, hrun]
  rfl

/-! ## Chains -/

/-- The first characters of a word lie in the labels, one in each. -/
def Obeys (labels : List Interval) (w : Word) : Prop :=
  labels.length ≤ w.length ∧ ∀ i (_ : i < labels.length) (_ : i < w.length), w[i] ∈ labels[i]

theorem obeys_nil (w : Word) : Obeys [] w := ⟨Nat.zero_le _, fun _ h => nomatch h⟩

theorem obeys_empty {labels : List Interval} : Obeys labels [] ↔ labels = [] :=
  ⟨fun h => List.length_eq_zero_iff.1 (Nat.le_zero.1 h.1), fun h => h ▸ obeys_nil []⟩

theorem obeys_cons {labels : List Interval} : Obeys (r :: labels) (c :: w) ↔ c ∈ r ∧ Obeys labels w := by
  constructor
  · rintro ⟨hlen, h⟩
    refine ⟨h 0 (Nat.succ_pos _) (Nat.succ_pos _), Nat.le_of_succ_le_succ hlen, fun i hi hi' => ?_⟩
    exact h (i + 1) (Nat.succ_lt_succ hi) (Nat.succ_lt_succ hi')
  · rintro ⟨hc, hlen, h⟩
    refine ⟨Nat.succ_le_succ hlen, fun i hi hi' => ?_⟩
    cases i with
    | zero => exact hc
    | succ i => exact h i (Nat.lt_of_succ_lt_succ hi) (Nat.lt_of_succ_lt_succ hi')

theorem WellFormed.chainFrom_restricts (hd : d.WellFormed) {limit : Nat} {visited : List Nat}
    (hne : w ≠ []) (hw : d.acceptsFrom i w = true) : Obeys (d.chainFrom limit visited i) w := by
  induction limit generalizing visited i w with
  | zero => exact obeys_nil w
  | succ limit ih =>
    unfold chainFrom
    split
    · rename_i label next hmoves
      obtain ⟨c, w, rfl⟩ := List.exists_cons_of_ne_nil hne
      obtain ⟨hc, hw⟩ := (hd.forcedTo_of_moves hmoves).restricts hw
      split
      · exact obeys_nil _
      · rename_i hexits
        split
        · exact obeys_cons.2 ⟨hc, obeys_nil w⟩
        · refine obeys_cons.2 ⟨hc, ?_⟩
          by_cases hw' : w = []
          · -- the word ends in `next`, which then cannot be left
            subst hw'
            have hleft : (d.state next).moves = #[] := Decidable.byContradiction fun h => hexits ⟨hw, h⟩
            cases limit with
            | zero => exact obeys_nil []
            | succ limit => rw [chainFrom, hleft]; exact obeys_nil []
          · exact ih hw' hw
    · exact obeys_nil w

/-- **Every accepted word but the empty one obeys the chain.** -/
theorem WellFormed.chain_restricts (hd : d.WellFormed) (hne : w ≠ []) (hw : d.accepts w = true) : Obeys d.chain w :=
  hd.chainFrom_restricts hne (accepts_eq d w ▸ hw)

/-- All accepted words obey the chain unless it forbids the empty word, which is one of them. -/
theorem WellFormed.chain_restricts_iff (hd : d.WellFormed) :
    (∀ w, d.accepts w = true → Obeys d.chain w) ↔ (d.accepts [] = true → d.chain = []) := by
  refine ⟨fun h hw => obeys_empty.1 (h [] hw), fun h w hw => ?_⟩
  by_cases hne : w = []
  · rw [hne] at hw ⊢
    exact obeys_empty.2 (h hw)
  · exact hd.chain_restricts hne hw

end Dfa

namespace Nfa

/-- **Forced positions are restrictions indeed**, in the automaton of the sets of states as in the one with states
merged: the one from the root for all accepted words, those of the other runs for all words accepted from where the run
starts.  If the run from the root ends in an accepting state, there is no other. -/
theorem offsets_restrict (n : Nfa) (hn : n.WellFormed) : ∃ raw, Dfa.ofNfa n = .ok raw ∧
    ∀ d, d = raw ∨ d = raw.minimize →
      (∀ o, d.offset = some o → ∀ w, d.accepts w = true → ∃ h : o.depth < w.length, w[o.depth] ∈ o.range) ∧
      (∀ s o, (s, o) ∈ d.offsets → ∀ w, d.acceptsFrom s w = true →
        ∃ h : o.depth < w.length, w[o.depth] ∈ o.range) ∧
      ∀ o, d.offset = some o → d.offsets = [(0, o)] := by
  obtain ⟨raw, keys, hraw, hsubsets⟩ := Dfa.exists_ofNfa hn
  have hwf := hsubsets.wellFormed
  refine ⟨raw, hraw, fun d hd => ?_⟩
  have hd : d.WellFormed := by
    rcases hd with rfl | rfl
    · exact hwf
    · exact hwf.minimize
  refine ⟨fun o ho w hw => ?_, fun s o ho w hw => ?_, fun o ho => Dfa.offsets_of_offset hd.size_pos ho⟩
  · rw [Dfa.accepts_eq] at hw
    exact hd.forcedRun_restricts (by rw [Dfa.forcedRun_of_offset ho]) hw
  · exact hd.forcedRun_restricts (Dfa.mem_offsets.1 ho).2 hw

/-- Two moves with a gap between them lead from the start to one state, which is left on `e`; behind it, any number of
`e` may follow. -/
def detour : Nfa :=
  ((((((empty.addState false).2.addState false).2.addState true).2.addMove 0 ⟨'\uD7FF', '\uE000', by decide⟩ 1).addMove
    0 ⟨'\uE002', '\uE003', by decide⟩ 1).addMove 1 (.single 'e') 2).addMove 2 (.single 'e') 2

theorem detour_offsets_restrict : detour.WellFormed ∧ ∃ raw, Dfa.ofNfa detour = .ok raw ∧
    raw.offset = some ⟨1, .single 'e'⟩ ∧ raw.offsets = [(0, ⟨1, .single 'e'⟩)] ∧
    (∀ w, raw.accepts w = true → ∃ h : 1 < w.length, w[1] ∈ Interval.single 'e') ∧
    ∀ w, raw.minimize.accepts w = true → ∃ h : 1 < w.length, w[1] ∈ Interval.single 'e' := by
  have hoffset : (Dfa.ofNfa detour).toOption.map (fun d => (d.offset, d.minimize.offset)) =
      some (some ⟨1, .single 'e'⟩, some ⟨1, .single 'e'⟩) := by decide +kernel
  obtain ⟨raw, hraw, h⟩ := offsets_restrict detour (by decide)
  rw [hraw] at hoffset
  obtain ⟨ho, ho'⟩ := Prod.mk.inj (Option.some.inj hoffset)
  exact ⟨by decide, raw, hraw, ho, (h raw (.inl rfl)).2.2 _ ho, (h raw (.inl rfl)).1 _ ho, (h _ (.inr rfl)).1 _ ho'⟩

end Nfa
end PatternAutomata
