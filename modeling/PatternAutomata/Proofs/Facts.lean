import PatternAutomata.Facts
import PatternAutomata.Proofs.Alternatives
import PatternAutomata.Proofs.Dfa.Quotient
import PatternAutomata.Proofs.Dfa.Subsets
import PatternAutomata.Proofs.Nfa.OfPattern
/-!
# Facts — no match is ruled out

The facts of a pattern hold for every word its automaton accepts (`sound_ofPattern`), also where the automaton accepts
more than the pattern says: only a repetition can do that, and nothing is claimed of what a repetition matches.  Each
way of combining facts is sound for the language that it stands for, whatever sets it has to give up.
-/
namespace PatternAutomata
namespace Facts

/-- The facts hold for the words of `L`. -/
structure Sound (f : Facts) (L : Word → Prop) : Prop where
  prefixes : ∀ s, f.prefixes = some s → ∀ w, L w → ∃ u ∈ s, u <+: w
  suffixes : ∀ s, f.suffixes = some s → ∀ w, L w → ∃ u ∈ s, u <:+ w
  factors : ∀ s, f.factors = some s → ∀ w, L w → ∃ u ∈ s, u <:+: w
  all : ∀ s, f.all = some s → ∀ w, L w ↔ w ∈ s

variable {f g : Facts} {L M : Word → Prop} {s : WordSet} {a b : Option WordSet} {w : Word} {k : Nat}

theorem Sound.congr (h : f.Sound L) (hLM : ∀ w, L w ↔ M w) : f.Sound M where
  prefixes s hs w hw := h.prefixes s hs w ((hLM w).2 hw)
  suffixes s hs w hw := h.suffixes s hs w ((hLM w).2 hw)
  factors s hs w hw := h.factors s hs w ((hLM w).2 hw)
  all s hs w := (hLM w).symm.trans (h.all s hs w)

/-! ## Combining sets -/

theorem best_eq_some (h : best a b = some s) : a = some s ∨ b = some s := by
  unfold best at h
  split at h
  · exact .inl h
  · exact .inr h

theorem cross_eq_some (h : cross a b = some s) : ∃ u v, a = some u ∧ b = some v ∧ s = u.product v := by
  unfold cross at h
  split at h
  · split at h
    · cases h
      exact ⟨_, _, rfl, rfl, rfl⟩
    · cases h
  · cases h

/-! ## Combining facts -/

theorem sound_absent : absent.Sound L where
  prefixes _ h := by cases h
  suffixes _ h := by cases h
  factors _ h := by cases h
  all _ h := by cases h

theorem sound_exact (h : ∀ w, L w ↔ w ∈ s) : (exact s).Sound L := by
  refine ⟨fun t ht w hw => ?_, fun t ht w hw => ?_, fun t ht w hw => ?_, fun t ht w => ?_⟩ <;> cases ht
  · exact ⟨w, (h w).1 hw, List.prefix_refl w⟩
  · exact ⟨w, (h w).1 hw, List.suffix_refl w⟩
  · exact ⟨w, (h w).1 hw, List.infix_refl w⟩
  · exact h w

theorem Sound.concatenate (hf : f.Sound L) (hg : g.Sound M) : (f.concatenate g).Sound (Followed L M) := by
  refine ⟨fun s hs w hw => ?_, fun s hs w hw => ?_, fun s hs w hw => ?_, fun s hs w => ?_⟩
  · obtain ⟨u, v, rfl, hu, hv⟩ := hw
    rcases best_eq_some hs with hs | hs
    · obtain ⟨x, hx, hxu⟩ := hf.prefixes s hs u hu
      exact ⟨x, hx, hxu.trans (List.prefix_append u v)⟩
    · obtain ⟨s, t, hst, ht, rfl⟩ := cross_eq_some hs
      obtain ⟨y, hy, hyv⟩ := hg.prefixes t ht v hv
      refine ⟨u ++ y, WordSet.mem_product.2 ⟨u, (hf.all s hst u).1 hu, y, hy, rfl⟩, ?_⟩
      exact (List.prefix_append_right_inj u).2 hyv
  · obtain ⟨u, v, rfl, hu, hv⟩ := hw
    rcases best_eq_some hs with hs | hs
    · obtain ⟨y, hy, hyv⟩ := hg.suffixes s hs v hv
      exact ⟨y, hy, hyv.trans (List.suffix_append u v)⟩
    · obtain ⟨s, t, hst, ht, rfl⟩ := cross_eq_some hs
      obtain ⟨x, hx, z, rfl⟩ := hf.suffixes s hst u hu
      refine ⟨x ++ v, WordSet.mem_product.2 ⟨x, hx, v, (hg.all t ht v).1 hv, rfl⟩, z, ?_⟩
      exact (z.append_assoc x v).symm
  · obtain ⟨u, v, rfl, hu, hv⟩ := hw
    rcases best_eq_some hs with hs | hs
    · rcases best_eq_some hs with hs | hs
      · obtain ⟨x, hx, hxu⟩ := hf.factors s hs u hu
        exact ⟨x, hx, hxu.trans (List.prefix_append u v).isInfix⟩
      · obtain ⟨y, hy, hyv⟩ := hg.factors s hs v hv
        exact ⟨y, hy, hyv.trans (List.suffix_append u v).isInfix⟩
    · obtain ⟨s, t, hst, ht, rfl⟩ := cross_eq_some hs
      obtain ⟨x, hx, z, rfl⟩ := hf.suffixes s hst u hu
      obtain ⟨y, hy, z', rfl⟩ := hg.prefixes t ht v hv
      refine ⟨x ++ y, WordSet.mem_product.2 ⟨x, hx, y, hy, rfl⟩, z, z', ?_⟩
      simp only [List.append_assoc]
  · obtain ⟨s, t, hst, ht, rfl⟩ := cross_eq_some hs
    rw [WordSet.mem_product]
    constructor
    · rintro ⟨u, v, rfl, hu, hv⟩
      exact ⟨u, (hf.all s hst u).1 hu, v, (hg.all t ht v).1 hv, rfl⟩
    · rintro ⟨u, hu, v, hv, rfl⟩
      exact ⟨u, v, rfl, (hf.all s hst u).2 hu, (hg.all t ht v).2 hv⟩

theorem Sound.union (hf : f.Sound L) (hg : g.Sound M) : (f.union g).Sound fun w => L w ∨ M w := by
  have key {P : Word → Word → Prop} {s t : WordSet} (hs : ∀ w, L w → ∃ u ∈ s, P u w) (ht : ∀ w, M w → ∃ u ∈ t, P u w)
      (w : Word) (hw : L w ∨ M w) : ∃ u ∈ s.union t, P u w := by
    rcases hw with hw | hw
    · obtain ⟨u, hu, h⟩ := hs w hw
      exact ⟨u, WordSet.mem_union.2 (.inl hu), h⟩
    · obtain ⟨u, hu, h⟩ := ht w hw
      exact ⟨u, WordSet.mem_union.2 (.inr hu), h⟩
  refine ⟨fun r hr => ?_, fun r hr => ?_, fun r hr => ?_, fun r hr w => ?_⟩ <;>
    obtain ⟨s, t, hs, ht, rfl, -⟩ := either_eq_some_iff.1 hr
  · exact key (hf.prefixes s hs) (hg.prefixes t ht)
  · exact key (hf.suffixes s hs) (hg.suffixes t ht)
  · exact key (hf.factors s hs) (hg.factors t ht)
  · rw [WordSet.mem_union, hf.all s hs, hg.all t ht]

/-- Nothing but the empty word is claimed of a repetition, so it does not matter what it matches. -/
theorem sound_starred (f : Facts) : f.starred.Sound L where
  prefixes _ h := nomatch h
  suffixes _ h := nomatch h
  factors s h w _ := by
    obtain ⟨_, _, rfl⟩ := Option.map_eq_some_iff.1 h
    exact ⟨[], WordSet.mem_emptyWord.2 rfl, [], w, rfl⟩
  all _ h := nomatch h

/-! ## Bounded repetition -/

theorem repeats_between_self : (∃ l, k ≤ l ∧ l ≤ k ∧ Repeats L l w) ↔ Repeats L k w := by
  constructor
  · rintro ⟨l, hkl, hlk, h⟩
    rwa [Nat.le_antisymm hkl hlk]
  · intro h
    exact ⟨k, Nat.le_refl _, Nat.le_refl _, h⟩

theorem repeats_between_succ {more : Nat} : (∃ l, k ≤ l ∧ l ≤ k + more + 1 ∧ Repeats L l w) ↔
    (∃ l, k ≤ l ∧ l ≤ k + more ∧ Repeats L l w) ∨ Repeats L (k + more + 1) w := by
  constructor
  · rintro ⟨l, hkl, hl, h⟩
    rcases Nat.le_succ_iff.1 hl with hl | rfl
    · exact .inl ⟨l, hkl, hl, h⟩
    · exact .inr h
  · rintro (⟨l, hkl, hl, h⟩ | h)
    · exact ⟨l, hkl, Nat.le_succ_of_le hl, h⟩
    · exact ⟨k + more + 1, Nat.le_succ_of_le (Nat.le_add_right _ _), Nat.le_refl _, h⟩

theorem Sound.power (hf : f.Sound L) : ∀ k, (f.power k).Sound (Repeats L k)
  | 0 => sound_exact fun _ => WordSet.mem_emptyWord.symm
  | k + 1 => ((hf.power k).concatenate hf).congr fun _ => repeats_succ_right.symm

theorem Sound.powers (hf : f.Sound L) (least : Nat) :
    ∀ more, (f.powers least more).Sound fun w => ∃ k, least ≤ k ∧ k ≤ least + more ∧ Repeats L k w
  | 0 => (hf.power least).congr fun _ => repeats_between_self.symm
  | more + 1 => ((hf.powers least more).union (hf.power (least + more + 1))).congr fun _ => repeats_between_succ.symm

theorem Sound.copies (hf : f.Sound L) : ∀ k, (f.copies k).Sound (Repeats L (k + 1))
  | 0 => hf.congr fun _ => repeats_one.symm
  | k + 1 => ((hf.copies k).concatenate hf).congr fun _ => repeats_succ_right.symm

/-- Facts hold for longer words too, but then they no longer name all of them. -/
theorem Sound.certain (hf : f.Sound L) (hbegin : ∀ w, M w → ∃ u v, u ++ v = w ∧ L u)
    (hend : ∀ w, M w → ∃ u v, u ++ v = w ∧ L v) : { f with all := none : Facts }.Sound M where
  prefixes s hs w hw := by
    obtain ⟨u, v, rfl, hu⟩ := hbegin w hw
    obtain ⟨x, hx, hxu⟩ := hf.prefixes s hs u hu
    exact ⟨x, hx, hxu.trans (List.prefix_append u v)⟩
  suffixes s hs w hw := by
    obtain ⟨u, v, rfl, hv⟩ := hend w hw
    obtain ⟨x, hx, hxv⟩ := hf.suffixes s hs v hv
    exact ⟨x, hx, hxv.trans (List.suffix_append u v)⟩
  factors s hs w hw := by
    obtain ⟨u, v, rfl, hu⟩ := hbegin w hw
    obtain ⟨x, hx, hxu⟩ := hf.factors s hs u hu
    exact ⟨x, hx, hxu.trans (List.prefix_append u v).isInfix⟩
  all _ h := nomatch h

/-- More than `k` matches in a row begin and end with `k`. -/
theorem Sound.certain_of_repeats (hf : f.Sound (Repeats L k)) {P : Nat → Prop} (hP : ∀ l, P l → k ≤ l) :
    { f with all := none : Facts }.Sound fun w => ∃ l, P l ∧ Repeats L l w := by
  refine hf.certain (fun w ⟨l, hl, hw⟩ => ?_) fun w ⟨l, hl, hw⟩ => ?_
  · rw [← Nat.add_sub_cancel' (hP l hl)] at hw
    obtain ⟨u, v, huv, hu, -⟩ := repeats_add.1 hw
    exact ⟨u, v, huv, hu⟩
  · rw [← Nat.sub_add_cancel (hP l hl)] at hw
    obtain ⟨u, v, huv, -, hv⟩ := repeats_add.1 hw
    exact ⟨u, v, huv, hv⟩

theorem Sound.repeated (hf : f.Sound L) (times : Bounds) : (f.repeated times).Sound
    fun w => ∃ k, times.least ≤ k ∧ k ≤ times.greatest ∧ Repeats L k w := by
  have hle := times.least_le_greatest
  have hcongr (w : Word) : (∃ k, (times.least ≤ k ∧ k ≤ times.greatest) ∧ Repeats L k w) ↔
      ∃ k, times.least ≤ k ∧ k ≤ times.greatest ∧ Repeats L k w := exists_congr fun _ => and_assoc
  unfold Facts.repeated
  split
  · have hspelled := (hf.powers times.least (times.greatest - times.least)).congr fun w => by
      rw [Nat.add_sub_cancel' hle]
    have hcertain := ((hf.power times.least).certain_of_repeats fun k hk => hk.1).congr hcongr
    have hor {a b : Option WordSet} {s : WordSet} (h : a.or b = some s) : a = some s ∨ b = some s := by
      cases a with
      | none => exact .inr h
      | some _ => exact .inl h
    refine ⟨fun s hs => ?_, fun s hs => ?_, fun s hs => ?_, hspelled.all⟩
    · exact (hor hs).elim (hspelled.prefixes s) (hcertain.prefixes s)
    · exact (hor hs).elim (hspelled.suffixes s) (hcertain.suffixes s)
    · exact (hor hs).elim (hspelled.factors s) (hcertain.factors s)
  · split
    · have hempty : (exact .emptyWord).Sound (Repeats L 0) := hf.power 0
      exact (hempty.certain_of_repeats fun k _ => Nat.zero_le k).congr hcongr
    · rename_i k hk
      refine ((hf.copies k).certain_of_repeats fun l hl => ?_).congr hcongr
      omega

/-! ## Facts of patterns -/

theorem sound_ofClass (intervals : List Interval) : (ofClass intervals).Sound (Pattern.oneOf intervals).Accepted := by
  unfold ofClass
  split
  · refine sound_exact fun w => ?_
    simp only [WordSet.mem_ofList, List.mem_map, List.mem_flatMap, Interval.mem_chars, Pattern.Accepted]
    constructor
    · rintro ⟨i, hi, c, hc, rfl⟩
      exact ⟨c, ⟨i, hi, hc⟩, rfl⟩
    · rintro ⟨c, ⟨i, hi, hc⟩, rfl⟩
      exact ⟨i, hi, c, hc, rfl⟩
  · exact sound_absent

/-- **The facts of a pattern hold for all that its automaton accepts.** -/
theorem sound_ofPattern : ∀ p : Pattern, (ofPattern p).Sound p.Accepted
  | .word w => sound_exact fun v => by
    rw [WordSet.mem_ofList, List.mem_singleton]
    exact Iff.rfl
  | .oneOf intervals => sound_ofClass intervals
  | .seq head tail => (sound_ofPattern head).concatenate (sound_ofPattern tail)
  | .alt left right => (sound_ofPattern left).union (sound_ofPattern right)
  | .star p => sound_starred (ofPattern p)
  | .count p times => (sound_ofPattern p).repeated times

/-! ## What a search can use -/

theorem Sound.initials (hf : f.Sound L) {cs : List Char} (h : f.initials = some cs) (hw : L w) :
    ∃ c ∈ cs, ∃ v, w = c :: v := by
  unfold Facts.initials at h
  split at h
  · rename_i s hs
    split at h
    · cases h
    · rename_i hempty
      dsimp only at h
      split at h
      · cases h
        obtain ⟨u, hu, z, rfl⟩ := hf.prefixes s hs w hw
        cases u with
        | nil => exact absurd (.inr hu) hempty
        | cons c u =>
          refine ⟨c, Ascending.mem_ascending.2 (List.mem_filterMap.2 ⟨c :: u, hu, rfl⟩), u ++ z, rfl⟩
      · cases h
  · cases h

theorem foldl_agreement_le (w : Word) : ∀ (ws : List Word) (n : Nat),
    ws.foldl (fun n v => min n (Word.agreement w v)) n ≤ n ∧
      ∀ v ∈ ws, ws.foldl (fun n v => min n (Word.agreement w v)) n ≤ Word.agreement w v
  | [], n => ⟨Nat.le_refl n, fun _ h => nomatch h⟩
  | x :: ws, n => by
    obtain ⟨hle, hall⟩ := foldl_agreement_le w ws (min n (Word.agreement w x))
    refine ⟨Nat.le_trans hle (Nat.min_le_left _ _), fun v hv => ?_⟩
    rcases List.mem_cons.1 hv with rfl | hv
    · exact Nat.le_trans hle (Nat.min_le_right _ _)
    · exact hall v hv

/-- Words agree on every beginning that is not longer than their agreement. -/
theorem take_eq_of_le_agreement {v w : Word} {n : Nat} (h : n ≤ Word.agreement v w) : v.take n = w.take n := by
  have := congrArg (List.take n) (Word.take_agreement v w)
  rwa [List.take_take, List.take_take, Nat.min_eq_left h] at this

theorem Sound.sharedStart (hf : f.Sound L) {u : Word} (h : f.sharedStart = some u) (hw : L w) : u <+: w := by
  unfold Facts.sharedStart at h
  split at h
  · rename_i first rest hwords
    obtain ⟨s, hs, hwords⟩ := Option.map_eq_some_iff.1 hwords
    obtain ⟨hle, hall⟩ := foldl_agreement_le first rest first.length
    split at h
    · cases h
    · rename_i n hn
      cases h
      obtain ⟨x, hx, hxw⟩ := hf.prefixes s hs w hw
      rw [WordSet.mem_def, hwords] at hx
      rcases List.mem_cons.1 hx with rfl | hx
      · exact (List.take_prefix _ _).trans hxw
      · rw [take_eq_of_le_agreement (hn ▸ hall x hx)]
        exact (List.take_prefix _ _).trans hxw
  · cases h

/-- **No match of the automaton is ruled out by the facts of its pattern.** -/
theorem ofPattern_hold_for_minimize (p : Pattern) : ∃ raw, Dfa.ofNfa (Nfa.ofPattern p) = .ok raw ∧
    (∀ s, (ofPattern p).all = some s → ∀ w, raw.minimize.accepts w = true ↔ w ∈ s) ∧
    ∀ w, raw.minimize.accepts w = true →
      (∀ s, (ofPattern p).prefixes = some s → ∃ u ∈ s, u <+: w) ∧
      (∀ s, (ofPattern p).suffixes = some s → ∃ u ∈ s, u <:+ w) ∧
      (∀ s, (ofPattern p).factors = some s → ∃ u ∈ s, u <:+: w) ∧
      (∀ u, (ofPattern p).sharedStart = some u → u <+: w) ∧
      ∀ cs, (ofPattern p).initials = some cs → ∃ c ∈ cs, ∃ v, w = c :: v := by
  have hn := Nfa.wellFormed_ofPattern p
  obtain ⟨raw, keys, hraw, hsubsets⟩ := Dfa.exists_ofNfa hn
  have hsound : (ofPattern p).Sound fun w => raw.minimize.accepts w = true :=
    (sound_ofPattern p).congr fun w => by
      rw [Dfa.accepts_minimize_eq hsubsets.wellFormed, hsubsets.accepts_iff hn, Nfa.hasRun_ofPattern]
  refine ⟨raw, hraw, hsound.all, fun w hw => ⟨?_, ?_, ?_, ?_, ?_⟩⟩
  · exact fun s hs => hsound.prefixes s hs w hw
  · exact fun s hs => hsound.suffixes s hs w hw
  · exact fun s hs => hsound.factors s hs w hw
  · exact fun u hu => hsound.sharedStart hu hw
  · exact fun cs hcs => hsound.initials hcs hw

end Facts
end PatternAutomata
