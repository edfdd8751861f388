import Mathlib.Data.Char
import PatternAutomata.Proofs.Compiled
import PatternAutomata.Proofs.Facts
import PatternAutomata.Proofs.Pattern.Length
/-!
# Tightness — no word is listed for nothing

Facts that hold could still list words that no match shows.  They do not: each word of each set is part of some accepted
word, at the place that the set speaks of, and no set grows beyond `maxWords` (`tight_ofPattern`).  The induction runs
against that of soundness, from the words of the sets to words of the languages, so it needs a word in every language to
complete a match with; only an empty character set has none.  Where the facts are both sound and tight, the first
characters that they report are exactly those of the accepted words (`mem_initials_iff`).
-/
namespace PatternAutomata
namespace Facts

/-- There are not too many words in the set, if there is one, and each stands in `R` to a word of `L`. -/
def Shown (R : Word → Word → Prop) (L : Word → Prop) (a : Option WordSet) : Prop :=
  ∀ s, a = some s → s.size ≤ maxWords ∧ ∀ u ∈ s, ∃ w, L w ∧ R u w

/-- Each word of the facts is part of a word of `L`. -/
structure Tight (f : Facts) (L : Word → Prop) : Prop where
  prefixes : Shown (· <+: ·) L f.prefixes
  suffixes : Shown (· <:+ ·) L f.suffixes
  factors : Shown (· <:+: ·) L f.factors
  all : Shown (· = ·) L f.all

variable {f g : Facts} {L M : Word → Prop} {P Q R : Word → Word → Prop} {s : WordSet} {a b : Option WordSet} {w : Word}
  {k l : Nat}

/-! ## Combining sets -/

theorem shown_none : Shown R L none := fun _ h => nomatch h

theorem shown_some (hsize : s.size ≤ maxWords) (h : ∀ u ∈ s, ∃ w, L w ∧ R u w) : Shown R L (some s) :=
  fun _ hs => Option.some.inj hs ▸ ⟨hsize, h⟩

/-- What is shown by the words of one language is shown by those of another that have them as parts. -/
theorem Shown.carry (h : Shown R L a) (hM : ∀ u w, L w → R u w → ∃ x, M x ∧ R u x) : Shown R M a := fun s hs => by
  refine ⟨(h s hs).1, fun u hu => ?_⟩
  obtain ⟨w, hw, huw⟩ := (h s hs).2 u hu
  exact hM u w hw huw

theorem Shown.best (ha : Shown R L a) (hb : Shown R L b) : Shown R L (best a b) := fun s hs =>
  (best_eq_some hs).elim (ha s) (hb s)

theorem Shown.or (ha : Shown R L a) (hb : Shown R L b) : Shown R L (a.or b) := by
  cases a with
  | none => exact hb
  | some _ => exact ha

theorem Shown.either (ha : Shown R L a) (hb : Shown R M b) : Shown R (fun w => L w ∨ M w) (either a b) := by
  intro r hr
  obtain ⟨s, t, hs, ht, rfl, hsize⟩ := either_eq_some_iff.1 hr
  refine ⟨hsize, fun u hu => ?_⟩
  rcases WordSet.mem_union.1 hu with hu | hu
  · obtain ⟨w, hw, huw⟩ := (ha s hs).2 u hu
    exact ⟨w, .inl hw, huw⟩
  · obtain ⟨w, hw, huw⟩ := (hb t ht).2 u hu
    exact ⟨w, .inr hw, huw⟩

theorem Shown.cross (ha : Shown P L a) (hb : Shown Q M b) (hR : ∀ u v w x, P u w → Q v x → R (u ++ v) (w ++ x)) :
    Shown R (Followed L M) (cross a b) := by
  unfold Facts.cross
  split
  · rename_i s t
    split
    · rename_i hsize
      refine shown_some (Nat.le_trans (s.size_product_le t) hsize) fun y hy => ?_
      obtain ⟨u, hu, v, hv, rfl⟩ := WordSet.mem_product.1 hy
      obtain ⟨w, hw, huw⟩ := (ha s rfl).2 u hu
      obtain ⟨x, hx, hvx⟩ := (hb t rfl).2 v hv
      exact ⟨w ++ x, ⟨w, x, rfl, hw, hx⟩, hR u v w x huw hvx⟩
    · exact shown_none
  · exact shown_none

/-! ## Combining facts -/

theorem Tight.congr (h : f.Tight L) (hLM : ∀ w, L w ↔ M w) : f.Tight M :=
  have key {R : Word → Word → Prop} {a : Option WordSet} (h : Shown R L a) : Shown R M a :=
    h.carry fun _ w hw hR => ⟨w, (hLM w).1 hw, hR⟩
  ⟨key h.prefixes, key h.suffixes, key h.factors, key h.all⟩

theorem tight_absent : absent.Tight L := ⟨shown_none, shown_none, shown_none, shown_none⟩

theorem tight_exact (hsize : s.size ≤ maxWords) (h : ∀ w ∈ s, L w) : (exact s).Tight L where
  prefixes := shown_some hsize fun u hu => ⟨u, h u hu, List.prefix_refl u⟩
  suffixes := shown_some hsize fun u hu => ⟨u, h u hu, List.suffix_refl u⟩
  factors := shown_some hsize fun u hu => ⟨u, h u hu, List.infix_refl u⟩
  all := shown_some hsize fun u hu => ⟨u, h u hu, rfl⟩

theorem Tight.concatenate (hf : f.Tight L) (hg : g.Tight M) (hL : ∃ w, L w) (hM : ∃ w, M w) :
    (f.concatenate g).Tight (Followed L M) := by
  obtain ⟨x, hx⟩ := hL
  obtain ⟨y, hy⟩ := hM
  have hleft {w : Word} (hw : L w) : Followed L M (w ++ y) := ⟨w, y, rfl, hw, hy⟩
  have hright {w : Word} (hw : M w) : Followed L M (x ++ w) := ⟨x, w, rfl, hx, hw⟩
  refine ⟨Shown.best ?_ ?_, Shown.best ?_ ?_, Shown.best (Shown.best ?_ ?_) ?_, ?_⟩
  · exact hf.prefixes.carry fun u w hw huw => ⟨w ++ y, hleft hw, huw.trans (List.prefix_append w y)⟩
  · refine hf.all.cross hg.prefixes fun u v w x huw hvx => ?_
    rw [huw]
    exact (List.prefix_append_right_inj w).2 hvx
  · exact hg.suffixes.carry fun u w hw huw => ⟨x ++ w, hright hw, huw.trans (List.suffix_append x w)⟩
  · refine hf.suffixes.cross hg.all fun u v w x huw hvx => ?_
    obtain ⟨z, rfl⟩ := huw
    exact ⟨z, by rw [hvx, List.append_assoc]⟩
  · exact hf.factors.carry fun u w hw huw => ⟨w ++ y, hleft hw, huw.trans (List.prefix_append w y).isInfix⟩
  · exact hg.factors.carry fun u w hw huw => ⟨x ++ w, hright hw, huw.trans (List.suffix_append x w).isInfix⟩
  · refine hf.suffixes.cross hg.prefixes fun u v w x huw hvx => ?_
    obtain ⟨z, rfl⟩ := huw
    obtain ⟨z', rfl⟩ := hvx
    exact ⟨z, z', by simp only [List.append_assoc]⟩
  · exact hf.all.cross hg.all fun u v w x huw hvx => by rw [huw, hvx]

theorem Tight.union (hf : f.Tight L) (hg : g.Tight M) : (f.union g).Tight fun w => L w ∨ M w :=
  ⟨hf.prefixes.either hg.prefixes, hf.suffixes.either hg.suffixes, hf.factors.either hg.factors, hf.all.either hg.all⟩

theorem size_emptyWord_le : WordSet.emptyWord.size ≤ maxWords := by decide

theorem tight_starred (f : Facts) (hL : ∃ w, L w) : f.starred.Tight L where
  prefixes := shown_none
  suffixes := shown_none
  factors s hs := by
    obtain ⟨w, hw⟩ := hL
    obtain ⟨_, _, rfl⟩ := Option.map_eq_some_iff.1 hs
    refine ⟨size_emptyWord_le, fun u hu => ⟨w, hw, ?_⟩⟩
    rw [WordSet.mem_emptyWord.1 hu]
    exact List.nil_infix
  all := shown_none

/-! ## Bounded repetition -/

theorem Tight.power (hf : f.Tight L) (hL : ∃ w, L w) : ∀ k, (f.power k).Tight (Repeats L k)
  | 0 => tight_exact size_emptyWord_le fun _ hw => WordSet.mem_emptyWord.1 hw
  | k + 1 => by
    have hk : ∃ w, Repeats L k w := hL.elim fun w hw => (exists_repeats hw k).imp fun _ h => h.1
    exact ((hf.power hL k).concatenate hf hk hL).congr fun _ => repeats_succ_right.symm

theorem Tight.powers (hf : f.Tight L) (hL : ∃ w, L w) (least : Nat) :
    ∀ more, (f.powers least more).Tight fun w => ∃ k, least ≤ k ∧ k ≤ least + more ∧ Repeats L k w
  | 0 => (hf.power hL least).congr fun _ => repeats_between_self.symm
  | more + 1 => ((hf.powers hL least more).union (hf.power hL (least + more + 1))).congr fun _ =>
    repeats_between_succ.symm

theorem Tight.copies (hf : f.Tight L) (hL : ∃ w, L w) : ∀ k, (f.copies k).Tight (Repeats L (k + 1))
  | 0 => hf.congr fun _ => repeats_one.symm
  | k + 1 => by
    have hk : ∃ w, Repeats L (k + 1) w := hL.elim fun w hw => (exists_repeats hw (k + 1)).imp fun _ h => h.1
    exact ((hf.copies hL k).concatenate hf hk hL).congr fun _ => repeats_succ_right.symm

/-- Facts that are tight for the words of one language are tight for longer words, as far as these are not named. -/
theorem Tight.certain (hf : f.Tight L) (hbegin : ∀ w, L w → ∃ v, M (w ++ v)) (hend : ∀ w, L w → ∃ u, M (u ++ w)) :
    { f with all := none : Facts }.Tight M where
  prefixes := hf.prefixes.carry fun _ w hw huw =>
    (hbegin w hw).elim fun v hv => ⟨w ++ v, hv, huw.trans (List.prefix_append w v)⟩
  suffixes := hf.suffixes.carry fun _ w hw huw =>
    (hend w hw).elim fun v hv => ⟨v ++ w, hv, huw.trans (List.suffix_append v w)⟩
  factors := hf.factors.carry fun _ w hw huw =>
    (hbegin w hw).elim fun v hv => ⟨w ++ v, hv, huw.trans (List.prefix_append w v).isInfix⟩
  all := shown_none

/-- `k` matches in a row begin and end more of them. -/
theorem Tight.certain_of_repeats (hf : f.Tight (Repeats L k)) (hL : ∃ w, L w) (hkl : k ≤ l)
    (hM : ∀ w, Repeats L l w → M w) : { f with all := none : Facts }.Tight M := by
  obtain ⟨x, hx⟩ := hL
  obtain ⟨y, hy, -⟩ := exists_repeats hx (l - k)
  refine hf.certain (fun w hw => ⟨y, hM _ ?_⟩) fun w hw => ⟨y, hM _ ?_⟩
  · rw [← Nat.add_sub_cancel' hkl]
    exact repeats_add.2 ⟨w, y, rfl, hw, hy⟩
  · rw [← Nat.sub_add_cancel hkl]
    exact repeats_add.2 ⟨y, w, rfl, hy, hw⟩

theorem Tight.repeated (hf : f.Tight L) (hL : ∃ w, L w) (times : Bounds) : (f.repeated times).Tight
    fun w => ∃ k, times.least ≤ k ∧ k ≤ times.greatest ∧ Repeats L k w := by
  have hle := times.least_le_greatest
  have hleast (w : Word) (hw : Repeats L times.least w) :
      ∃ k, times.least ≤ k ∧ k ≤ times.greatest ∧ Repeats L k w := ⟨times.least, Nat.le_refl _, hle, hw⟩
  unfold Facts.repeated
  split
  · have hspelled := (hf.powers hL times.least (times.greatest - times.least)).congr fun w => by
      rw [Nat.add_sub_cancel' hle]
    have hcertain := (hf.power hL times.least).certain_of_repeats hL (Nat.le_refl _) hleast
    exact ⟨hspelled.prefixes.or hcertain.prefixes, hspelled.suffixes.or hcertain.suffixes,
      hspelled.factors.or hcertain.factors, hspelled.all⟩
  · split
    · exact (hf.power hL 0).certain_of_repeats hL (Nat.zero_le _) hleast
    · rename_i k hk
      exact (hf.copies hL k).certain_of_repeats hL (by omega) hleast

/-! ## Facts of patterns -/

theorem tight_ofClass (intervals : List Interval) : (ofClass intervals).Tight (Pattern.oneOf intervals).Accepted := by
  unfold ofClass
  split
  · rename_i hsize
    refine tight_exact ?_ fun w hw => ?_
    · refine Nat.le_trans (WordSet.size_ofList_le _) ?_
      rw [List.length_map]
      exact Nat.le_trans (Interval.length_flatMap_chars_le intervals) (Nat.le_trans hsize (by decide))
    · simp only [WordSet.mem_ofList, List.mem_map, List.mem_flatMap, Interval.mem_chars] at hw
      obtain ⟨c, ⟨i, hi, hc⟩, rfl⟩ := hw
      exact ⟨i, hi, c, hc, rfl⟩
  · exact tight_absent

/-- **Each word of a pattern's facts is part of an accepted word.** -/
theorem tight_ofPattern : ∀ {p : Pattern}, p.Filled → (ofPattern p).Tight p.Accepted
  | .word w, _ => tight_exact (Nat.le_trans (WordSet.size_ofList_le [w]) (by decide : 1 ≤ maxWords)) fun v hv =>
    List.mem_singleton.1 (WordSet.mem_ofList.1 hv)
  | .oneOf intervals, _ => tight_ofClass intervals
  | .seq _ _, ⟨hhead, htail⟩ =>
    (tight_ofPattern hhead).concatenate (tight_ofPattern htail) (Pattern.exists_accepted hhead)
      (Pattern.exists_accepted htail)
  | .alt _ _, ⟨hleft, hright⟩ => (tight_ofPattern hleft).union (tight_ofPattern hright)
  | .star p, hp => tight_starred (ofPattern p) (Pattern.exists_accepted (p := .star p) hp)
  | .count p times, hp => (tight_ofPattern (p := p) hp).repeated (Pattern.exists_accepted (p := p) hp) times

/-! ## What a search can use -/

/-- The first characters that are reported are ascending. -/
theorem pairwise_initials {cs : List Char} (h : f.initials = some cs) : cs.Pairwise (· < ·) := by
  unfold Facts.initials at h
  split at h
  · split at h
    · cases h
    · dsimp only at h
      split at h
      · cases h
        exact (Ascending.ascending _).imp compare_lt_iff_lt.1
      · cases h
  · cases h

theorem exists_mem_prefixes {cs : List Char} (h : f.initials = some cs) {c : Char} (hc : c ∈ cs) :
    ∃ s, f.prefixes = some s ∧ ∃ v, c :: v ∈ s := by
  unfold Facts.initials at h
  split at h
  · rename_i s hs
    split at h
    · cases h
    · dsimp only at h
      split at h
      · cases h
        obtain ⟨u, hu, hhead⟩ := List.mem_filterMap.1 (Ascending.mem_ascending.1 hc)
        obtain ⟨v, rfl⟩ := List.head?_eq_some_iff.1 hhead
        exact ⟨s, hs, v, hu⟩
      · cases h
  · cases h

/-- **First characters**: those that sound and tight facts report are those with which a word begins. -/
theorem mem_initials_iff (hsound : f.Sound L) (htight : f.Tight L) {cs : List Char} (h : f.initials = some cs)
    {c : Char} : c ∈ cs ↔ ∃ w, L (c :: w) := by
  constructor
  · intro hc
    obtain ⟨s, hs, v, hv⟩ := exists_mem_prefixes h hc
    obtain ⟨_, hw, z, rfl⟩ := (htight.prefixes s hs).2 _ hv
    exact ⟨v ++ z, hw⟩
  · rintro ⟨w, hw⟩
    obtain ⟨_, hc, _, heq⟩ := hsound.initials h hw
    cases heq
    exact hc

end Facts

variable {text : List Char} {p : Pattern}

/-- **The facts of a compiled pattern are tight**: each word of each set is part of an accepted word and no set has more
than `maxWords`, so the first characters, where they are reported, are exactly those of the accepted words. -/
theorem compile_facts_tight (hp : Pattern.read text = .ok p) : ∃ c, compile text = .ok c ∧
    (∀ s, c.facts.prefixes = some s → s.size ≤ Facts.maxWords ∧ ∀ u ∈ s, ∃ w, c.isMatch w = true ∧ u <+: w) ∧
    (∀ s, c.facts.suffixes = some s → s.size ≤ Facts.maxWords ∧ ∀ u ∈ s, ∃ w, c.isMatch w = true ∧ u <:+ w) ∧
    (∀ s, c.facts.factors = some s → s.size ≤ Facts.maxWords ∧ ∀ u ∈ s, ∃ w, c.isMatch w = true ∧ u <:+: w) ∧
    (∀ s, c.facts.all = some s → s.size ≤ Facts.maxWords ∧ ∀ w, w ∈ s ↔ c.isMatch w = true) ∧
    ∀ cs, c.facts.initials = some cs → cs.Pairwise (· < ·) ∧ ∀ a, a ∈ cs ↔ ∃ w, c.isMatch (a :: w) = true := by
  obtain ⟨c, hc, rfl, -, hiff⟩ := exists_compile hp
  have hsound : c.facts.Sound fun w => c.isMatch w = true :=
    (Facts.sound_ofPattern c.pattern).congr fun w => (hiff w).symm
  have htight : c.facts.Tight fun w => c.isMatch w = true :=
    (Facts.tight_ofPattern (Pattern.filled_of_read hp)).congr fun w => (hiff w).symm
  refine ⟨c, hc, htight.prefixes, htight.suffixes, htight.factors, fun s hs => ?_, fun cs hcs => ?_⟩
  · exact ⟨(htight.all s hs).1, fun w => (hsound.all s hs w).symm⟩
  · exact ⟨Facts.pairwise_initials hcs, fun a => Facts.mem_initials_iff hsound htight hcs⟩

/-- Matches of `(a|bc)[xy]*d` begin with `a` or with `bc`, and some do with each. -/
theorem compile_facts_tight_choice : ∃ c, compile "(a|bc)[xy]*d".toList = .ok c ∧
    c.facts.prefixes = some (.ofList [['a'], ['b', 'c']]) ∧ (∃ w, c.isMatch w = true ∧ ['b', 'c'] <+: w) ∧
    ∀ a, a ∈ ['a', 'b'] ↔ ∃ w, c.isMatch (a :: w) = true := by
  have hread : ∃ p, Pattern.read "(a|bc)[xy]*d".toList = .ok p := ⟨_, by with_unfolding_all rfl⟩
  obtain ⟨p, hp⟩ := hread
  have hfacts : (compile "(a|bc)[xy]*d".toList).toOption.map (fun c => (c.facts.prefixes, c.facts.initials)) =
      some (some (.ofList [['a'], ['b', 'c']]), some ['a', 'b']) := by decide +kernel
  obtain ⟨c, hc, hprefixes, -, -, -, hinitials⟩ := compile_facts_tight hp
  rw [hc] at hfacts
  obtain ⟨hs, hcs⟩ := Prod.mk.inj (Option.some.inj hfacts)
  exact ⟨c, hc, hs, (hprefixes _ hs).2 _ (WordSet.mem_ofList.2 (by simp)), (hinitials _ hcs).2⟩

end PatternAutomata
