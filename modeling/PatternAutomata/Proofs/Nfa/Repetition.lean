import PatternAutomata.Proofs.Nfa.Thompson
/-!
# Repetition — the fragments of repetitions

A repetition is the one place where the way back to a fragment's start matters, since the empty move that leaves it
begins there: what the fragment reads back to its start counts as a round of its own.  A counted repetition is a row of
copies, where the ends of the optional ones lead on to an exit.
-/
namespace PatternAutomata
namespace Nfa

variable {H : Prop} {L E K M N K' : Word → Prop} {n₀ n n' m : Nfa} {f : Fragment} {exits : List Nat}
  {i j k : Nat} {w : Word} {l : Option Char}

/-! ## Loops

The ends get empty moves back to the start and to a new last state, and so does the start to the last state.
-/

section Loop

variable (hf : n.Stands H L E K f [] n') (hm : (n'.addState false).2.WithEmpties
  (fun a b => a ∈ f.ends ∧ (b = f.start ∨ b = n'.size) ∨ a = f.start ∧ b = n'.size) m)

include hf hm

theorem grows_loop : n.Grows m := by
  have hstart := hf.start_mem
  have hle := hf.size_le
  refine hf.toGrows.addState.withEmpties hm fun a b hX => ?_
  rw [size_addState]
  rcases hX with ⟨ha, rfl | rfl⟩ | ⟨rfl, rfl⟩
  · have := hf.end_mem a (.inl ha)
    omega
  · have := hf.end_mem a (.inl ha)
    omega
  · omega

theorem not_step_loop : ¬ m.Step n'.size l j := by
  have hnot : n'.size ∉ f.ends := fun he => Nat.lt_irrefl _ (hf.end_mem _ (.inl he)).2
  have hne : ¬ n'.size = f.start := Nat.ne_of_gt hf.start_mem.2
  rw [hm.step_iff, step_addState]
  simp only [hnot, hne, false_and, or_self, and_false, or_false]
  exact not_step_of_size_le (Nat.le_refl _)

omit hm in
theorem path_leg (hi : n.size ≤ i) (hi' : i < n'.size) : (n'.addState false).2.Path i w j ↔ n'.Path i w j :=
  hf.path_of_grows (Grows.refl n').addState hi hi'

/-- A path from the start back to it or to the last state is made of rounds, each to an end or back to the start. -/
theorem repeats_of_legs (legs : (n'.addState false).2.Legs
      (fun a b => a ∈ f.ends ∧ (b = f.start ∨ b = n'.size) ∨ a = f.start ∧ b = n'.size) i w j)
    (hi : i = f.start) (hj : j = f.start ∨ j = n'.size) : ∃ k, Repeats (fun u => L u ∨ K u) k w := by
  have hstart := hf.start_mem
  induction legs with
  | last leg =>
    subst hi
    have hw := (path_leg hf hstart.1 hstart.2).1 leg
    rcases hj with rfl | rfl
    · exact ⟨1, repeats_one.2 (.inr ((hf.returns _).1 hw))⟩
    · exact absurd (hf.path_new hstart.1 hstart.2 hw).2 (Nat.lt_irrefl _)
  | @jump i a b j u v leg across rest ih =>
    subst hi
    have hu := (path_leg hf hstart.1 hstart.2).1 leg
    -- no step leads out of the last state, so a jump there ends the path
    have hlast (hb : b = n'.size) (hu : L u ∨ K u) : ∃ k, Repeats (fun u => L u ∨ K u) k (u ++ v) := by
      obtain ⟨rfl, -⟩ := (path_of_no_step fun _ _ => not_step_loop hf hm).1 (hb ▸ hm.legs_iff.2 rest)
      exact ⟨1, repeats_one.2 (by rwa [List.append_nil])⟩
    rcases across with ⟨ha, hb | hb⟩ | ⟨ha, hb⟩
    · obtain ⟨k, hk⟩ := ih hb hj
      exact ⟨k + 1, u, v, rfl, .inl ((hf.reads_ends u).1 ⟨a, ha, hu⟩), hk⟩
    · exact hlast hb (.inl ((hf.reads_ends u).1 ⟨a, ha, hu⟩))
    · exact hlast hb (.inr ((hf.returns u).1 (ha ▸ hu)))

/-- The end of a round leads to wherever the ends lead. -/
theorem path_jump {e : Nat} (he : e ∈ f.ends) (hj : j = f.start ∨ j = n'.size) (hi : n.size ≤ i) (hi' : i < n'.size)
    (hw : n'.Path i w e) : m.Path i w j := by
  rw [← w.append_nil]
  exact (hm.path_of_path ((path_leg hf hi hi').2 hw)).trans (.single (hm.added (.inl ⟨he, hj⟩)))

theorem path_of_repeats (hk : Repeats (fun u => L u ∨ K u) k w) : m.Path f.start w f.start := by
  have hstart := hf.start_mem
  induction k generalizing w with
  | zero =>
    have hw : w = [] := hk
    exact hw ▸ .nil _
  | succ k ih =>
    obtain ⟨u, v, rfl, hu | hu, hv⟩ := hk
    · obtain ⟨e, he, hu⟩ := (hf.reads_ends u).2 hu
      exact (path_jump hf hm he (.inl rfl) hstart.1 hstart.2 hu).trans (ih hv)
    · exact (hm.path_of_path ((path_leg hf hstart.1 hstart.2).2 ((hf.returns u).2 hu))).trans (ih hv)

end Loop

theorem Stands.star (hf : n.Stands H L E K f [] n') (hm : (n'.addState false).2.WithEmpties
      (fun a b => a ∈ f.ends ∧ (b = f.start ∨ b = n'.size) ∨ a = f.start ∧ b = n'.size) m) :
    n.Stands H (fun w => ∃ k, Repeats (fun u => L u ∨ K u) k w) (fun _ => False)
      (fun w => ∃ k, Repeats (fun u => L u ∨ K u) k w) ⟨f.start, [n'.size]⟩ [] m := by
  have hsize : m.size = n'.size + 1 := hm.size_eq.trans (size_addState n' false)
  have hle := hf.size_le
  have hstart := hf.start_mem
  refine (grows_loop hf hm).stands ⟨hstart.1, by omega⟩ ⟨hle, by omega⟩ (fun _ _ => not_step_loop hf hm)
    (fun w => ⟨?_, ?_⟩) (fun w => ⟨?_, ?_⟩) fun hH i hi hi' => ?_
  · intro hw
    exact repeats_of_legs hf hm (hm.legs_iff.1 hw) rfl (.inr rfl)
  · rintro ⟨k, hk⟩
    rw [← w.append_nil]
    exact (path_of_repeats hf hm hk).trans (.single (hm.added (.inr ⟨rfl, rfl⟩)))
  · intro hw
    exact repeats_of_legs hf hm (hm.legs_iff.1 hw) rfl (.inl rfl)
  · rintro ⟨k, hk⟩
    exact path_of_repeats hf hm hk
  · by_cases hin : i < n'.size
    · obtain ⟨w, e, he, hw⟩ := hf.live hH i hi hin
      exact ⟨w, path_jump hf hm (he.resolve_right List.not_mem_nil) (.inr rfl) hi hin hw⟩
    · obtain rfl : i = n'.size := by omega
      exact ⟨[], .nil _⟩

/-! ## Copies -/

variable {part : Nfa → Fragment × Nfa} {start : Nat} {ends : List Nat}

theorem stands_copies (hpart : ∀ n : Nfa, n.Stands H M (fun _ => False) K' (part n).1 [] (part n).2) (k : Nat)
    (h : n₀.Stands H L (fun _ => False) K ⟨start, ends⟩ [] n) :
    n₀.Stands H (Followed L (Repeats M k)) (fun _ => False) K ⟨start, (addCopies part k ends n).1⟩ []
      (addCopies part k ends n).2 := by
  induction k generalizing L ends n with
  | zero => exact h.congr id (fun w => followed_nil.symm) (fun _ => Iff.rfl) fun _ => Iff.rfl
  | succ k ih =>
    have hle := (hpart n).size_le
    have hm := withEmpties_addEmpties (n := (part n).2) ends (part n).1.start fun s hs =>
      Nat.lt_of_lt_of_le (h.end_mem s (.inl hs)).2 hle
    have hjoin := h.join (hpart n) (hm.congr fun i j => by simp)
    have hstep := ih (hjoin.congr (fun hH => ⟨hH, hH⟩) (fun _ => Iff.rfl) (fun w => by simp) fun _ => Iff.rfl)
    exact hstep.congr id (fun w => followed_assoc) (fun _ => Iff.rfl) fun _ => Iff.rfl

theorem stands_optionalCopies (hpart : ∀ n : Nfa, n.Stands H M (fun _ => False) K' (part n).1 [] (part n).2)
    {exit : Nat} (k : Nat) (h : n₀.Stands H L E K ⟨start, ends⟩ [exit] n) :
    n₀.Stands H (Followed L (Repeats M k)) (fun w => E w ∨ ∃ i < k, Followed L (Repeats M i) w) K
      ⟨start, (addOptionalCopies part exit k ends n).1⟩ [exit] (addOptionalCopies part exit k ends n).2 := by
  induction k generalizing L E ends n with
  | zero => exact h.congr id (fun w => followed_nil.symm) (fun _ => by simp) fun _ => Iff.rfl
  | succ k ih =>
    have hle := (hpart n).size_le
    have hm := withEmpties_addEmptyPairs (n := (part n).2) ends (part n).1.start exit fun s hs =>
      Nat.lt_of_lt_of_le (h.end_mem s (.inl hs)).2 hle
    have hjoin := h.join (hpart n) (hm.congr fun i j => by simp)
    have hstep := ih (hjoin.congr (fun hH => ⟨hH, hH⟩) (fun _ => Iff.rfl) (fun _ => Iff.rfl) fun _ => Iff.rfl)
    refine hstep.congr id (fun w => followed_assoc) (fun w => ?_) fun _ => Iff.rfl
    rw [or_assoc]
    refine or_congr_right ⟨?_, ?_⟩
    · rintro (⟨-, hw⟩ | ⟨i, hi, hw⟩)
      · exact ⟨0, Nat.succ_pos k, followed_nil.2 hw⟩
      · exact ⟨i + 1, Nat.succ_lt_succ hi, followed_assoc.1 hw⟩
    · rintro ⟨i, hi, hw⟩
      cases i with
      | zero => exact .inl ⟨List.cons_ne_nil _ _, followed_nil.1 hw⟩
      | succ i => exact .inr ⟨i, Nat.lt_of_succ_lt_succ hi, followed_assoc.2 hw⟩

theorem Stands.addExit (h : n.Stands H L (fun _ => False) K f [] n') :
    n.Stands H L (fun _ => False) K f [n'.size] (n'.addState false).2 := by
  have hsize := size_addState n' false
  have hle := h.size_le
  have hpath {i j : Nat} {w : Word} (hi : n.size ≤ i) (hi' : i < n'.size) :
      (n'.addState false).2.Path i w j ↔ n'.Path i w j :=
    h.path_of_grows (Grows.refl n').addState hi hi'
  have hstart := h.start_mem
  refine ⟨⟨h.toGrows.addState, ⟨hstart.1, by omega⟩, fun e he => ?_, fun e he l j hs => ?_, fun e he => ?_⟩,
    fun w => ?_, fun w => iff_of_false ?_ id, fun w => ?_, fun hH i hi hi' => ?_⟩
  · rcases he with he | he
    · have := h.end_mem e (.inl he)
      omega
    · have := List.mem_singleton.1 he
      omega
  · rcases he with he | he
    · exact h.end_step e (.inl he) l j (step_addState.1 hs)
    · exact not_step_of_size_le (Nat.le_of_eq (List.mem_singleton.1 he).symm) (step_addState.1 hs)
  · obtain rfl := List.mem_singleton.1 he
    exact ⟨fun hend => Nat.lt_irrefl _ (h.end_mem _ (.inl hend)).2, by omega⟩
  · rw [← h.reads_ends]
    exact exists_congr fun e => and_congr_right fun _ => hpath hstart.1 hstart.2
  · rintro ⟨e, he, hw⟩
    have := h.path_new hstart.1 hstart.2 ((hpath hstart.1 hstart.2).1 hw)
    have := List.mem_singleton.1 he
    omega
  · rw [← h.returns]
    exact hpath hstart.1 hstart.2
  · by_cases hin : i < n'.size
    · obtain ⟨w, e, he, hw⟩ := h.live hH i hi hin
      exact ⟨w, e, .inl (he.resolve_right List.not_mem_nil), (hpath hi hin).2 hw⟩
    · exact ⟨[], i, .inr (List.mem_singleton.2 (by omega)), .nil i⟩

theorem Stands.merge (h : n.Stands H L E K f exits n') :
    n.Stands H (fun w => L w ∨ E w) (fun _ => False) K ⟨f.start, f.ends ++ exits⟩ [] n' := by
  have hmem {e : Nat} : e ∈ f.ends ++ exits ∨ e ∈ [] ↔ e ∈ f.ends ∨ e ∈ exits := by simp
  refine ⟨⟨h.toGrows, h.start_mem, fun e he => h.end_mem e (hmem.1 he), fun e he => h.end_step e (hmem.1 he),
    fun e he => nomatch he⟩, fun w => ?_, fun w => iff_of_false (fun ⟨e, he, _⟩ => nomatch he) id, h.returns,
    fun hH i hi hi' => ?_⟩
  · rw [← h.reads_ends, ← h.reads_exits]
    simp only [Reads, List.mem_append, or_and_right, exists_or]
  · obtain ⟨w, e, he, hw⟩ := h.live hH i hi hi'
    exact ⟨w, e, hmem.2 he, hw⟩

theorem stands_count {times : Bounds} {p : Pattern}
    (hp : ∀ n : Nfa, n.Stands p.Filled p.Accepted (fun _ => False) p.Reenters (addPattern p n).1 [] (addPattern p n).2)
    (n : Nfa) : n.Stands (Pattern.count p times).Filled (Pattern.count p times).Accepted (fun _ => False)
      (Pattern.count p times).Reenters (addPattern (.count p times) n).1 [] (addPattern (.count p times) n).2 := by
  have hstart := (stands_word [] n).congr (fun _ : p.Filled => trivial) (fun _ => Iff.rfl) (fun _ => Iff.rfl)
    fun _ => Iff.rfl
  have hleast := (stands_copies hp times.least hstart).congr id (fun w => nil_followed) (fun _ => Iff.rfl)
    fun _ => Iff.rfl
  have hle := times.least_le_greatest
  unfold addPattern
  by_cases hlt : times.least < times.greatest
  · simp only [if_pos hlt]
    have hmore := (stands_optionalCopies hp (times.greatest - times.least) hleast.addExit).merge
    refine hmore.congr id (fun w => ?_) (fun _ => Iff.rfl) fun _ => Iff.rfl
    rw [false_or]
    constructor
    · rintro (hw | ⟨i, hi, hw⟩)
      · exact ⟨_, Nat.le_add_right _ _, by omega, repeats_add.2 hw⟩
      · exact ⟨_, Nat.le_add_right _ _, by omega, repeats_add.2 hw⟩
    · rintro ⟨k, hk, hk', hw⟩
      rw [← Nat.add_sub_cancel' hk] at hw
      by_cases heq : k = times.greatest
      · exact .inl (repeats_add.1 (heq ▸ hw))
      · exact .inr ⟨k - times.least, by omega, repeats_add.1 hw⟩
  · simp only [if_neg hlt]
    refine hleast.congr id (fun w => ⟨fun hw => ⟨_, Nat.le_refl _, hle, hw⟩, ?_⟩) (fun _ => Iff.rfl) fun _ => Iff.rfl
    rintro ⟨k, hk, hk', hw⟩
    obtain rfl : k = times.least := by omega
    exact hw

end Nfa
end PatternAutomata
