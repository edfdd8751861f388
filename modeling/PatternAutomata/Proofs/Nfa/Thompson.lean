import PatternAutomata.Proofs.Nfa.Fragment
import PatternAutomata.Proofs.Pattern.Accepted
/-!
# Thompson — the fragments of words, character sets and alternatives

What the fragment of a word or of a character set reads can be seen from its steps.  That of an alternative reads what
its parts read, since the new first state leads to their starts and their ends lead to the new last state.
-/
namespace PatternAutomata
namespace Nfa

variable {H H₁ H₂ : Prop} {L E K M N K' : Word → Prop} {n₀ n n' m : Nfa} {f g : Fragment} {exits : List Nat}
  {i j : Nat} {v w : Word} {c : Char} {l : Option Char}

/-! ## Words and character sets -/

/-- A chain reads the characters of its word from one state to the next. -/
theorem addChain_spec (w : Word) (current : Nat) (hcurrent : current + 1 = n.size) (hgrows : n₀.Grows n)
    (hle : n₀.size ≤ current) :
    (n.addChain current w).1 = current + w.length ∧ (n.addChain current w).2.size = current + w.length + 1 ∧
      n₀.Grows (n.addChain current w).2 ∧ ∀ i l j, (n.addChain current w).2.Step i l j ↔
        n.Step i l j ∨ ∃ k c, w[k]? = some c ∧ i = current + k ∧ j = current + k + 1 ∧ l = some c := by
  induction w generalizing n current with
  | nil => exact ⟨rfl, hcurrent.symm, hgrows, fun i l j => by simp [addChain]⟩
  | cons c w ih =>
    have hlt : current < (n.addState false).2.size := by rw [size_addState]; omega
    have hnext : n.size < (n.addState false).2.size := by rw [size_addState]; omega
    obtain ⟨h₁, h₂, h₃, h₄⟩ := ih (n := (n.addState false).2.addMove current (.single c) n.size) n.size
      (by rw [size_addMove, size_addState]) (hgrows.addState.addMove hle hlt (by omega) hnext) (by omega)
    refine ⟨?_, ?_, h₃, fun i l j => (h₄ i l j).trans ?_⟩
    · exact h₁.trans (by rw [List.length_cons]; omega)
    · exact h₂.trans (by rw [List.length_cons]; omega)
    · rw [step_addMove hlt, step_addState, or_assoc]
      refine or_congr_right ⟨?_, ?_⟩
      · rintro (⟨rfl, ⟨d, hd, rfl⟩, rfl⟩ | ⟨k, d, hk, rfl, rfl, rfl⟩)
        · exact ⟨0, d, by rw [Interval.mem_single.1 hd]; rfl, rfl, by omega, rfl⟩
        · exact ⟨k + 1, d, hk, by omega, by omega, rfl⟩
      · rintro ⟨k, d, hk, rfl, rfl, rfl⟩
        cases k with
        | zero =>
          cases hk
          exact .inl ⟨rfl, ⟨c, Interval.mem_single.2 rfl, rfl⟩, by omega⟩
        | succ k => exact .inr ⟨k, d, hk, by omega, by omega, rfl⟩

/-- A chain is left on the rest of its word only. -/
theorem path_chain {start : Nat} (hstep : ∀ i l j, start ≤ i → (n.Step i l j ↔
      ∃ k c, w[k]? = some c ∧ i = start + k ∧ j = start + k + 1 ∧ l = some c)) (r k : Nat) (hr : k + r = w.length) :
    n.Path (start + k) v (start + w.length) ↔ v = w.drop k := by
  induction r generalizing k v with
  | zero =>
    obtain rfl : k = w.length := hr
    have hno (l : Option Char) (j : Nat) : ¬ n.Step (start + w.length) l j := fun hs => by
      obtain ⟨k, c, hk, heq, -⟩ := (hstep _ l j (Nat.le_add_right _ _)).1 hs
      have := (List.getElem?_eq_some_iff.1 hk).1
      omega
    rw [path_of_no_step hno, List.drop_length, and_iff_left rfl]
  | succ r ih =>
    have hlt : k < w.length := by omega
    have hrest {v : Word} := ih (v := v) (k + 1) (by omega)
    rw [path_iff_step, List.drop_eq_getElem_cons hlt]
    constructor
    · rintro (⟨-, heq⟩ | ⟨l, a, v, rfl, first, rest⟩)
      · omega
      · obtain ⟨k', c, hk, hi, rfl, rfl⟩ := (hstep _ l a (Nat.le_add_right _ _)).1 first
        obtain rfl : k = k' := by omega
        obtain ⟨-, rfl⟩ := List.getElem?_eq_some_iff.1 hk
        rw [hrest.1 rest]
        rfl
    · rintro rfl
      refine .inr ⟨some w[k], start + k + 1, w.drop (k + 1), rfl, ?_, hrest.2 rfl⟩
      exact (hstep _ _ _ (Nat.le_add_right _ _)).2 ⟨k, w[k], List.getElem?_eq_getElem hlt, rfl, rfl, rfl⟩

theorem stands_word (w : Word) (n : Nfa) : n.Stands True (· = w) (fun _ => False) (· = [])
    (addPattern (.word w) n).1 [] (addPattern (.word w) n).2 := by
  obtain ⟨hlast, hsize, hgrows, hstep⟩ := addChain_spec w (n := (n.addState false).2) n.size
    (size_addState n false).symm (Grows.refl n).addState (Nat.le_refl _)
  change n.Stands True (· = w) (fun _ => False) (· = []) ⟨n.size, [((n.addState false).2.addChain n.size w).1]⟩ []
    ((n.addState false).2.addChain n.size w).2
  generalize ((n.addState false).2.addChain n.size w).1 = last at hlast
  generalize ((n.addState false).2.addChain n.size w).2 = n' at hsize hgrows hstep
  subst hlast
  have hnew (i : Nat) (l : Option Char) (j : Nat) (hi : n.size ≤ i) : n'.Step i l j ↔
      ∃ k c, w[k]? = some c ∧ i = n.size + k ∧ j = n.size + k + 1 ∧ l = some c := by
    rw [hstep, step_addState, or_iff_right (not_step_of_size_le hi)]
  refine hgrows.stands ⟨Nat.le_refl _, by omega⟩ ⟨Nat.le_add_right _ _, by omega⟩ (fun l j hs => ?_) (fun v => ?_)
    (fun v => ?_) fun _ i hi hi' => ?_
  · obtain ⟨k, c, hk, heq, -⟩ := (hnew _ l j (Nat.le_add_right _ _)).1 hs
    have := (List.getElem?_eq_some_iff.1 hk).1
    omega
  · exact path_chain hnew w.length 0 (Nat.zero_add _)
  · refine hgrows.path_self (Nat.le_refl _) fun a l ha hs => ?_
    obtain ⟨k, c, -, -, h, -⟩ := (hnew a l _ ha).1 hs
    omega
  · have hpath := (path_chain hnew (w.length - (i - n.size)) (i - n.size) (by omega)).2 rfl
    rw [Nat.add_sub_cancel' hi] at hpath
    exact ⟨w.drop (i - n.size), hpath⟩

theorem addMoves_spec (intervals : List Interval) {a b : Nat} (hgrows : n₀.Grows n) (ha : n₀.size ≤ a)
    (ha' : a < n.size) (hb : n₀.size ≤ b) (hb' : b < n.size) :
    (intervals.foldl (·.addMove a · b) n).size = n.size ∧ n₀.Grows (intervals.foldl (·.addMove a · b) n) ∧
      ∀ i l j, (intervals.foldl (·.addMove a · b) n).Step i l j ↔
        n.Step i l j ∨ i = a ∧ (∃ k ∈ intervals, ∃ c ∈ k, l = some c) ∧ j = b := by
  induction intervals generalizing n with
  | nil => exact ⟨rfl, hgrows, fun i l j => by simp⟩
  | cons k intervals ih =>
    have hsize := size_addMove n a k b
    obtain ⟨h₁, h₂, h₃⟩ := ih (n := n.addMove a k b) (hgrows.addMove ha ha' hb hb') (hsize ▸ ha') (hsize ▸ hb')
    refine ⟨h₁.trans hsize, h₂, fun i l j => (h₃ i l j).trans ?_⟩
    rw [step_addMove ha', or_assoc, ← and_or_left, ← or_and_right]
    simp only [List.mem_cons, exists_eq_or_imp]

theorem stands_oneOf (intervals : List Interval) (n : Nfa) :
    n.Stands (intervals ≠ []) (Pattern.oneOf intervals).Accepted (fun _ => False) (· = [])
      (addPattern (.oneOf intervals) n).1 [] (addPattern (.oneOf intervals) n).2 := by
  have hstart : n.size < ((n.addState false).2.addState false).2.size := by rw [size_addState, size_addState]; omega
  have hlast : n.size + 1 < ((n.addState false).2.addState false).2.size := by rw [size_addState, size_addState]; omega
  obtain ⟨hsize, hgrows, hstep⟩ := addMoves_spec intervals (Grows.refl n).addState.addState (Nat.le_refl _) hstart
    (Nat.le_succ _) hlast
  change n.Stands _ _ _ _ ⟨n.size, [(n.addState false).2.size]⟩ []
    (intervals.foldl (·.addMove n.size · (n.addState false).2.size) ((n.addState false).2.addState false).2)
  rw [size_addState]
  generalize (intervals.foldl (·.addMove n.size · (n.size + 1)) ((n.addState false).2.addState false).2) = n'
    at hsize hgrows hstep
  rw [size_addState, size_addState] at hsize
  have hnew {i j : Nat} {l : Option Char} (hi : n.size ≤ i) : n'.Step i l j ↔
      i = n.size ∧ (∃ k ∈ intervals, ∃ c ∈ k, l = some c) ∧ j = n.size + 1 := by
    rw [hstep, step_addState, step_addState, or_iff_right (not_step_of_size_le hi)]
  have hno {l : Option Char} {j : Nat} : ¬ n'.Step (n.size + 1) l j := fun hs => by
    have := ((hnew (Nat.le_succ _)).1 hs).1
    omega
  have hread (v : Word) : n'.Path n.size v (n.size + 1) ↔ (Pattern.oneOf intervals).Accepted v := by
    constructor
    · intro hpath
      rcases path_iff_step.1 hpath with ⟨-, heq⟩ | ⟨l, a, v, rfl, first, rest⟩
      · exact absurd heq (Nat.ne_of_lt (Nat.lt_succ_self _))
      · obtain ⟨-, ⟨k, hk, c, hc, rfl⟩, rfl⟩ := (hnew (Nat.le_refl _)).1 first
        obtain ⟨rfl, -⟩ := (path_of_no_step fun _ _ => hno).1 rest
        exact ⟨k, hk, c, hc, rfl⟩
    · rintro ⟨k, hk, c, hc, rfl⟩
      exact .char ((hnew (l := some c) (Nat.le_refl _)).2 ⟨rfl, ⟨k, hk, c, hc, rfl⟩, rfl⟩)
  refine hgrows.stands ⟨Nat.le_refl _, by omega⟩ ⟨Nat.le_succ _, by omega⟩ (fun l j => hno) hread (fun v => ?_)
    fun hne i hi hi' => ?_
  · refine hgrows.path_self (Nat.le_refl _) fun a l ha hs => ?_
    exact absurd ((hnew ha).1 hs).2.2 (Nat.ne_of_lt (Nat.lt_succ_self _))
  · by_cases heq : i = n.size
    · obtain ⟨k, ks, rfl⟩ := List.exists_cons_of_ne_nil hne
      exact ⟨[k.lo], heq ▸ (hread _).2 ⟨k, List.mem_cons_self, k.lo, k.lo_mem, rfl⟩⟩
    · obtain rfl : i = n.size + 1 := by omega
      exact ⟨[], .nil _⟩

/-! ## Fragments joined at one last state -/

section Last

variable {last : Nat} (hf : n.Adds f [] n')
  (hstep : ∀ i l j, n.size ≤ i → i < n'.size → (m.Step i l j ↔ n'.Step i l j ∨ l = none ∧ i ∈ f.ends ∧ j = last))
  (hlast : ¬ (n.size ≤ last ∧ last < n'.size)) (hno : ∀ l j, ¬ m.Step last l j)

include hf hstep hlast hno

/-- Where the ends of a fragment get empty moves to one last state, the words that lead there are those that lead to an
end. -/
theorem path_last_iff (hi : n.size ≤ i) (hi' : i < n'.size) : m.Path i w last ↔ n'.Reads i f.ends w := by
  have key {a b : Nat} {w : Word} (hpath : m.Path a w b) (hb : b = last) (ha : n.size ≤ a ∧ a < n'.size) :
      n'.Reads a f.ends w := by
    have hcons {l : Option Char} {a k : Nat} {w : Word} (first : m.Step a l k) (rest : m.Path k w last)
        (ih : n.size ≤ k ∧ k < n'.size → n'.Reads k f.ends w) (ha : n.size ≤ a ∧ a < n'.size) :
        n'.Reads a f.ends (l.toList ++ w) := by
      rcases (hstep a l k ha.1 ha.2).1 first with first | ⟨rfl, hend, rfl⟩
      · obtain ⟨e, he, hpath⟩ := ih (hf.new_step a l k ha.1 first)
        exact ⟨e, he, hpath.cons_step first⟩
      · obtain ⟨rfl, -⟩ := (path_of_no_step hno).1 rest
        exact ⟨a, hend, .nil a⟩
    induction hpath with
    | nil a => exact absurd (hb ▸ ha) hlast
    | empty first rest ih => exact hcons (l := none) first (hb ▸ rest) (ih hb) ha
    | move first rest ih => exact hcons (l := some _) first (hb ▸ rest) (ih hb) ha
  constructor
  · intro hpath
    exact key hpath rfl ⟨hi, hi'⟩
  · rintro ⟨e, he, hpath⟩
    have hregion (i : Nat) (l : Option Char) (j : Nat) (hi : n.size ≤ i ∧ i < n'.size) (h : n'.Step i l j) :=
      And.intro (hf.new_step i l j hi.1 h) ((hstep i l j hi.1 hi.2).2 (.inl h))
    obtain ⟨he', hpath⟩ := hpath.within hregion ⟨hi, hi'⟩
    rw [← w.append_nil]
    exact hpath.trans (.single ((hstep e none last he'.1 he'.2).2 (.inr ⟨rfl, he, rfl⟩)))

end Last

/-! ## One fragment or another

A new first state gets empty moves to both starts, and all ends get empty moves to a new last state.
-/

section Branch

variable (hf : (n.addState false).2.Adds f [] n') (hg : n'.Adds g [] n₀)
  (hm : (n₀.addState false).2.WithEmpties (fun a b => a = n.size ∧ (b = f.start ∨ b = g.start) ∨
    (a ∈ f.ends ∨ a ∈ g.ends) ∧ b = n₀.size) m)

include hf hg in
/-- The parts follow each other, and neither holds the first or the last state. -/
theorem branch_bounds : n.size + 1 ≤ n'.size ∧ n'.size ≤ n₀.size ∧ (n.size + 1 ≤ f.start ∧ f.start < n'.size) ∧
    (n'.size ≤ g.start ∧ g.start < n₀.size) ∧ (∀ e ∈ f.ends, n.size + 1 ≤ e ∧ e < n'.size) ∧
    ∀ e ∈ g.ends, n'.size ≤ e ∧ e < n₀.size := by
  have hsize : (n.addState false).2.size = n.size + 1 := size_addState n false
  rw [← hsize]
  exact ⟨hf.size_le, hg.size_le, hf.start_mem, hg.start_mem, fun e he => hf.end_mem e (.inl he),
    fun e he => hg.end_mem e (.inl he)⟩

include hf hg hm

theorem grows_branch : n.Grows m := by
  refine (((Grows.refl n).addState.trans hf.toGrows).trans hg.toGrows).addState.withEmpties hm fun a b hX => ?_
  obtain ⟨hle, hle', hfstart, hgstart, hfend, hgend⟩ := branch_bounds hf hg
  rw [size_addState]
  rcases hX with ⟨rfl, rfl | rfl⟩ | ⟨ha | ha, rfl⟩
  · omega
  · omega
  · have := hfend a ha
    omega
  · have := hgend a ha
    omega

theorem step_branch : m.Step n.size l j ↔ l = none ∧ (j = f.start ∨ j = g.start) := by
  obtain ⟨hle, hle', -, -, hfend, hgend⟩ := branch_bounds hf hg
  have hnot : n.size ∉ f.ends := fun he => by have := hfend _ he; omega
  have hnot' : n.size ∉ g.ends := fun he => by have := hgend _ he; omega
  have hnone : ¬ n₀.Step n.size l j := by
    rw [hg.old_step _ _ _ (by omega), hf.old_step _ _ _ (by rw [size_addState]; omega), step_addState]
    exact not_step_of_size_le (Nat.le_refl _)
  rw [hm.step_iff, step_addState, or_iff_right hnone]
  simp only [hnot, hnot', true_and, or_self, false_and, or_false]

theorem step_left (hi : n.size + 1 ≤ i) (hi' : i < n'.size) :
    m.Step i l j ↔ n'.Step i l j ∨ l = none ∧ i ∈ f.ends ∧ j = n₀.size := by
  obtain ⟨-, -, -, -, -, hgend⟩ := branch_bounds hf hg
  have hne : ¬ i = n.size := by omega
  have hnot : i ∉ g.ends := fun he => by have := hgend _ he; omega
  rw [hm.step_iff, step_addState, hg.old_step i l j hi']
  simp only [hne, hnot, false_and, false_or, or_false]

theorem step_right (hi : n'.size ≤ i) : m.Step i l j ↔ n₀.Step i l j ∨ l = none ∧ i ∈ g.ends ∧ j = n₀.size := by
  obtain ⟨hle, -, -, -, hfend, -⟩ := branch_bounds hf hg
  have hne : ¬ i = n.size := by omega
  have hnot : i ∉ f.ends := fun he => by have := hfend _ he; omega
  rw [hm.step_iff, step_addState]
  simp only [hne, hnot, false_and, false_or]

theorem not_step_last : ¬ m.Step n₀.size l j := by
  obtain ⟨-, hle', -, -, -, hgend⟩ := branch_bounds hf hg
  have hnot : n₀.size ∉ g.ends := fun he => Nat.lt_irrefl _ (hgend _ he).2
  rw [step_right hf hg hm hle']
  simp only [hnot, false_and, and_false, or_false]
  exact not_step_of_size_le (Nat.le_refl _)

theorem not_step_first (hi : n.size ≤ i) : ¬ m.Step i l n.size := fun hs => by
  obtain ⟨hle, hle', hfstart, hgstart, -, -⟩ := branch_bounds hf hg
  by_cases heq : i = n.size
  · subst heq
    have := ((step_branch hf hg hm).1 hs).2
    omega
  · by_cases hi' : i < n'.size
    · rcases (step_left hf hg hm (by omega) hi').1 hs with hs | ⟨-, -, heq⟩
      · have := (hf.new_step i l _ (by rw [size_addState]; omega) hs).1
        rw [size_addState] at this
        omega
      · omega
    · rcases (step_right hf hg hm (Nat.not_lt.1 hi')).1 hs with hs | ⟨-, -, heq⟩
      · have := (hg.new_step i l _ (Nat.not_lt.1 hi') hs).1
        omega
      · omega

theorem path_left (hi : n.size + 1 ≤ i) (hi' : i < n'.size) : m.Path i w n₀.size ↔ n'.Reads i f.ends w := by
  have hsize : (n.addState false).2.size = n.size + 1 := size_addState n false
  obtain ⟨-, hle', -, -, -, -⟩ := branch_bounds hf hg
  exact path_last_iff hf (fun i l j hi hi' => step_left hf hg hm (hsize ▸ hi) hi') (by omega)
    (fun _ _ => not_step_last hf hg hm) (hsize ▸ hi) hi'

theorem path_right (hi : n'.size ≤ i) (hi' : i < n₀.size) : m.Path i w n₀.size ↔ n₀.Reads i g.ends w :=
  path_last_iff hg (fun _ _ _ hi _ => step_right hf hg hm hi) (by omega) (fun _ _ => not_step_last hf hg hm) hi hi'

theorem path_branch : m.Path n.size w n₀.size ↔ n'.Reads f.start f.ends w ∨ n₀.Reads g.start g.ends w := by
  obtain ⟨hle, hle', hfstart, hgstart, -, -⟩ := branch_bounds hf hg
  rw [← path_left hf hg hm hfstart.1 hfstart.2, ← path_right hf hg hm hgstart.1 hgstart.2, path_iff_step]
  constructor
  · rintro (⟨-, heq⟩ | ⟨l, a, v, rfl, first, rest⟩)
    · omega
    · obtain ⟨rfl, rfl | rfl⟩ := (step_branch hf hg hm).1 first
      · exact .inl rest
      · exact .inr rest
  · rintro (hpath | hpath)
    · exact .inr ⟨none, f.start, w, rfl, (step_branch hf hg hm).2 ⟨rfl, .inl rfl⟩, hpath⟩
    · exact .inr ⟨none, g.start, w, rfl, (step_branch hf hg hm).2 ⟨rfl, .inr rfl⟩, hpath⟩

end Branch

theorem Stands.alt (hf : (n.addState false).2.Stands H₁ L N K f [] n') (hg : n'.Stands H₂ M E K' g [] n₀)
    (hm : (n₀.addState false).2.WithEmpties (fun a b => a = n.size ∧ (b = f.start ∨ b = g.start) ∨
      (a ∈ f.ends ∨ a ∈ g.ends) ∧ b = n₀.size) m) :
    n.Stands (H₁ ∧ H₂) (fun w => L w ∨ M w) (fun _ => False) (· = []) ⟨n.size, [n₀.size]⟩ [] m := by
  have hsize : m.size = n₀.size + 1 := hm.size_eq.trans (size_addState n₀ false)
  have hsize' : (n.addState false).2.size = n.size + 1 := size_addState n false
  obtain ⟨hle, hle', hfstart, -, -, -⟩ := branch_bounds hf.toAdds hg.toAdds
  have hgrows := grows_branch hf.toAdds hg.toAdds hm
  have hread (w : Word) : m.Path n.size w n₀.size ↔ L w ∨ M w := by
    rw [path_branch hf.toAdds hg.toAdds hm, hf.reads_ends, hg.reads_ends]
  refine hgrows.stands ⟨Nat.le_refl _, by omega⟩ ⟨by omega, by omega⟩
    (fun l j => not_step_last hf.toAdds hg.toAdds hm) hread
    (fun v => hgrows.path_self (Nat.le_refl _) fun a l => not_step_first hf.toAdds hg.toAdds hm) ?_
  -- the first state, the two parts, the last state
  rintro ⟨h₁, h₂⟩ i hi hi'
  by_cases hfirst : i = n.size
  · obtain ⟨w, e, he, hw⟩ := hf.live h₁ _ (hsize' ▸ hfstart.1) hfstart.2
    have hw := (hf.reads_ends w).1 ⟨e, he.resolve_right List.not_mem_nil, hw⟩
    exact ⟨w, hfirst ▸ (hread w).2 (.inl hw)⟩
  · by_cases hleft : i < n'.size
    · obtain ⟨w, e, he, hw⟩ := hf.live h₁ i (by omega) hleft
      have he := he.resolve_right List.not_mem_nil
      exact ⟨w, (path_left hf.toAdds hg.toAdds hm (by omega) hleft).2 ⟨e, he, hw⟩⟩
    · by_cases hright : i < n₀.size
      · obtain ⟨w, e, he, hw⟩ := hg.live h₂ i (by omega) hright
        have he := he.resolve_right List.not_mem_nil
        exact ⟨w, (path_right hf.toAdds hg.toAdds hm (by omega) hright).2 ⟨e, he, hw⟩⟩
      · obtain rfl : i = n₀.size := by omega
        exact ⟨[], .nil _⟩

end Nfa
end PatternAutomata
