import PatternAutomata.Pattern.Language
import PatternAutomata.Proofs.Nfa.Step
/-!
# Fragment — parts of an automaton

An automaton grows by states behind those that are there, with no steps between old and new ones (`Grows`), so what a
fragment reads is decided when it is built, whatever is built around it later (`Grows.path_iff`).  A fragment is left
through its ends, and through exits that have been put aside for later; none of them has a way out yet (`Adds`).
Three languages are enough to say what a fragment does (`Stands`): the words that lead from its start to an end, those
that lead to an exit, and those that lead back to its start.
-/
namespace PatternAutomata

namespace Nfa

/-- Reading `w` from `i` can lead to one of the states. -/
def Reads (n : Nfa) (i : Nat) (states : List Nat) (w : Word) : Prop := ∃ e ∈ states, n.Path i w e

/-- `n'` is `n` with rejecting states added, from and to which no step leads. -/
structure Grows (n n' : Nfa) : Prop where
  size_le : n.size ≤ n'.size
  old_step : ∀ i l j, i < n.size → (n'.Step i l j ↔ n.Step i l j)
  new_step : ∀ i l j, n.size ≤ i → n'.Step i l j → n.size ≤ j ∧ j < n'.size
  old_accepting : ∀ i, i < n.size → n'.isAccepting i = n.isAccepting i
  new_accepting : ∀ i, n.size ≤ i → n'.isAccepting i = false

structure Adds (n : Nfa) (f : Fragment) (exits : List Nat) (n' : Nfa) : Prop extends n.Grows n' where
  start_mem : n.size ≤ f.start ∧ f.start < n'.size
  end_mem : ∀ e, e ∈ f.ends ∨ e ∈ exits → n.size ≤ e ∧ e < n'.size
  end_step : ∀ e, e ∈ f.ends ∨ e ∈ exits → ∀ l j, ¬ n'.Step e l j
  exit_apart : ∀ e ∈ exits, e ∉ f.ends ∧ e ≠ f.start

/-- `n'` is `n` with a fragment added that reads `L` up to its ends, `E` up to its exits and `K` back to its start; if
`H` holds, each of its states leads to an end or to an exit. -/
structure Stands (H : Prop) (L E K : Word → Prop) (n : Nfa) (f : Fragment) (exits : List Nat) (n' : Nfa) : Prop
    extends n.Adds f exits n' where
  reads_ends : ∀ w, n'.Reads f.start f.ends w ↔ L w
  reads_exits : ∀ w, n'.Reads f.start exits w ↔ E w
  returns : ∀ w, n'.Path f.start w f.start ↔ K w
  live : H → ∀ i, n.size ≤ i → i < n'.size → ∃ w e, (e ∈ f.ends ∨ e ∈ exits) ∧ n'.Path i w e

variable {H H₁ H₂ : Prop} {L E K M N K' L' E' : Word → Prop} {n₀ n n' m : Nfa} {f g : Fragment} {exits : List Nat}
  {i j x : Nat} {w : Word}

theorem Stands.congr {H' : Prop} (h : n.Stands H L E K f exits n') (hH : H' → H) (hL : ∀ w, L w ↔ L' w)
    (hE : ∀ w, E w ↔ E' w) (hK : ∀ w, K w ↔ K' w) : n.Stands H' L' E' K' f exits n' :=
  ⟨h.toAdds, fun w => (h.reads_ends w).trans (hL w), fun w => (h.reads_exits w).trans (hE w),
    fun w => (h.returns w).trans (hK w), fun hH' => h.live (hH hH')⟩

namespace Grows

theorem refl (n : Nfa) : n.Grows n where
  size_le := Nat.le_refl _
  old_step _ _ _ _ := Iff.rfl
  new_step _ _ _ hi h := absurd h (not_step_of_size_le hi)
  old_accepting _ _ := rfl
  new_accepting _ hi := Bool.eq_false_iff.2 fun h => absurd (lt_size_of_isAccepting h) (Nat.not_lt.2 hi)

theorem trans (h : n₀.Grows n) (h' : n.Grows n') : n₀.Grows n' where
  size_le := Nat.le_trans h.size_le h'.size_le
  old_step i l j hi := (h'.old_step i l j (Nat.lt_of_lt_of_le hi h.size_le)).trans (h.old_step i l j hi)
  new_step i l j hi hstep := by
    have := h.size_le
    have := h'.size_le
    by_cases hi' : i < n.size
    · have := h.new_step i l j hi ((h'.old_step i l j hi').1 hstep)
      omega
    · have := h'.new_step i l j (Nat.not_lt.1 hi') hstep
      omega
  old_accepting i hi := (h'.old_accepting i (Nat.lt_of_lt_of_le hi h.size_le)).trans (h.old_accepting i hi)
  new_accepting i hi := by
    by_cases hi' : i < n.size
    · rw [h'.old_accepting i hi', h.new_accepting i hi]
    · exact h'.new_accepting i (Nat.not_lt.1 hi')

theorem addState (h : n.Grows n') : n.Grows (n'.addState false).2 := by
  refine h.trans ⟨?_, fun _ _ _ _ => step_addState, fun i l j hi hstep => ?_, fun i hi => ?_, fun i hi => ?_⟩
  · rw [size_addState]
    exact Nat.le_succ _
  · exact absurd (step_addState.1 hstep) (not_step_of_size_le hi)
  · rw [isAccepting_addState, if_neg (Nat.ne_of_lt hi)]
  · rw [isAccepting_addState]
    split
    · rfl
    · exact (refl n').new_accepting i hi

theorem withEmpties {X : Nat → Nat → Prop} (h : n.Grows n') (hm : n'.WithEmpties X m)
    (hX : ∀ a b, X a b → n.size ≤ a ∧ n.size ≤ b ∧ b < n'.size) : n.Grows m where
  size_le := hm.size_eq ▸ h.size_le
  old_step i l j hi := by
    rw [hm.step_iff, or_iff_left, h.old_step i l j hi]
    exact fun ⟨_, hX'⟩ => absurd (hX i j hX').1 (Nat.not_le.2 hi)
  new_step i l j hi hstep := by
    rw [hm.size_eq]
    rcases (hm.step_iff i l j).1 hstep with hstep | ⟨-, hX'⟩
    · exact h.new_step i l j hi hstep
    · exact (hX i j hX').2
  old_accepting i hi := (hm.isAccepting_eq i).trans (h.old_accepting i hi)
  new_accepting i hi := (hm.isAccepting_eq i).trans (h.new_accepting i hi)

theorem addMove {label : Interval} (h : n.Grows n') (hi : n.size ≤ i) (hi' : i < n'.size) (hj : n.size ≤ j)
    (hj' : j < n'.size) : n.Grows (n'.addMove i label j) where
  size_le := size_addMove n' i label j ▸ h.size_le
  old_step a l b ha := by
    rw [step_addMove hi', or_iff_left, h.old_step a l b ha]
    exact fun ⟨heq, _⟩ => absurd (heq ▸ ha) (Nat.not_lt.2 hi)
  new_step a l b ha hstep := by
    rw [size_addMove]
    rcases (step_addMove hi').1 hstep with hstep | ⟨-, -, rfl⟩
    · exact h.new_step a l b ha hstep
    · exact ⟨hj, hj'⟩
  old_accepting a ha := isAccepting_addMove.trans (h.old_accepting a ha)
  new_accepting a ha := isAccepting_addMove.trans (h.new_accepting a ha)

/-- A path does not leave the new states. -/
theorem path_new (h : n.Grows n') (hi : n.size ≤ i) (hi' : i < n'.size) (hpath : n'.Path i w j) :
    n.size ≤ j ∧ j < n'.size :=
  (hpath.within (m := n') (R := fun i => n.size ≤ i ∧ i < n'.size)
    (fun i l j hi hstep => ⟨h.new_step i l j hi.1 hstep, hstep⟩) ⟨hi, hi'⟩).1

/-- **What the new states read is decided when they are added.** -/
theorem path_iff (h : n.Grows n') (hstep : ∀ i l j, n.size ≤ i → i < n'.size → (m.Step i l j ↔ n'.Step i l j))
    (hi : n.size ≤ i) (hi' : i < n'.size) : m.Path i w j ↔ n'.Path i w j :=
  path_congr (R := fun i => n.size ≤ i ∧ i < n'.size) (fun i l j hi => h.new_step i l j hi.1)
    (fun i l j hi => hstep i l j hi.1 hi.2) ⟨hi, hi'⟩

theorem path_of_grows (h : n₀.Grows n) (h' : n.Grows n') (hi : n₀.size ≤ i) (hi' : i < n.size) :
    n'.Path i w j ↔ n.Path i w j :=
  h.path_iff (fun i l j _ hi' => h'.old_step i l j hi') hi hi'

/-- A state to which no step leads is not met again. -/
theorem path_self (h : n.Grows n') (hi : n.size ≤ i) (hno : ∀ a l, n.size ≤ a → ¬ n'.Step a l i) :
    n'.Path i w i ↔ w = [] := by
  have key {a : Nat} {w : Word} {b : Nat} (hpath : n'.Path a w b) (ha : n.size ≤ a) (hb : b = i) :
      w = [] ∧ a = i := by
    induction hpath with
    | nil a => exact ⟨rfl, hb⟩
    | empty first _ ih =>
      obtain ⟨-, rfl⟩ := ih (h.new_step _ none _ ha first).1 hb
      exact absurd first (hno _ none ha)
    | move first _ ih =>
      obtain ⟨-, rfl⟩ := ih (h.new_step _ (some _) _ ha first).1 hb
      exact absurd first (hno _ (some _) ha)
  exact ⟨fun hpath => (key hpath hi rfl).1, fun hw => hw ▸ .nil i⟩

/-- A fragment with one end and no exits is described by its paths to that end. -/
theorem stands {start last : Nat} (h : n.Grows m) (hstart : n.size ≤ start ∧ start < m.size)
    (hlast : n.size ≤ last ∧ last < m.size) (hno : ∀ l j, ¬ m.Step last l j) (hreads : ∀ w, m.Path start w last ↔ L w)
    (hreturns : ∀ w, m.Path start w start ↔ K w)
    (hlive : H → ∀ i, n.size ≤ i → i < m.size → ∃ w, m.Path i w last) :
    n.Stands H L (fun _ => False) K ⟨start, [last]⟩ [] m := by
  have hend {e : Nat} (he : e ∈ [last] ∨ e ∈ []) : e = last := List.mem_singleton.1 (he.resolve_right List.not_mem_nil)
  refine ⟨⟨h, hstart, fun e he => hend he ▸ hlast, fun e he => hend he ▸ hno, fun e he => nomatch he⟩, fun w => ?_,
    fun w => iff_of_false (fun ⟨e, he, _⟩ => nomatch he) id, hreturns, fun hH i hi hi' => ?_⟩
  · rw [← hreads, Reads]
    simp only [List.mem_singleton, exists_eq_left]
  · obtain ⟨w, hw⟩ := hlive hH i hi hi'
    exact ⟨w, last, .inl List.mem_cons_self, hw⟩

end Grows

/-! ## One fragment after another

The ends of the first fragment get empty moves to the start of the second and to all exits. -/

section Join

variable (hf : n₀.Adds f exits n) (hg : n.Adds g [] n')
  (hm : n'.WithEmpties (fun a b => a ∈ f.ends ∧ (b = g.start ∨ b ∈ exits)) m)

include hf hg hm

theorem path_second (hi : n.size ≤ i) (hi' : i < n'.size) : m.Path i w j ↔ n'.Path i w j :=
  hg.path_iff (fun i l j hi _ => by
    rw [hm.step_iff, or_iff_left]
    exact fun ⟨_, hend, _⟩ => absurd (hf.end_mem i (.inl hend)).2 (Nat.not_lt.2 hi)) hi hi'

theorem not_step_exit (hj : j ∈ exits) (l : Option Char) (k : Nat) : ¬ m.Step j l k := fun hstep => by
  rcases (hm.step_iff j l k).1 hstep with hstep | ⟨-, hend, -⟩
  · exact hf.end_step j (.inr hj) l k ((hg.old_step j l k (hf.end_mem j (.inr hj)).2).1 hstep)
  · exact (hf.exit_apart j hj).1 hend

/-- **A path from the first fragment** stays there, or it goes on from an end into the second one or to an exit. -/
theorem path_first (hi : n₀.size ≤ i) (hi' : i < n.size) : m.Path i w j ↔ n.Path i w j ∨
    ∃ a ∈ f.ends, (∃ u v, u ++ v = w ∧ n.Path i u a ∧ n'.Path g.start v j) ∨ j ∈ exits ∧ n.Path i w a := by
  have hsecond {v : Word} : m.Path g.start v j ↔ n'.Path g.start v j :=
    path_second hf hg hm hg.start_mem.1 hg.start_mem.2
  rw [hm.path_iff, hf.path_of_grows hg.toGrows hi hi']
  refine or_congr_right ⟨?_, ?_⟩
  · rintro ⟨u, v, a, b, rfl, hu, ⟨ha, rfl | hb⟩, hv⟩
    · exact ⟨a, ha, .inl ⟨u, v, rfl, (hf.path_of_grows hg.toGrows hi hi').1 hu, hsecond.1 hv⟩⟩
    · obtain ⟨rfl, rfl⟩ := (path_of_no_step (not_step_exit hf hg hm hb)).1 hv
      exact ⟨a, ha, .inr ⟨hb, by rw [List.append_nil]; exact (hf.path_of_grows hg.toGrows hi hi').1 hu⟩⟩
  · rintro ⟨a, ha, ⟨u, v, rfl, hu, hv⟩ | ⟨hj, hw⟩⟩
    · exact ⟨u, v, a, _, rfl, (hf.path_of_grows hg.toGrows hi hi').2 hu, ⟨ha, .inl rfl⟩, hsecond.2 hv⟩
    · exact ⟨w, [], a, j, w.append_nil, (hf.path_of_grows hg.toGrows hi hi').2 hw, ⟨ha, .inr hj⟩, .nil j⟩

/-- To a state of the second fragment, it goes on from an end. -/
theorem path_first_new (hi : n₀.size ≤ i) (hi' : i < n.size) (hj : n.size ≤ j) :
    m.Path i w j ↔ ∃ a ∈ f.ends, ∃ u v, u ++ v = w ∧ n.Path i u a ∧ n'.Path g.start v j := by
  have hnot : ¬ n.Path i w j := fun hw => absurd (hf.path_new hi hi' hw).2 (Nat.not_lt.2 hj)
  have hexit : j ∉ exits := fun he => absurd (hf.end_mem j (.inr he)).2 (Nat.not_lt.2 hj)
  rw [path_first hf hg hm hi hi', or_iff_right hnot]
  simp only [hexit, false_and, or_false]

/-- To a state of the first one, it stays there or leads across an end to an exit. -/
theorem path_first_old (hi : n₀.size ≤ i) (hi' : i < n.size) (hj : j < n.size) :
    m.Path i w j ↔ n.Path i w j ∨ j ∈ exits ∧ n.Reads i f.ends w := by
  have hnot {v : Word} : ¬ n'.Path g.start v j := fun hv =>
    absurd (hg.path_new hg.start_mem.1 hg.start_mem.2 hv).1 (Nat.not_le.2 hj)
  rw [path_first hf hg hm hi hi', Reads]
  refine or_congr_right ⟨?_, ?_⟩
  · rintro ⟨a, ha, ⟨u, v, -, -, hv⟩ | ⟨hexit, hw⟩⟩
    · exact absurd hv hnot
    · exact ⟨hexit, a, ha, hw⟩
  · rintro ⟨hexit, a, ha, hw⟩
    exact ⟨a, ha, .inr ⟨hexit, hw⟩⟩

theorem Adds.join : n₀.Adds ⟨f.start, g.ends⟩ exits m where
  toGrows := (hf.toGrows.trans hg.toGrows).withEmpties hm fun a b hX => by
    obtain ⟨ha, hb⟩ := hX
    have := hf.end_mem a (.inl ha)
    have := hf.size_le
    have := hg.size_le
    rcases hb with rfl | hb
    · have := hg.start_mem
      omega
    · have := hf.end_mem b (.inr hb)
      omega
  start_mem := ⟨hf.start_mem.1, hm.size_eq ▸ Nat.lt_of_lt_of_le hf.start_mem.2 hg.size_le⟩
  end_mem e he := by
    have := hf.size_le
    have := hg.size_le
    rw [hm.size_eq]
    rcases he with he | he
    · have := hg.end_mem e (.inl he)
      omega
    · have := hf.end_mem e (.inr he)
      omega
  end_step e he l j := by
    rcases he with he | he
    · intro hstep
      rcases (hm.step_iff e l j).1 hstep with hstep | ⟨-, hend, -⟩
      · exact hg.end_step e (.inl he) l j hstep
      · have := (hf.end_mem e (.inl hend)).2
        have := (hg.end_mem e (.inl he)).1
        omega
    · exact not_step_exit hf hg hm he l j
  exit_apart e he := by
    refine ⟨fun hend => ?_, (hf.exit_apart e he).2⟩
    have := (hf.end_mem e (.inr he)).2
    have := (hg.end_mem e (.inl hend)).1
    omega

end Join

/-- **One fragment after another** reads one language after the other; what the first reads up to its ends it now reads
up to the exits as well. -/
theorem Stands.join (hf : n₀.Stands H₁ L E K f exits n) (hg : n.Stands H₂ M N K' g [] n')
    (hm : n'.WithEmpties (fun a b => a ∈ f.ends ∧ (b = g.start ∨ b ∈ exits)) m) :
    n₀.Stands (H₁ ∧ H₂) (Followed L M) (fun w => E w ∨ exits ≠ [] ∧ L w) K ⟨f.start, g.ends⟩ exits m := by
  have hstart := hf.start_mem
  have hnew {j : Nat} {w : Word} (hj : n.size ≤ j) :=
    path_first_new (w := w) hf.toAdds hg.toAdds hm hstart.1 hstart.2 hj
  have hold {j : Nat} {w : Word} (hj : j < n.size) :=
    path_first_old (w := w) hf.toAdds hg.toAdds hm hstart.1 hstart.2 hj
  refine ⟨hf.toAdds.join hg.toAdds hm, fun w => ⟨?_, ?_⟩, fun w => ⟨?_, ?_⟩, fun w => ?_, ?_⟩
  · rintro ⟨e, he, hw⟩
    obtain ⟨a, ha, u, v, rfl, hu, hv⟩ := (hnew (hg.end_mem e (.inl he)).1).1 hw
    exact ⟨u, v, rfl, (hf.reads_ends u).1 ⟨a, ha, hu⟩, (hg.reads_ends v).1 ⟨e, he, hv⟩⟩
  · rintro ⟨u, v, rfl, hu, hv⟩
    obtain ⟨a, ha, hu⟩ := (hf.reads_ends u).2 hu
    obtain ⟨e, he, hv⟩ := (hg.reads_ends v).2 hv
    exact ⟨e, he, (hnew (hg.end_mem e (.inl he)).1).2 ⟨a, ha, u, v, rfl, hu, hv⟩⟩
  · rintro ⟨e, he, hw⟩
    rcases (hold (hf.end_mem e (.inr he)).2).1 hw with hw | ⟨-, hw⟩
    · exact .inl ((hf.reads_exits w).1 ⟨e, he, hw⟩)
    · exact .inr ⟨List.ne_nil_of_mem he, (hf.reads_ends w).1 hw⟩
  · rintro (hw | ⟨hne, hw⟩)
    · obtain ⟨e, he, hw⟩ := (hf.reads_exits w).2 hw
      exact ⟨e, he, (hold (hf.end_mem e (.inr he)).2).2 (.inl hw)⟩
    · obtain ⟨e, he⟩ := List.exists_mem_of_ne_nil exits hne
      exact ⟨e, he, (hold (hf.end_mem e (.inr he)).2).2 (.inr ⟨he, (hf.reads_ends w).2 hw⟩)⟩
  · rw [hold hstart.2, ← hf.returns, or_iff_left]
    rintro ⟨hexit, -⟩
    exact (hf.exit_apart _ hexit).2 rfl
  · rintro ⟨hH₁, hH₂⟩ i hi hi'
    obtain ⟨v, e', he', hv⟩ := hg.live hH₂ g.start hg.start_mem.1 hg.start_mem.2
    have he' := he'.resolve_right List.not_mem_nil
    have hle := (hg.end_mem e' (.inl he')).1
    by_cases hin : i < n.size
    · obtain ⟨w, e, he | he, hw⟩ := hf.live hH₁ i hi hin
      · have hpath := (path_first_new hf.toAdds hg.toAdds hm hi hin hle).2 ⟨e, he, w, v, rfl, hw, hv⟩
        exact ⟨w ++ v, e', .inl he', hpath⟩
      · have hlt := (hf.end_mem e (.inr he)).2
        exact ⟨w, e, .inr he, (path_first_old hf.toAdds hg.toAdds hm hi hin hlt).2 (.inl hw)⟩
    · obtain ⟨w, e, he, hw⟩ := hg.live hH₂ i (Nat.not_lt.1 hin) (hm.size_eq ▸ hi')
      exact ⟨w, e, .inl (he.resolve_right List.not_mem_nil),
        (path_second hf.toAdds hg.toAdds hm (Nat.not_lt.1 hin) (hm.size_eq ▸ hi')).2 hw⟩

end Nfa
end PatternAutomata
