import PatternAutomata.Proofs.Nfa.Matching
import PatternAutomata.Proofs.Nfa.Repetition
/-!
# OfPattern — the automaton of a pattern and its language

By induction on the tree, the fragment of a pattern reads the words that `Pattern.Accepted` names, and so does the whole
automaton (`hasRun_ofPattern`).  It is well-formed, and if no character set in the pattern is empty, every state leads
to the accepting one (`live_ofPattern`).
-/
namespace PatternAutomata
namespace Nfa

variable {p : Pattern} {w : Word} {i : Nat}

/-- The empty moves of an alternation: from the branch to both sides, and from their ends to the last state. -/
theorem withEmpties_branch {n : Nfa} {branch left right last : Nat} {lefts rights : List Nat}
    (hbranch : branch < n.size) (hlefts : ∀ e ∈ lefts, e < n.size) (hrights : ∀ e ∈ rights, e < n.size) :
    n.WithEmpties
      (fun i j => i = branch ∧ (j = left ∨ j = right) ∨ (i ∈ lefts ∨ i ∈ rights) ∧ j = last)
      ((((n.addEmpty branch left).addEmpty branch right).addEmpties lefts last).addEmpties rights last) := by
  have h₁ := withEmpties_addEmpty (b := left) hbranch
  have h₂ := h₁.trans (withEmpties_addEmpty (b := right) (h₁.size_eq ▸ hbranch))
  have h₃ := h₂.trans (withEmpties_addEmpties lefts last fun e he => h₂.size_eq ▸ hlefts e he)
  have h₄ := h₃.trans (withEmpties_addEmpties rights last fun e he => h₃.size_eq ▸ hrights e he)
  exact h₄.congr fun i j => by simp only [and_or_left, or_and_right, or_assoc]

/-- The branch of an alternation and the ends of both sides are there when the last state has been added. -/
theorem branch_sources {n n' m : Nfa} {f g : Fragment} (hf : (n.addState false).2.Adds f [] n')
    (hg : n'.Adds g [] m) : n.size < (m.addState false).2.size ∧ (∀ e ∈ f.ends, e < (m.addState false).2.size) ∧
      ∀ e ∈ g.ends, e < (m.addState false).2.size := by
  obtain ⟨hle, hle', -, -, hfend, hgend⟩ := branch_bounds hf hg
  have hsize := size_addState m false
  refine ⟨by omega, fun e he => ?_, fun e he => ?_⟩
  · have := (hfend e he).2
    omega
  · have := (hgend e he).2
    omega

theorem withEmpties_alt {n n' m : Nfa} {f g : Fragment} (hf : (n.addState false).2.Adds f [] n')
    (hg : n'.Adds g [] m) : (m.addState false).2.WithEmpties
      (fun i j => i = n.size ∧ (j = f.start ∨ j = g.start) ∨ (i ∈ f.ends ∨ i ∈ g.ends) ∧ j = m.size)
      (((((m.addState false).2.addEmpty n.size f.start).addEmpty n.size g.start).addEmpties f.ends m.size).addEmpties
        g.ends m.size) := by
  obtain ⟨hbranch, hlefts, hrights⟩ := branch_sources hf hg
  exact withEmpties_branch hbranch hlefts hrights

/-- The empty moves of a repetition: from the ends back to the start and on to the last state, and there from the start
too. -/
theorem withEmpties_star {n n' : Nfa} {f : Fragment} (hf : n.Adds f [] n') : (n'.addState false).2.WithEmpties
    (fun i j => i ∈ f.ends ∧ (j = f.start ∨ j = n'.size) ∨ i = f.start ∧ j = n'.size)
    (((n'.addState false).2.addEmptyPairs f.ends f.start n'.size).addEmpty f.start n'.size) := by
  have hsize := size_addState n' false
  have hends : ∀ e ∈ f.ends, e < (n'.addState false).2.size := fun e he => by
    have := (hf.end_mem e (.inl he)).2
    omega
  have hpairs := withEmpties_addEmptyPairs f.ends f.start n'.size hends
  refine hpairs.trans (withEmpties_addEmpty ?_)
  have := hf.start_mem.2
  rw [hpairs.size_eq]
  omega

/-- **What the fragment of a pattern reads.** -/
theorem stands_addPattern (p : Pattern) : ∀ n : Nfa, n.Stands p.Filled p.Accepted (fun _ => False) p.Reenters
    (addPattern p n).1 [] (addPattern p n).2 := by
  induction p with
  | word w => exact stands_word w
  | oneOf intervals => exact stands_oneOf intervals
  | seq head tail ihead itail =>
    intro n
    have hhead := ihead n
    have htail := itail (addPattern head n).2
    have hm := withEmpties_addEmpties (n := (addPattern tail (addPattern head n).2).2)
      (addPattern head n).1.ends (addPattern tail (addPattern head n).2).1.start fun s hs =>
        Nat.lt_of_lt_of_le (hhead.end_mem s (.inl hs)).2 htail.size_le
    have hjoin := hhead.join htail (hm.congr fun i j => by simp)
    exact hjoin.congr id (fun _ => Iff.rfl) (fun _ => by simp) fun _ => Iff.rfl
  | alt left right ileft iright =>
    intro n
    have hleft := ileft (n.addState false).2
    have hright := iright (addPattern left (n.addState false).2).2
    exact hleft.alt hright (withEmpties_alt hleft.toAdds hright.toAdds)
  | star p ih =>
    intro n
    exact (ih n).star (withEmpties_star (ih n).toAdds)
  | count p times ih => exact stands_count ih

/-! ## The whole automaton -/

theorem start_ofPattern (p : Pattern) : (ofPattern p).start = (addPattern p empty).1.start := rfl

theorem withEmpties_ofPattern (p : Pattern) : ((addPattern p empty).2.addState true).2.WithEmpties
    (fun i j => i ∈ (addPattern p empty).1.ends ∧ j = (addPattern p empty).2.size) (ofPattern p) := by
  have h := withEmpties_addEmpties (n := ((addPattern p empty).2.addState true).2) (addPattern p empty).1.ends
    (addPattern p empty).2.size fun s hs => by
      have := ((stands_addPattern p empty).end_mem s (.inl hs)).2
      rw [size_addState]
      omega
  refine ⟨h.size_eq, h.isAccepting_eq, fun i l j => ?_⟩
  cases l with
  | none => exact h.step_iff i none j
  | some c => exact h.step_iff i (some c) j

theorem size_ofPattern (p : Pattern) : (ofPattern p).size = (addPattern p empty).2.size + 1 := by
  rw [(withEmpties_ofPattern p).size_eq, size_addState]

theorem step_ofPattern {l : Option Char} {j : Nat} : (ofPattern p).Step i l j ↔ (addPattern p empty).2.Step i l j ∨
    l = none ∧ i ∈ (addPattern p empty).1.ends ∧ j = (addPattern p empty).2.size := by
  rw [(withEmpties_ofPattern p).step_iff, step_addState]

theorem isAccepting_ofPattern : (ofPattern p).isAccepting i = true ↔ i = (addPattern p empty).2.size := by
  rw [(withEmpties_ofPattern p).isAccepting_eq, isAccepting_addState]
  by_cases h : i = (addPattern p empty).2.size
  · simp [h]
  · simp [h, (stands_addPattern p empty).new_accepting i (Nat.zero_le i)]

/-- The last state of the automaton of a pattern is the accepting one and cannot be left. -/
theorem states_last (p : Pattern) : (ofPattern p).states[(ofPattern p).size - 1]? = some ⟨true, [], []⟩ := by
  have hlast : (ofPattern p).size - 1 = (addPattern p empty).2.size := by rw [size_ofPattern, Nat.add_sub_cancel]
  obtain ⟨s, hs, haccepting⟩ := isAccepting_eq_true.1 (isAccepting_ofPattern.2 hlast)
  have hnot (l : Option Char) (j : Nat) : ¬ (ofPattern p).Step ((ofPattern p).size - 1) l j := fun hstep => by
    rw [hlast] at hstep
    rcases step_ofPattern.1 hstep with hstep | ⟨-, hend, -⟩
    · exact not_step_of_size_le (Nat.le_refl _) hstep
    · exact Nat.lt_irrefl _ ((stands_addPattern p empty).end_mem _ (.inl hend)).2
  obtain ⟨hmoves, hempties⟩ := eq_nil_of_not_step hs hnot
  rw [hs, ← haccepting, ← hmoves, ← hempties]

/-- **The automaton of a pattern is well-formed.** -/
theorem wellFormed_ofPattern (p : Pattern) : (ofPattern p).WellFormed := by
  have h := stands_addPattern p empty
  refine wellFormed_of_step ?_ fun i l j hstep => ?_
  · have := h.start_mem.2
    rw [size_ofPattern, start_ofPattern]
    omega
  · rw [size_ofPattern]
    rcases step_ofPattern.1 hstep with hstep | ⟨-, -, rfl⟩
    · have := (h.new_step i l j (Nat.zero_le i) hstep).2
      omega
    · omega

theorem path_ofPattern (hi : i < (addPattern p empty).2.size) : (ofPattern p).Path i w (addPattern p empty).2.size ↔
    (addPattern p empty).2.Reads i (addPattern p empty).1.ends w := by
  have h := stands_addPattern p empty
  refine path_last_iff h.toAdds (fun i l j _ _ => step_ofPattern) (fun h => Nat.lt_irrefl _ h.2) (fun l j hstep => ?_)
    (Nat.zero_le i) hi
  rcases step_ofPattern.1 hstep with hstep | ⟨-, hend, -⟩
  · exact not_step_of_size_le (Nat.le_refl _) hstep
  · exact Nat.lt_irrefl _ (h.end_mem _ (.inl hend)).2

/-- **What the automaton of a pattern accepts.** -/
theorem hasRun_ofPattern (p : Pattern) (w : Word) : (ofPattern p).HasRun w ↔ p.Accepted w := by
  have h := stands_addPattern p empty
  rw [← h.reads_ends, ← path_ofPattern h.start_mem.2]
  constructor
  · rintro ⟨j, hj, hpath⟩
    exact isAccepting_ofPattern.1 hj ▸ hpath
  · intro hpath
    exact ⟨_, isAccepting_ofPattern.2 rfl, hpath⟩

/-- Every state leads to the accepting one, if no character set is empty. -/
theorem live_ofPattern (hp : p.Filled) (hi : i < (ofPattern p).size) :
    ∃ w j, (ofPattern p).isAccepting j = true ∧ (ofPattern p).Path i w j := by
  by_cases hin : i < (addPattern p empty).2.size
  · obtain ⟨w, e, he, hw⟩ := (stands_addPattern p empty).live hp i (Nat.zero_le i) hin
    exact ⟨w, _, isAccepting_ofPattern.2 rfl, (path_ofPattern hin).2 ⟨e, he.resolve_right List.not_mem_nil, hw⟩⟩
  · rw [size_ofPattern] at hi
    exact ⟨[], i, isAccepting_ofPattern.2 (by omega), .nil i⟩

/-- **When the automaton of a pattern is right.**  It always comes to an answer and never rejects a match; for a pattern
and all its parts the answer is right exactly when, for each repetition among them, every word of the repetition that
its part begins with is itself matched by the outer repetition. -/
theorem accepts_ofPattern_iff (p : Pattern) :
    (∀ w, ∃ b, (ofPattern p).accepts w = .ok b ∧ (b = true ↔ p.Accepted w) ∧ (p.Matches w → b = true)) ∧
      ((∀ q ∈ p.parts, ∀ w, (ofPattern q).accepts w = .ok true ↔ q.Matches w) ↔
        ∀ q, .star q ∈ p.parts → ∀ w, q.Leads w → (Pattern.star q).Matches w) := by
  have haccepts (p : Pattern) (w : Word) : ∃ b, (ofPattern p).accepts w = .ok b ∧ (b = true ↔ p.Accepted w) := by
    obtain ⟨b, hb, hrun⟩ := exists_accepts (wellFormed_ofPattern p) w
    exact ⟨b, hb, hrun.trans (hasRun_ofPattern p w)⟩
  have htrue (p : Pattern) (w : Word) : (ofPattern p).accepts w = .ok true ↔ p.Accepted w := by
    obtain ⟨b, hb, hacc⟩ := haccepts p w
    rw [hb, ← hacc]
    exact ⟨Except.ok.inj, congrArg Except.ok⟩
  refine ⟨fun w => ?_, ?_⟩
  · obtain ⟨b, hb, hacc⟩ := haccepts p w
    exact ⟨b, hb, hacc, fun h => hacc.2 (Pattern.accepted_of_matches h)⟩
  · rw [← Pattern.exact_iff]
    exact forall_congr' fun q => imp_congr_right fun _ => forall_congr' fun w => by rw [htrue]

/-- In `(a*b)*` the way out of the outer repetition begins where the inner one goes round, so `a` is accepted. -/
theorem accepts_nested_star :
    (ofPattern (.star (.seq (.star (.word ['a'])) (.word ['b'])))).accepts ['a'] = .ok true ∧
      ¬ (Pattern.star (.seq (.star (.word ['a'])) (.word ['b']))).Matches ['a'] := by
  refine ⟨rfl, fun ⟨k, hk⟩ => ?_⟩
  cases k with
  | zero => cases hk
  | succ k =>
    obtain ⟨_, v, huv, ⟨u₁, _, rfl, -, rfl⟩, -⟩ := hk
    have hmem : 'b' ∈ u₁ ++ ['b'] ++ v := by simp
    rw [huv] at hmem
    exact absurd hmem (by decide)

end Nfa
end PatternAutomata
