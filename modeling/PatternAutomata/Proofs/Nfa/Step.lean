import PatternAutomata.Nfa.OfPattern
import PatternAutomata.Proofs.Nfa.Path
/-!
# Step — how changes to an automaton change its paths

Each change adds ways out of states and takes none away.  Adding a state adds no way out at all, so only the added moves
matter.  Where a set of empty moves is added, a path of the new automaton is one of the old automaton, or it follows
the old one up to the first move that was added (`WithEmpties.path_iff`); the same said for the whole path is
`WithEmpties.legs_iff`.
-/
namespace PatternAutomata
namespace Nfa

/-- A way out of `i` to `j`: on a character or, without one, by an empty move. -/
def Step (n : Nfa) (i : Nat) : Option Char → Nat → Prop
  | none, j => n.EmptyMove i j
  | some c, j => n.Move i c j

variable {n m k : Nfa} {i j a b : Nat} {u v w : Word} {c : Char} {l : Option Char}

theorem not_step_of_size_le (h : n.size ≤ i) : ¬ n.Step i l j := fun hstep => by
  have hnone : n.states[i]? = none := Array.getElem?_eq_none h
  cases l with
  | none => obtain ⟨s, hs, -⟩ := hstep; rw [hnone] at hs; cases hs
  | some c => obtain ⟨s, hs, -⟩ := hstep; rw [hnone] at hs; cases hs

/-- A state that no step leads out of has no ways out. -/
theorem eq_nil_of_not_step {s : State} (hs : n.states[i]? = some s) (h : ∀ l j, ¬ n.Step i l j) :
    s.moves = [] ∧ s.empties = [] := by
  constructor
  · refine List.eq_nil_iff_forall_not_mem.2 fun m hm => h (some m.1.lo) m.2 ⟨s, hs, ?_⟩
    exact List.mem_map_of_mem (List.mem_filter.2 ⟨hm, Interval.contains_iff.2 m.1.lo_mem⟩)
  · exact List.eq_nil_iff_forall_not_mem.2 fun j hj => h none j ⟨s, hs, hj⟩

theorem lt_size_of_isAccepting (h : n.isAccepting i = true) : i < n.size := by
  obtain ⟨s, hs, -⟩ := isAccepting_eq_true.1 h
  exact (Array.getElem?_eq_some_iff.1 hs).1

/-- Whether an automaton is well-formed can be read off its steps. -/
theorem wellFormed_of_step (hstart : n.start < n.size) (h : ∀ i l j, n.Step i l j → j < n.size) : n.WellFormed where
  start_lt := hstart
  move_lt i s hs m hm := h i (some m.1.lo) m.2 ⟨s, hs, State.mem_targets.2 ⟨m, hm, m.1.lo_mem, rfl⟩⟩
  empty_lt i s hs j hj := h i none j ⟨s, hs, hj⟩

/-! ## Paths by steps -/

theorem Path.cons_step (rest : n.Path a w j) (h : n.Step i l a) : n.Path i (l.toList ++ w) j := by
  cases l with
  | none => exact .empty h rest
  | some c => exact .move h rest

theorem path_iff_step : n.Path i w j ↔
    w = [] ∧ i = j ∨ ∃ l a v, l.toList ++ v = w ∧ n.Step i l a ∧ n.Path a v j := by
  constructor
  · intro h
    cases h with
    | nil _ => exact .inl ⟨rfl, rfl⟩
    | empty first rest => exact .inr ⟨none, _, _, rfl, first, rest⟩
    | move first rest => exact .inr ⟨some _, _, _, rfl, first, rest⟩
  · rintro (⟨rfl, rfl⟩ | ⟨l, a, v, rfl, first, rest⟩)
    · exact .nil i
    · exact rest.cons_step first

/-- A path stays in a region that no step leaves, and any automaton with the region's steps has it too. -/
theorem Path.within {R : Nat → Prop} (hR : ∀ i l j, R i → n.Step i l j → R j ∧ m.Step i l j) (h : n.Path i w j)
    (hi : R i) : R j ∧ m.Path i w j := by
  induction h with
  | nil i => exact ⟨hi, .nil i⟩
  | empty first _ ih =>
    obtain ⟨hj, hstep⟩ := hR _ none _ hi first
    exact ⟨(ih hj).1, .empty hstep (ih hj).2⟩
  | move first _ ih =>
    obtain ⟨hj, hstep⟩ := hR _ (some _) _ hi first
    exact ⟨(ih hj).1, .move hstep (ih hj).2⟩

/-- **Automata with the same steps in a region have the same paths there.** -/
theorem path_congr {R : Nat → Prop} (hR : ∀ i l j, R i → n.Step i l j → R j)
    (hstep : ∀ i l j, R i → (m.Step i l j ↔ n.Step i l j)) (hi : R i) : m.Path i w j ↔ n.Path i w j :=
  ⟨fun h => (h.within (fun i l j hi h => ⟨hR i l j hi ((hstep i l j hi).1 h), (hstep i l j hi).1 h⟩) hi).2,
    fun h => (h.within (fun i l j hi h => ⟨hR i l j hi h, (hstep i l j hi).2 h⟩) hi).2⟩

/-- There is no path out of a state without ways out but the one that stays. -/
theorem path_of_no_step (h : ∀ l j, ¬ n.Step i l j) : n.Path i w j ↔ w = [] ∧ i = j := by
  constructor
  · exact fun hpath => hpath.eq_of_no_way_out (h none) fun c => h (some c)
  · rintro ⟨rfl, rfl⟩
    exact .nil i

/-! ## Changes -/

theorem step_addState {accepting : Bool} : (n.addState accepting).2.Step i l j ↔ n.Step i l j := by
  have key {P : State → Prop} (hP : ¬ P ⟨accepting, [], []⟩) :
      (∃ s, (n.addState accepting).2.states[i]? = some s ∧ P s) ↔ ∃ s, n.states[i]? = some s ∧ P s := by
    rw [getElem?_addState]
    split
    · rename_i hi
      have : n.states[i]? = none := Array.getElem?_eq_none (Nat.le_of_eq hi.symm)
      rw [this]
      exact ⟨fun ⟨s, hs, h⟩ => absurd h (Option.some.inj hs ▸ hP), fun ⟨s, hs, _⟩ => nomatch hs⟩
    · exact Iff.rfl
  cases l with
  | none => exact key (P := (j ∈ ·.empties)) List.not_mem_nil
  | some c => exact key (P := (j ∈ ·.targets c)) List.not_mem_nil

theorem isAccepting_addState {accepting : Bool} :
    (n.addState accepting).2.isAccepting i = if i = n.size then accepting else n.isAccepting i := by
  unfold isAccepting
  rw [getElem?_addState]
  by_cases h : i = n.size
  · rw [if_pos h, if_pos h]
  · rw [if_neg h, if_neg h]

theorem step_addMove {label : Interval} (ha : a < n.size) :
    (n.addMove a label b).Step i l j ↔ n.Step i l j ∨ i = a ∧ (∃ c ∈ label, l = some c) ∧ j = b := by
  obtain ⟨s, hs⟩ : ∃ s, n.states[a]? = some s := ⟨_, Array.getElem?_eq_getElem ha⟩
  by_cases hi : i = a
  · subst hi
    have hstate : (n.addMove i label b).states[i]? = some { s with moves := s.moves ++ [(label, b)] } := by
      rw [getElem?_addMove, if_pos rfl, hs]
      rfl
    cases l with
    | none => simp [Step, EmptyMove, hstate, hs]
    | some c =>
      simp only [Step, Move, hstate, hs, Option.some.injEq, exists_eq_left', State.mem_targets, List.mem_append,
        List.mem_singleton, true_and, exists_eq_right']
      constructor
      · rintro ⟨m, hm | rfl, hc, rfl⟩
        · exact .inl ⟨m, hm, hc, rfl⟩
        · exact .inr ⟨hc, rfl⟩
      · rintro (⟨m, hm, hc, rfl⟩ | ⟨hc, rfl⟩)
        · exact ⟨m, .inl hm, hc, rfl⟩
        · exact ⟨_, .inr rfl, hc, rfl⟩
  · have hstate : (n.addMove a label b).states[i]? = n.states[i]? := by rw [getElem?_addMove, if_neg (Ne.symm hi)]
    cases l <;> simp [Step, EmptyMove, Move, hstate, hi]

theorem isAccepting_addMove {label : Interval} : (n.addMove a label b).isAccepting i = n.isAccepting i := by
  unfold isAccepting
  rw [getElem?_addMove]
  by_cases h : a = i
  · rw [if_pos h]
    cases n.states[i]? <;> rfl
  · rw [if_neg h]

/-- `m` is `n` with the empty moves `X` added. -/
structure WithEmpties (n : Nfa) (X : Nat → Nat → Prop) (m : Nfa) : Prop where
  size_eq : m.size = n.size
  isAccepting_eq : ∀ i, m.isAccepting i = n.isAccepting i
  step_iff : ∀ i l j, m.Step i l j ↔ n.Step i l j ∨ l = none ∧ X i j

theorem withEmpties_self : n.WithEmpties (fun _ _ => False) n :=
  ⟨rfl, fun _ => rfl, fun _ _ _ => by rw [and_false, or_false]⟩

theorem withEmpties_addEmpty (ha : a < n.size) : n.WithEmpties (fun i j => i = a ∧ j = b) (n.addEmpty a b) := by
  refine ⟨size_addEmpty n a b, fun i => ?_, fun i l j => ?_⟩
  · unfold isAccepting
    rw [getElem?_addEmpty]
    by_cases h : a = i
    · rw [if_pos h]
      cases n.states[i]? with
      | none => rfl
      | some s => rw [Option.map_some]; dsimp only; split <;> rfl
    · rw [if_neg h]
  · by_cases hi : i < n.size
    · obtain ⟨s, hs⟩ : ∃ s, n.states[i]? = some s := ⟨_, Array.getElem?_eq_getElem hi⟩
      cases l with
      | none =>
        simp only [Step, EmptyMove, mem_empties_addEmpty hs, hs, Option.some.injEq, exists_eq_left', true_and,
          eq_comm (a := a)]
      | some c =>
        simp only [Step, Move, getElem?_addEmpty, hs, Option.map_some, Option.some.injEq, exists_eq_left', reduceCtorEq,
          false_and, or_false]
        split
        · split <;> simp [State.targets]
        · simp
    · have hi : n.size ≤ i := Nat.not_lt.1 hi
      have hm : (n.addEmpty a b).size ≤ i := size_addEmpty n a b ▸ hi
      refine iff_of_false (not_step_of_size_le hm) fun h => ?_
      rcases h with h | ⟨-, rfl, -⟩
      · exact not_step_of_size_le hi h
      · omega

namespace WithEmpties

variable {X Y : Nat → Nat → Prop}

theorem congr (h : n.WithEmpties X m) (hXY : ∀ i j, X i j ↔ Y i j) : n.WithEmpties Y m :=
  ⟨h.size_eq, h.isAccepting_eq, fun i l j => by rw [h.step_iff, hXY]⟩

theorem trans (h : n.WithEmpties X m) (h' : m.WithEmpties Y k) : n.WithEmpties (fun i j => X i j ∨ Y i j) k :=
  ⟨h'.size_eq.trans h.size_eq, fun i => (h'.isAccepting_eq i).trans (h.isAccepting_eq i), fun i l j => by
    rw [h'.step_iff, h.step_iff, or_assoc, and_or_left]⟩

theorem old (h : n.WithEmpties X m) (hstep : n.Step i l j) : m.Step i l j := (h.step_iff i l j).2 (.inl hstep)

theorem added (h : n.WithEmpties X m) (hX : X i j) : m.Step i none j := (h.step_iff i none j).2 (.inr ⟨rfl, hX⟩)

theorem path_of_path (h : n.WithEmpties X m) (hpath : n.Path i w j) : m.Path i w j :=
  hpath.mono (fun _ _ => h.old (l := none)) fun _ _ _ => h.old (l := some _)

end WithEmpties

theorem withEmpties_addEmpties (sources : List Nat) (b : Nat) (hsources : ∀ s ∈ sources, s < n.size) :
    n.WithEmpties (fun i j => i ∈ sources ∧ j = b) (n.addEmpties sources b) := by
  induction sources generalizing n with
  | nil => exact withEmpties_self.congr fun i j => by simp
  | cons s sources ih =>
    have hs := withEmpties_addEmpty (b := b) (hsources s List.mem_cons_self)
    have hrest := ih (n := n.addEmpty s b) fun t ht => hs.size_eq ▸ hsources t (List.mem_cons_of_mem _ ht)
    exact (hs.trans hrest).congr fun i j => by rw [List.mem_cons, or_and_right]

theorem withEmpties_addEmptyPairs (sources : List Nat) (a b : Nat) (hsources : ∀ s ∈ sources, s < n.size) :
    n.WithEmpties (fun i j => i ∈ sources ∧ (j = a ∨ j = b)) (n.addEmptyPairs sources a b) := by
  induction sources generalizing n with
  | nil => exact withEmpties_self.congr fun i j => by simp
  | cons s sources ih =>
    have hs := hsources s List.mem_cons_self
    have hpair := (withEmpties_addEmpty (b := a) hs).trans
      (withEmpties_addEmpty (b := b) (n := n.addEmpty s a) (size_addEmpty n s a ▸ hs))
    have hrest := ih (n := (n.addEmpty s a).addEmpty s b) fun t ht =>
      hpair.size_eq ▸ hsources t (List.mem_cons_of_mem _ ht)
    exact (hpair.trans hrest).congr fun i j => by rw [List.mem_cons, or_and_right, ← and_or_left]

/-! ## Paths across added moves -/

/-- A path in legs: each leg is a path of `n`, and from one to the next leads a move of `X`. -/
inductive Legs (n : Nfa) (X : Nat → Nat → Prop) : Nat → Word → Nat → Prop where
  | last {i j : Nat} {w : Word} (leg : n.Path i w j) : Legs n X i w j
  | jump {i a b j : Nat} {u v : Word} (leg : n.Path i u a) (across : X a b) (rest : Legs n X b v j) :
    Legs n X i (u ++ v) j

namespace WithEmpties

variable {X : Nat → Nat → Prop}

theorem legs_of_step (h : n.Step i l a) (legs : n.Legs X a w j) : n.Legs X i (l.toList ++ w) j := by
  cases legs with
  | last leg => exact .last (leg.cons_step h)
  | jump leg across rest =>
    rw [← List.append_assoc]
    exact .jump (leg.cons_step h) across rest

/-- **A path across added moves is a path in legs.** -/
theorem legs_iff (h : n.WithEmpties X m) : m.Path i w j ↔ n.Legs X i w j := by
  constructor
  · intro hpath
    induction hpath with
    | nil i => exact .last (.nil i)
    | empty first _ ih =>
      rcases (h.step_iff _ none _).1 first with hstep | ⟨-, hX⟩
      · exact legs_of_step hstep ih
      · exact .jump (.nil _) hX ih
    | move first _ ih =>
      rcases (h.step_iff _ (some _) _).1 first with hstep | ⟨hl, -⟩
      · exact legs_of_step hstep ih
      · cases hl
  · intro legs
    induction legs with
    | last leg => exact h.path_of_path leg
    | jump leg across _ ih => exact (h.path_of_path leg).trans (.empty (h.added across) ih)

/-- A path across added moves follows the old ones at least up to the first that was added. -/
theorem path_iff (h : n.WithEmpties X m) : m.Path i w j ↔
    n.Path i w j ∨ ∃ u v a b, u ++ v = w ∧ n.Path i u a ∧ X a b ∧ m.Path b v j := by
  rw [h.legs_iff]
  constructor
  · intro legs
    cases legs with
    | last leg => exact .inl leg
    | jump leg across rest => exact .inr ⟨_, _, _, _, rfl, leg, across, h.legs_iff.2 rest⟩
  · rintro (leg | ⟨u, v, a, b, rfl, leg, across, rest⟩)
    · exact .last leg
    · exact .jump leg across (h.legs_iff.1 rest)

end WithEmpties

end Nfa
end PatternAutomata
