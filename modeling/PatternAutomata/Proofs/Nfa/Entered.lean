import PatternAutomata.Proofs.Nfa.OfPattern
/-!
# Entered — every state is met

A state that the construction adds is entered from one added before it, unless it is a start that has not been joined to
anything yet (`Entered`).  Each part keeps this, whatever its starts are joined to later; only an empty character set
leaves its end without a way in.  Following the ways in back to the first state shows that in the automaton of a pattern
every state lies on the way from the start to the accepting state (`exists_path_through`).
-/
namespace PatternAutomata
namespace Nfa

/-- Each state added to `n₀`, but for those in `S`, has a way in from an earlier one added to it. -/
def Entered (n₀ : Nfa) (S : List Nat) (n : Nfa) : Prop :=
  ∀ j, n₀.size ≤ j → j < n.size → j ∈ S ∨ ∃ i l, n₀.size ≤ i ∧ i < j ∧ n.Step i l j

variable {n₀ n n' m : Nfa} {f : Fragment} {S T ends : List Nat} {X : Nat → Nat → Prop} {start exit : Nat} {p : Pattern}
  {part : Nfa → Fragment × Nfa}

/-- A new state has no way in yet. -/
theorem entered_addState (n : Nfa) : n.Entered [n.size] (n.addState false).2 := fun j hj hlt => by
  rw [size_addState] at hlt
  exact .inl (List.mem_singleton.2 (by omega))

/-- What is added later takes no way in away. -/
theorem Entered.append (h : n₀.Entered S n) (h' : n.Entered T n') (hle : n₀.size ≤ n.size) (hgrows : n.Grows n') :
    n₀.Entered (S ++ T) n' := fun j hj hlt => by
  by_cases hin : j < n.size
  · rcases h j hj hin with hS | ⟨i, l, hi, hij, hstep⟩
    · exact .inl (List.mem_append_left T hS)
    · exact .inr ⟨i, l, hi, hij, (hgrows.old_step i l j (Nat.lt_trans hij hin)).2 hstep⟩
  · rcases h' j (Nat.not_lt.1 hin) hlt with hT | ⟨i, l, hi, hij, hstep⟩
    · exact .inl (List.mem_append_right S hT)
    · exact .inr ⟨i, l, Nat.le_trans hle hi, hij, hstep⟩

/-- States that get an empty move from an earlier one are entered. -/
theorem Entered.withEmpties (h : n₀.Entered S n) (hm : n.WithEmpties X m)
    (hX : ∀ s ∈ S, s ∈ T ∨ ∃ e, n₀.size ≤ e ∧ e < s ∧ X e s) : n₀.Entered T m := fun j hj hlt => by
  rcases h j hj (hm.size_eq ▸ hlt) with hS | ⟨i, l, hi, hij, hstep⟩
  · exact (hX j hS).imp_right fun ⟨e, he, hlt, hadded⟩ => ⟨e, none, he, hlt, hm.added hadded⟩
  · exact .inr ⟨i, l, hi, hij, hm.old hstep⟩

/-- **If only one state is not entered, it leads to all others.** -/
theorem Entered.exists_path (h : n₀.Entered [start] n) {j : Nat} (hj : n₀.size ≤ j) (hlt : j < n.size) :
    ∃ w, n.Path start w j := by
  induction j using Nat.strongRecOn with
  | ind j ih =>
    rcases h j hj hlt with hstart | ⟨i, l, hi, hij, hstep⟩
    · exact ⟨[], List.mem_singleton.1 hstart ▸ .nil j⟩
    · obtain ⟨w, hw⟩ := ih i hij hi (Nat.lt_trans hij hlt)
      exact ⟨w ++ (l.toList ++ []), hw.trans ((Path.nil j).cons_step hstep)⟩

/-! ## Words and character sets -/

theorem entered_word (w : Word) (n : Nfa) : n.Entered [n.size] (addPattern (.word w) n).2 := fun j hj hlt => by
  obtain ⟨-, hsize, -, hstep⟩ := addChain_spec w (n := (n.addState false).2) n.size
    (size_addState n false).symm (Grows.refl n).addState (Nat.le_refl _)
  by_cases heq : j = n.size
  · exact .inl (List.mem_singleton.2 heq)
  · have hlt : j < n.size + w.length + 1 := hsize ▸ hlt
    have hk : j - n.size - 1 < w.length := by omega
    refine .inr ⟨j - 1, some w[j - n.size - 1], by omega, by omega, (hstep _ _ _).2 (.inr ?_)⟩
    exact ⟨j - n.size - 1, _, List.getElem?_eq_getElem hk, by omega, by omega, rfl⟩

theorem entered_oneOf {intervals : List Interval} (hne : intervals ≠ []) (n : Nfa) :
    n.Entered [n.size] (addPattern (.oneOf intervals) n).2 := fun j hj hlt => by
  have hsize : ((n.addState false).2.addState false).2.size = n.size + 2 := by rw [size_addState, size_addState]
  obtain ⟨hsize', -, hstep⟩ := addMoves_spec intervals (b := (n.addState false).2.size)
    (Grows.refl n).addState.addState (Nat.le_refl _) (by omega) (by rw [size_addState]; omega)
    (by rw [hsize, size_addState]; omega)
  have hlt : j < n.size + 2 := hsize ▸ hsize' ▸ hlt
  by_cases heq : j = n.size
  · exact .inl (List.mem_singleton.2 heq)
  · obtain ⟨k, hk⟩ := List.exists_mem_of_ne_nil intervals hne
    refine .inr ⟨n.size, some k.lo, Nat.le_refl _, by omega, (hstep _ _ _).2 (.inr ⟨rfl, ?_, ?_⟩)⟩
    · exact ⟨k, hk, k.lo, k.lo_mem, rfl⟩
    · rw [size_addState]
      omega

/-! ## Parts one after another -/

/-- What was added to `n₀` can be gone on from at `ends`, and is entered but for the states in `S`. -/
structure Row (n₀ : Nfa) (S ends : List Nat) (n : Nfa) : Prop where
  size_le : n₀.size ≤ n.size
  ends_ne_nil : ends ≠ []
  ends_mem : ∀ e ∈ ends, n₀.size ≤ e ∧ e < n.size
  entered : n₀.Entered S n

/-- Wherever the part is added, it is entered but for its start. -/
def Enters (part : Nfa → Fragment × Nfa) : Prop :=
  ∀ n : Nfa, n.Adds (part n).1 [] (part n).2 ∧ n.Row [(part n).1.start] (part n).1.ends (part n).2

theorem row_addState (n : Nfa) : n.Row [n.size] [n.size] (n.addState false).2 := by
  have hsize := size_addState n false
  refine ⟨by omega, List.cons_ne_nil _ _, fun e he => ?_, entered_addState n⟩
  rw [List.mem_singleton.1 he]
  omega

/-- A part joined to what was there before is entered from its ends. -/
theorem Row.join (h : n₀.Row S ends n) (hf : n.Adds f [] n') (hrow : n.Row [f.start] f.ends n')
    (hm : n'.WithEmpties X m) (hX : ∀ e ∈ ends, X e f.start)
    (hS : ∀ s ∈ S, s ∈ T ∨ ∃ e, n₀.size ≤ e ∧ e < s ∧ X e s) : n₀.Row T f.ends m := by
  have hle := h.size_le
  refine ⟨hm.size_eq ▸ Nat.le_trans hle hf.size_le, hrow.ends_ne_nil, fun e he => ?_, ?_⟩
  · have := hrow.ends_mem e he
    rw [hm.size_eq]
    omega
  · refine (h.entered.append hrow.entered hle hf.toGrows).withEmpties hm fun s hs => ?_
    rcases List.mem_append.1 hs with hs | hs
    · exact hS s hs
    · obtain ⟨e, he⟩ := List.exists_mem_of_ne_nil ends h.ends_ne_nil
      rw [List.mem_singleton.1 hs]
      exact .inr ⟨e, (h.ends_mem e he).1, Nat.lt_of_lt_of_le (h.ends_mem e he).2 hf.start_mem.1, hX e he⟩

/-- A copy whose start gets empty moves from the ends before it. -/
theorem Row.copy (hpart : Enters part) (h : n₀.Row S ends n) :
    n₀.Row S (part n).1.ends ((part n).2.addEmpties ends (part n).1.start) := by
  obtain ⟨hadds, hrow⟩ := hpart n
  have hm := withEmpties_addEmpties (n := (part n).2) ends (part n).1.start fun e he =>
    Nat.lt_of_lt_of_le (h.ends_mem e he).2 hadds.size_le
  exact h.join hadds hrow hm (fun e he => ⟨he, rfl⟩) fun s hs => .inl hs

/-- The same for an optional copy, which can be left out for the exit: that may be entered from here too. -/
theorem Row.optionalCopy (hpart : Enters part) (h : n₀.Row S ends n)
    (hS : ∀ s ∈ S, s ∈ T ∨ s = exit ∧ ∃ e ∈ ends, e < exit) :
    n₀.Row T (part n).1.ends ((part n).2.addEmptyPairs ends (part n).1.start exit) := by
  obtain ⟨hadds, hrow⟩ := hpart n
  have hm := withEmpties_addEmptyPairs (n := (part n).2) ends (part n).1.start exit fun e he =>
    Nat.lt_of_lt_of_le (h.ends_mem e he).2 hadds.size_le
  refine h.join hadds hrow hm (fun e he => ⟨he, .inl rfl⟩) fun s hs => (hS s hs).imp_right ?_
  rintro ⟨rfl, e, he, hlt⟩
  exact ⟨e, (h.ends_mem e he).1, hlt, he, .inr rfl⟩

theorem Row.copies (hpart : Enters part) (k : Nat) (h : n₀.Row S ends n) :
    n₀.Row S (addCopies part k ends n).1 (addCopies part k ends n).2 := by
  induction k generalizing ends n with
  | zero => exact h
  | succ k ih => exact ih (h.copy hpart)

theorem Row.optionalCopies (hpart : Enters part) (k : Nat) (h : n₀.Row S ends n) :
    n₀.Row S (addOptionalCopies part exit k ends n).1 (addOptionalCopies part exit k ends n).2 := by
  induction k generalizing ends n with
  | zero => exact h
  | succ k ih => exact ih (h.optionalCopy hpart fun s hs => .inl hs)

theorem Row.addExit (h : n₀.Row S ends n) : n₀.Row (S ++ [n.size]) ends (n.addState false).2 := by
  have hle := h.size_le
  have hsize := size_addState n false
  refine ⟨by omega, h.ends_ne_nil, fun e he => ?_, h.entered.append (entered_addState n) hle (Grows.refl n).addState⟩
  have := h.ends_mem e he
  omega

/-! ## Patterns -/

/-- That the states of a pattern are entered is all that is left to see, once it has ends. -/
theorem enters_addPattern_of_entered (h : ∀ n, (addPattern p n).1.ends ≠ [] ∧
    n.Entered [(addPattern p n).1.start] (addPattern p n).2) : Enters (addPattern p) := fun n =>
  have hadds := (stands_addPattern p n).toAdds
  ⟨hadds, hadds.size_le, (h n).1, fun e he => hadds.end_mem e (.inl he), (h n).2⟩

theorem enters_count (hp : Enters (addPattern p)) (times : Bounds) : Enters (addPattern (.count p times)) := by
  refine enters_addPattern_of_entered fun n => ?_
  have hleast := (row_addState n).copies hp times.least
  unfold addPattern
  by_cases hlt : times.least < times.greatest
  · obtain ⟨k, hk⟩ := Nat.exists_eq_add_of_lt hlt
    have hmore : times.greatest - times.least = k + 1 := by omega
    simp only [if_pos hlt, hmore]
    have hfirst := hleast.addExit.optionalCopy (T := [n.size]) hp fun s hs => by
      -- the exit is entered from before the first optional copy
      obtain ⟨e, he⟩ := List.exists_mem_of_ne_nil _ hleast.ends_ne_nil
      rcases List.mem_append.1 hs with hs | hs
      · exact .inl hs
      · exact .inr ⟨List.mem_singleton.1 hs, e, he, (hleast.ends_mem e he).2⟩
    exact ⟨List.append_ne_nil_of_right_ne_nil _ (List.cons_ne_nil _ _), (hfirst.optionalCopies hp k).entered⟩
  · simp only [if_neg hlt]
    exact ⟨hleast.ends_ne_nil, hleast.entered⟩

/-- **The states of a pattern are entered but for its start.** -/
theorem enters_addPattern : ∀ {p : Pattern}, p.Filled → Enters (addPattern p)
  | .word w, _ => enters_addPattern_of_entered fun n => ⟨List.cons_ne_nil _ _, entered_word w n⟩
  | .oneOf _, hne => enters_addPattern_of_entered fun n => ⟨List.cons_ne_nil _ _, entered_oneOf hne n⟩
  | .seq _ _, ⟨hhead, htail⟩ => enters_addPattern_of_entered fun n =>
    have hrow := (enters_addPattern hhead n).2.copy (enters_addPattern htail)
    ⟨hrow.ends_ne_nil, hrow.entered⟩
  | .alt left right, ⟨hleft, hright⟩ => enters_addPattern_of_entered fun n => by
    obtain ⟨hl, hlrow⟩ := enters_addPattern hleft (n.addState false).2
    obtain ⟨hr, hrrow⟩ := enters_addPattern hright (addPattern left (n.addState false).2).2
    obtain ⟨hle, hle', hlstart, hrstart, hlend, -⟩ := branch_bounds hl hr
    obtain ⟨e, he⟩ := List.exists_mem_of_ne_nil _ hlrow.ends_ne_nil
    have hparts := (((entered_addState n).append hlrow.entered (by rw [size_addState]; omega) hl.toGrows).append
      hrrow.entered (by omega) hr.toGrows).append (entered_addState _) (by omega) (Grows.refl _).addState
    refine ⟨List.cons_ne_nil _ _, hparts.withEmpties (withEmpties_alt hl hr) fun s hs => ?_⟩
    simp only [List.mem_append, List.mem_singleton] at hs
    rcases hs with ((hs | rfl) | rfl) | rfl
    · exact .inl (List.mem_singleton.2 hs)
    · exact .inr ⟨n.size, Nat.le_refl _, by omega, .inl ⟨rfl, .inl rfl⟩⟩
    · exact .inr ⟨n.size, Nat.le_refl _, by omega, .inl ⟨rfl, .inr rfl⟩⟩
    · have := hlend e he
      exact .inr ⟨e, by omega, by omega, .inr ⟨.inl he, rfl⟩⟩
  | .star p, hp => enters_addPattern_of_entered fun n => by
    obtain ⟨hadds, hrow⟩ := enters_addPattern (p := p) hp n
    have hparts := hrow.entered.append (entered_addState _) hadds.size_le (Grows.refl _).addState
    refine ⟨List.cons_ne_nil _ _, hparts.withEmpties (withEmpties_star hadds) fun s hs => ?_⟩
    rcases List.mem_append.1 hs with hs | hs
    · exact .inl hs
    · rw [List.mem_singleton.1 hs]
      exact .inr ⟨_, hadds.start_mem.1, hadds.start_mem.2, .inr ⟨rfl, rfl⟩⟩
  | .count p times, hp => enters_count (enters_addPattern (p := p) hp) times

/-- **Every state of the automaton of a pattern lies on the way from the start to the accepting state**, if no character
set is empty. -/
theorem exists_path_through (hp : p.Filled) {i : Nat} (hi : i < (ofPattern p).size) :
    (∃ u, (ofPattern p).Path (ofPattern p).start u i) ∧ ∃ v, (ofPattern p).Path i v ((ofPattern p).size - 1) := by
  have hlast : (ofPattern p).size - 1 = (addPattern p empty).2.size := by rw [size_ofPattern, Nat.add_sub_cancel]
  have hreach {j : Nat} (hj : j < (addPattern p empty).2.size) : ∃ u, (ofPattern p).Path (ofPattern p).start u j := by
    obtain ⟨u, hu⟩ := (enters_addPattern hp empty).2.entered.exists_path (Nat.zero_le j) hj
    exact ⟨u, hu.mono (fun _ _ h => (step_ofPattern (l := none)).2 (.inl h))
      fun _ _ _ h => (step_ofPattern (l := some _)).2 (.inl h)⟩
  obtain ⟨v, j, hj, hv⟩ := live_ofPattern hp hi
  refine ⟨?_, v, by rw [hlast, ← isAccepting_ofPattern.1 hj]; exact hv⟩
  by_cases hin : i < (addPattern p empty).2.size
  · exact hreach hin
  · -- the accepting state is entered from the ends
    obtain ⟨e, he⟩ := List.exists_mem_of_ne_nil _ (enters_addPattern hp empty).2.ends_ne_nil
    obtain ⟨u, hu⟩ := hreach ((enters_addPattern hp empty).2.ends_mem e he).2
    have hi : i = (addPattern p empty).2.size := by
      rw [size_ofPattern] at hi
      omega
    exact ⟨u ++ [], hu.trans (.single ((step_ofPattern (l := none)).2 (.inr ⟨rfl, he, hi⟩)))⟩

end Nfa
end PatternAutomata
