import PatternAutomata.Proofs.Nfa.OfPattern
/-!
# Checked — the automaton of a pattern, every state looked up

A change to a state, or a look at one, is written so that it has no effect where there is no such state.  Here are the
same constructions with each of these look-ups made to fail instead.  None ever fails: the builder changes only states
that it has added before (`addPattern_eq_ok`), whatever the pattern.
-/
namespace PatternAutomata
namespace Checked

/-! ## Changes -/

def addEmpties (n : Nfa) (sources : List Nat) (target : Nat) : Except Fault Nfa :=
  sources.foldlM (fun n s => n.changing s (n.addEmpty s target)) n

def addEmptyPairs (n : Nfa) (sources : List Nat) (target other : Nat) : Except Fault Nfa :=
  sources.foldlM (fun n s => do
    let n ← n.changing s (n.addEmpty s target)
    n.changing s (n.addEmpty s other)) n

def addMoves (n : Nfa) (source : Nat) (labels : List Interval) (target : Nat) : Except Fault Nfa :=
  labels.foldlM (fun n label => n.changing source (n.addMove source label target)) n

def addChain (n : Nfa) (current : Nat) : Word → Except Fault (Nat × Nfa)
  | [] => .ok (current, n)
  | c :: w => do
    let (next, n) := n.addState false
    addChain (← n.changing current (n.addMove current (.single c) next)) next w

def addCopies (part : Nfa → Except Fault (Fragment × Nfa)) : Nat → List Nat → Nfa → Except Fault (List Nat × Nfa)
  | 0, ends, n => .ok (ends, n)
  | k + 1, ends, n => do
    let (copy, n) ← part n
    addCopies part k copy.ends (← addEmpties n ends copy.start)

def addOptionalCopies (part : Nfa → Except Fault (Fragment × Nfa)) (exit : Nat) :
    Nat → List Nat → Nfa → Except Fault (List Nat × Nfa)
  | 0, ends, n => .ok (ends, n)
  | k + 1, ends, n => do
    let (copy, n) ← part n
    addOptionalCopies part exit k copy.ends (← addEmptyPairs n ends copy.start exit)

def addBranches (n : Nfa) (branch : Nat) (left right : Fragment) (last : Nat) : Except Fault Nfa := do
  let n ← n.changing branch (n.addEmpty branch left.start)
  let n ← n.changing branch (n.addEmpty branch right.start)
  let n ← addEmpties n left.ends last
  addEmpties n right.ends last

def addPattern : Pattern → Nfa → Except Fault (Fragment × Nfa)
  | .word w, n => do
    let (start, n) := n.addState false
    let (last, n) ← addChain n start w
    return (⟨start, [last]⟩, n)
  | .oneOf intervals, n => do
    let (start, n) := n.addState false
    let (last, n) := n.addState false
    return (⟨start, [last]⟩, ← addMoves n start intervals last)
  | .seq head tail, n => do
    let (head, n) ← addPattern head n
    let (tail, n) ← addPattern tail n
    return (⟨head.start, tail.ends⟩, ← addEmpties n head.ends tail.start)
  | .alt left right, n => do
    let (branch, n) := n.addState false
    let (left, n) ← addPattern left n
    let (right, n) ← addPattern right n
    let (last, n) := n.addState false
    return (⟨branch, [last]⟩, ← addBranches n branch left right last)
  | .star p, n => do
    let (once, n) ← addPattern p n
    let (last, n) := n.addState false
    let n ← addEmptyPairs n once.ends once.start last
    return (⟨once.start, [last]⟩, ← n.changing once.start (n.addEmpty once.start last))
  | .count p times, n => do
    let (start, n) := n.addState false
    let (ends, n) ← addCopies (addPattern p) times.least [start] n
    if times.least < times.greatest then
      let (last, n) := n.addState false
      let (ends, n) ← addOptionalCopies (addPattern p) last (times.greatest - times.least) ends n
      return (⟨start, ends ++ [last]⟩, n)
    else return (⟨start, ends⟩, n)

def ofPattern (p : Pattern) : Except Fault Nfa := do
  let (whole, n) ← addPattern p .empty
  let (accept, n) := n.addState true
  return (← addEmpties n whole.ends accept).setStart whole.start

variable {n changed : Nfa} {sources ends : List Nat} {source target other current : Nat} {labels : List Interval}

theorem changing_eq_ok (h : source < n.size) : n.changing source changed = .ok changed := if_pos h

theorem addEmpties_eq_ok (h : ∀ s ∈ sources, s < n.size) :
    addEmpties n sources target = .ok (n.addEmpties sources target) :=
  foldlM_eq_ok (P := fun m => m.size = n.size)
    (fun m hm s hs => ⟨changing_eq_ok (hm ▸ h s hs), (Nfa.size_addEmpty m s target).trans hm⟩) rfl

theorem addEmptyPairs_eq_ok (h : ∀ s ∈ sources, s < n.size) :
    addEmptyPairs n sources target other = .ok (n.addEmptyPairs sources target other) := by
  refine foldlM_eq_ok (P := fun m => m.size = n.size) (fun m hm s hs => ?_) rfl
  have hs := h s hs
  rw [changing_eq_ok (hm ▸ hs)]
  have hsize := (Nfa.size_addEmpty m s target).trans hm
  exact ⟨changing_eq_ok (hsize ▸ hs), (Nfa.size_addEmpty _ s other).trans hsize⟩

theorem addMoves_eq_ok (h : source < n.size) :
    addMoves n source labels target = .ok (labels.foldl (·.addMove source · target) n) :=
  foldlM_eq_ok (P := fun m => m.size = n.size)
    (fun m hm label _ => ⟨changing_eq_ok (hm ▸ h), (Nfa.size_addMove m source label target).trans hm⟩) rfl

theorem addChain_eq_ok (w : Word) (h : current < n.size) : addChain n current w = .ok (n.addChain current w) := by
  induction w generalizing n current with
  | nil => rfl
  | cons c w ih =>
    have hsize := Nfa.size_addState n false
    have hmove := Nfa.size_addMove (n.addState false).2 current (.single c) n.size
    have hnext : n.size < ((n.addState false).2.addMove current (.single c) n.size).size := by omega
    exact bind_eq_ok.2 ⟨_, changing_eq_ok (n := (n.addState false).2) (by omega), ih hnext⟩

theorem addBranches_eq_ok {branch last : Nat} {left right : Fragment} (hbranch : branch < n.size)
    (hleft : ∀ e ∈ left.ends, e < n.size) (hright : ∀ e ∈ right.ends, e < n.size) :
    addBranches n branch left right last = .ok ((((n.addEmpty branch left.start).addEmpty branch right.start).addEmpties
      left.ends last).addEmpties right.ends last) := by
  have h₁ := Nfa.size_addEmpty n branch left.start
  have h₂ := (Nfa.size_addEmpty (n.addEmpty branch left.start) branch right.start).trans h₁
  have h₃ := (Nfa.withEmpties_addEmpties left.ends last fun e he => h₂ ▸ hleft e he).size_eq.trans h₂
  exact bind_eq_ok.2 ⟨_, changing_eq_ok hbranch, bind_eq_ok.2 ⟨_, changing_eq_ok (h₁ ▸ hbranch),
    bind_eq_ok.2 ⟨_, addEmpties_eq_ok fun e he => h₂ ▸ hleft e he, addEmpties_eq_ok fun e he => h₃ ▸ hright e he⟩⟩⟩

/-! ## Parts -/

variable {part : Nfa → Fragment × Nfa} {checked : Nfa → Except Fault (Fragment × Nfa)} {exit : Nat}

theorem addCopies_eq_ok (hpart : ∀ n : Nfa, n.Adds (part n).1 [] (part n).2) (hchecked : ∀ n, checked n = .ok (part n))
    (k : Nat) (h : ∀ e ∈ ends, e < n.size) : addCopies checked k ends n = .ok (Nfa.addCopies part k ends n) ∧
      ∀ e ∈ (Nfa.addCopies part k ends n).1, e < (Nfa.addCopies part k ends n).2.size := by
  induction k generalizing ends n with
  | zero => exact ⟨rfl, h⟩
  | succ k ih =>
    have hsources : ∀ e ∈ ends, e < (part n).2.size := fun e he => Nat.lt_of_lt_of_le (h e he) (hpart n).size_le
    have hsize := (Nfa.withEmpties_addEmpties ends (part n).1.start hsources).size_eq
    have hcopy : ∀ e ∈ (part n).1.ends, e < ((part n).2.addEmpties ends (part n).1.start).size := fun e he =>
      hsize ▸ ((hpart n).end_mem e (.inl he)).2
    obtain ⟨hok, hends⟩ := ih hcopy
    exact ⟨bind_eq_ok.2 ⟨_, hchecked n, bind_eq_ok.2 ⟨_, addEmpties_eq_ok hsources, hok⟩⟩, hends⟩

theorem addOptionalCopies_eq_ok (hpart : ∀ n : Nfa, n.Adds (part n).1 [] (part n).2)
    (hchecked : ∀ n, checked n = .ok (part n)) (k : Nat) (h : ∀ e ∈ ends, e < n.size) :
    addOptionalCopies checked exit k ends n = .ok (Nfa.addOptionalCopies part exit k ends n) := by
  induction k generalizing ends n with
  | zero => rfl
  | succ k ih =>
    have hsources : ∀ e ∈ ends, e < (part n).2.size := fun e he => Nat.lt_of_lt_of_le (h e he) (hpart n).size_le
    have hsize := (Nfa.withEmpties_addEmptyPairs ends (part n).1.start exit hsources).size_eq
    exact bind_eq_ok.2 ⟨_, hchecked n, bind_eq_ok.2 ⟨_, addEmptyPairs_eq_ok hsources, ih fun e he =>
      hsize ▸ ((hpart n).end_mem e (.inl he)).2⟩⟩

/-- **The builder changes only states that it has added.** -/
theorem addPattern_eq_ok (p : Pattern) : ∀ n : Nfa, addPattern p n = .ok (Nfa.addPattern p n) := by
  have hadds (p : Pattern) (n : Nfa) := (Nfa.stands_addPattern p n).toAdds
  -- a state that has just been added, and one that was there before it
  have hnew (n : Nfa) : n.size < (n.addState false).2.size :=
    Nat.lt_of_lt_of_eq n.size.lt_succ_self (n.size_addState _).symm
  have hold {n : Nfa} {i : Nat} (hi : i < n.size) : i < (n.addState false).2.size := Nat.lt_trans hi (hnew n)
  induction p with
  | word w =>
    intro n
    exact bind_eq_ok.2 ⟨_, addChain_eq_ok w (hnew n), rfl⟩
  | oneOf intervals =>
    intro n
    exact bind_eq_ok.2 ⟨_, addMoves_eq_ok (hold (hnew n)), rfl⟩
  | seq head tail ihead itail =>
    intro n
    refine bind_eq_ok.2 ⟨_, ihead n, bind_eq_ok.2 ⟨_, itail _, bind_eq_ok.2 ⟨_, addEmpties_eq_ok fun e he => ?_, rfl⟩⟩⟩
    exact Nat.lt_of_lt_of_le ((hadds head n).end_mem e (.inl he)).2 (hadds tail _).size_le
  | alt left right ileft iright =>
    intro n
    obtain ⟨hbranch, hlefts, hrights⟩ := Nfa.branch_sources (hadds left (n.addState false).2) (hadds right _)
    exact bind_eq_ok.2 ⟨_, ileft _, bind_eq_ok.2 ⟨_, iright _,
      bind_eq_ok.2 ⟨_, addBranches_eq_ok hbranch hlefts hrights, rfl⟩⟩⟩
  | star p ih =>
    intro n
    have hends : ∀ e ∈ (Nfa.addPattern p n).1.ends, e < ((Nfa.addPattern p n).2.addState false).2.size :=
      fun e he => hold ((hadds p n).end_mem e (.inl he)).2
    have hpairs := Nfa.withEmpties_addEmptyPairs _ (Nfa.addPattern p n).1.start (Nfa.addPattern p n).2.size hends
    exact bind_eq_ok.2 ⟨_, ih n, bind_eq_ok.2 ⟨_, addEmptyPairs_eq_ok hends, bind_eq_ok.2 ⟨_,
      changing_eq_ok (Nat.lt_of_lt_of_eq (hold (hadds p n).start_mem.2) hpairs.size_eq.symm), rfl⟩⟩⟩
  | count p times ih =>
    intro n
    have hstart : ∀ e ∈ [n.size], e < (n.addState false).2.size := fun e he => List.mem_singleton.1 he ▸ hnew n
    obtain ⟨hleast, hends⟩ := addCopies_eq_ok (hadds p) ih times.least hstart
    refine bind_eq_ok.2 ⟨_, hleast, ?_⟩
    rw [Nfa.addPattern]
    by_cases hlt : times.least < times.greatest
    · simp only [if_pos hlt]
      exact bind_eq_ok.2 ⟨_, addOptionalCopies_eq_ok (hadds p) ih _ fun e he => hold (hends e he), rfl⟩
    · simp only [if_neg hlt]
      rfl

/-- **The automaton of a pattern is built without a look-up that fails.** -/
theorem ofPattern_eq_ok (p : Pattern) : ofPattern p = .ok (Nfa.ofPattern p) := by
  refine bind_eq_ok.2 ⟨_, addPattern_eq_ok p .empty, bind_eq_ok.2 ⟨_, addEmpties_eq_ok fun s hs => ?_, rfl⟩⟩
  have := ((Nfa.stands_addPattern p .empty).end_mem s (.inl hs)).2
  exact Nat.lt_of_lt_of_eq (Nat.lt_succ_of_lt this) (Nfa.size_addState _ true).symm

end Checked
end PatternAutomata
