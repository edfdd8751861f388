import PatternAutomata.Proofs.Checked.Nfa
import PatternAutomata.Proofs.Dfa.Quotient
import PatternAutomata.Proofs.Dfa.Subsets
/-!
# Checked — the automata of sets of states, every state looked up

Following all runs at once reads states of the nondeterministic automaton; merging states reads states, their classes
and the leaders of these.  A look-up past the end answers with a default, which here is a fault.  On a well-formed
automaton no look-up goes past the end: the closed sets hold states only (`ofNfa_eq`), and each round of merging puts
all states into classes that have leaders (`minimize_eq_ok`).
-/
namespace PatternAutomata
namespace Checked

/-- The entry at a position, which must be one of the array's. -/
def lookUp {α : Type} (xs : Array α) (i : Nat) : Except Fault α :=
  match xs[i]? with
  | some x => .ok x
  | none => .error (.noSuchState xs.size i)

theorem lookUp_eq_ok {α : Type} {xs : Array α} {i : Nat} (h : i < xs.size) (x : α) :
    lookUp xs i = .ok (xs.getD i x) := by
  rw [lookUp, Array.getD_eq_getD_getElem?, Array.getElem?_eq_getElem h]
  rfl

/-- The automaton of an explored graph, where it may fail to say whether a node is accepting. -/
def ofExploration {κ : Type} [Ord κ] (accepting : κ → Except Fault Bool) (e : Exploration κ Interval) :
    Except Fault Dfa := do
  let states ← (e.found.keys.zip e.rows).toList.mapM fun (k, row) => do return ⟨← accepting k, row.toArray⟩
  return ⟨states.toArray⟩

theorem ofExploration_eq_ok {κ : Type} [Ord κ] {checked : κ → Except Fault Bool} {accepting : κ → Bool}
    {e : Exploration κ Interval} (h : ∀ k ∈ e.found.keys, checked k = .ok (accepting k)) :
    ofExploration checked e = .ok (Dfa.ofExploration accepting e) := by
  refine bind_eq_ok.2 ⟨_, mapM_eq_ok (g := fun m => ⟨accepting m.1, m.2.toArray⟩) fun m hm => ?_, ?_⟩
  · have hkey : m.1 ∈ e.found.keys := by
      rw [Array.toList_zip] at hm
      exact Array.mem_toList_iff.1 (List.of_mem_zip hm).1
    exact bind_eq_ok.2 ⟨_, h _ hkey, rfl⟩
  · rw [← Array.toList_map, Array.toArray_toList]
    rfl

/-! ## Following all runs -/

/-- The labels of the moves out of a set of states. -/
def labels (n : Nfa) (states : List Nat) : Except Fault (List Interval) := do
  return (← states.mapM n.state).flatMap fun s => s.moves.map (·.1)

def targets (n : Nfa) (states : List Nat) (c : Char) : Except Fault (List Nat) := do
  return (← states.mapM n.state).flatMap (·.targets c)

def movesOn (n : Nfa) (states : List Nat) : List Interval → Except Fault (List (Interval × List Nat))
  | [] => .ok []
  | piece :: pieces => do
    match ← targets n states piece.lo with
    | [] => movesOn n states pieces
    | targets =>
      let closed ← n.closedSet targets
      return (piece, closed) :: (← movesOn n states pieces)

def setMoves (n : Nfa) (states : List Nat) : Except Fault (List (Interval × List Nat)) := do
  movesOn n states (Interval.pieces (← labels n states))

def ofNfa (n : Nfa) : Except Fault Dfa := do
  let root ← n.closedSet [n.start]
  let explored ← Exploration.explore (setMoves n) (Nat.pow 2 n.size) root
  ofExploration n.anyAccepting explored

section

variable {n : Nfa} {states : List Nat}

/-- Looking up states one by one gives their moves. -/
theorem mapM_state (h : ∀ i ∈ states, i < n.size) :
    ∃ ss, states.mapM n.state = .ok ss ∧ ss.map (·.moves) = states.map n.movesOf := by
  refine ⟨_, mapM_eq_ok (g := fun i => n.states.getD i ⟨false, [], []⟩) fun i hi => ?_, ?_⟩
  · have hi : i < n.states.size := h i hi
    rw [Nfa.state_eq_ok, Array.getD_eq_getD_getElem?, Array.getElem?_eq_getElem hi]
    rfl
  · rw [List.map_map]
    refine List.map_congr_left fun i hi => ?_
    have hi : i < n.states.size := h i hi
    rw [Nfa.movesOf, Array.getElem?_eq_getElem hi, Function.comp_apply, Array.getD_eq_getD_getElem?,
      Array.getElem?_eq_getElem hi]
    rfl

theorem labels_eq_ok (h : ∀ i ∈ states, i < n.size) :
    labels n states = .ok (states.flatMap fun i => (n.movesOf i).map (·.1)) := by
  obtain ⟨ss, hss, hmoves⟩ := mapM_state h
  refine bind_eq_ok.2 ⟨ss, hss, congrArg Except.ok ?_⟩
  rw [← List.flatMap_map n.movesOf (List.map (·.1)), ← hmoves, List.flatMap_map]

theorem targets_eq_ok (h : ∀ i ∈ states, i < n.size) (c : Char) :
    targets n states c = .ok (n.targets states c) := by
  obtain ⟨ss, hss, hmoves⟩ := mapM_state h
  refine bind_eq_ok.2 ⟨ss, hss, congrArg Except.ok ?_⟩
  rw [Nfa.targets, ← List.flatMap_map n.movesOf fun ms => (ms.filter (·.1.contains c)).map (·.2), ← hmoves,
    List.flatMap_map]
  rfl

theorem movesOn_eq (h : ∀ i ∈ states, i < n.size) (pieces : List Interval) :
    movesOn n states pieces = n.movesOn states pieces := by
  induction pieces with
  | nil => rfl
  | cons piece pieces ih =>
    rw [movesOn, Nfa.movesOn, targets_eq_ok h, ih]
    rfl

theorem setMoves_eq (h : ∀ i ∈ states, i < n.size) : setMoves n states = n.setMoves states := by
  rw [setMoves, labels_eq_ok h]
  exact movesOn_eq h _

/-- **All runs are followed without a look-up that fails.** -/
theorem ofNfa_eq (hn : n.WellFormed) : ofNfa n = Dfa.ofNfa n := by
  obtain ⟨root, e, hroot, -, hplain, hinv, -⟩ := Dfa.exists_explore_sets hn
  have hmoves (k : List Nat) (_ : n.ClosedStates k) :
      n.setMoves k = .ok (n.nextSets k) ∧ ∀ m ∈ n.nextSets k, n.ClosedStates m.2 :=
    ⟨Nfa.setMoves_eq hn k, fun _ hm => Nfa.closedStates_of_mem_nextSets hm⟩
  obtain ⟨e', hplain', hchecked, -⟩ := Exploration.explore_agree (setMoves n) hmoves
    (fun k hk => (setMoves_eq hk.lt).trans (Nfa.setMoves_eq hn k)) (2 ^ n.size) (hinv.holds 0 root hinv.root_eq)
  cases hplain.symm.trans hplain'
  have hofNfa : Dfa.ofNfa n = .ok (.ofExploration (·.any n.isAccepting) e) :=
    bind_eq_ok.2 ⟨root, hroot, bind_eq_ok.2 ⟨e, hplain, rfl⟩⟩
  rw [hofNfa]
  exact bind_eq_ok.2 ⟨root, hroot, bind_eq_ok.2 ⟨e, hchecked, ofExploration_eq_ok fun k hk =>
    Nfa.anyAccepting_eq (hinv.holds_of_mem hk).lt⟩⟩

end

/-! ## Merging states -/

/-- Moves with classes for targets. -/
def moveClasses (p : Partition) (s : Dfa.State) : Except Fault (List (Interval × Nat)) :=
  s.moves.toList.mapM fun m => do return (m.1, ← lookUp p.classes m.2)

def behaviour (p : Partition) (s : Dfa.State) : Except Fault (List (Interval × Nat)) := do
  match ← moveClasses p s with
  | [] => return []
  | m :: rest => return Dfa.joinMoves m rest

def roundKey (d : Dfa) (p : Partition) (i : Nat) : Except Fault (List Nat) := do
  let s ← lookUp d.states i
  let c ← lookUp p.classes i
  return c :: Dfa.encodeMoves (← behaviour p s)

def split (d : Dfa) (p : Partition) : Except Fault Partition := do
  return .ofKeys (← (List.range d.size).mapM (roundKey d p))

def refine (d : Dfa) : (limit : Nat) → Partition → Except Fault Dfa.Refinement
  | 0, p => .ok ⟨p, []⟩
  | limit + 1, p => do
    let q ← split d p
    if q.count = p.count then return ⟨q, [(p.count, q.count)]⟩
    else
      let r ← refine d limit q
      return ⟨r.partition, (p.count, q.count) :: r.rounds⟩

/-- The state that leads a class. -/
def leading (d : Dfa) (p : Partition) (c : Nat) : Except Fault Dfa.State := do lookUp d.states (← lookUp p.leaders c)

def classMoves (d : Dfa) (p : Partition) (c : Nat) : Except Fault (List (Interval × Nat)) := do
  moveClasses p (← leading d p c)

/-- The quotient; the class of each state is looked up among those that have leaders. -/
def quotient (d : Dfa) (p : Partition) : Except Fault Dfa := do
  let _ ← p.classes.toList.mapM (lookUp p.leaders)
  let root ← lookUp p.classes 0
  let explored ← Exploration.explore (classMoves d p) p.count root
  ofExploration (fun c => do return (← leading d p c).accepting) explored

def minimize (d : Dfa) : Except Fault Dfa := do quotient d (← refine d d.size d.initialPartition).partition

section

variable {d : Dfa} {p : Partition} {i c : Nat}

theorem lookUp_states (hi : i < d.size) : lookUp d.states i = .ok (d.state i) := lookUp_eq_ok hi _

theorem lookUp_classes (hp : d.Classes p) (hi : i < d.size) : lookUp p.classes i = .ok (p.classOf i) :=
  lookUp_eq_ok (hp.size_eq ▸ hi) 0

theorem moveClasses_eq_ok (hd : d.WellFormed) (hp : d.Classes p) (i : Nat) :
    moveClasses p (d.state i) = .ok ((d.state i).moves.toList.map fun m => (m.1, p.classOf m.2)) :=
  mapM_eq_ok fun m hm =>
    bind_eq_ok.2 ⟨_, lookUp_classes hp (hd.target_lt i m (Array.mem_toList_iff.1 hm)), rfl⟩

theorem roundKey_eq_ok (hd : d.WellFormed) (hp : d.Classes p) (hi : i < d.size) :
    roundKey d p i = .ok (d.roundKey p i) := by
  refine bind_eq_ok.2 ⟨_, lookUp_states hi, bind_eq_ok.2 ⟨_, lookUp_classes hp hi, ?_⟩⟩
  refine bind_eq_ok.2 ⟨Dfa.behaviour p (d.state i), bind_eq_ok.2 ⟨_, moveClasses_eq_ok hd hp i, ?_⟩, rfl⟩
  rw [Dfa.behaviour]
  cases (d.state i).moves.toList.map fun m => (m.1, p.classOf m.2) with
  | nil => rfl
  | cons m rest => rfl

theorem split_eq_ok (hd : d.WellFormed) (hp : d.Classes p) : split d p = .ok (d.split p) :=
  bind_eq_ok.2 ⟨_, mapM_eq_ok fun _ hi => roundKey_eq_ok hd hp (List.mem_range.1 hi), rfl⟩

theorem refine_eq_ok (hd : d.WellFormed) (limit : Nat) (hp : d.Classes p) :
    refine d limit p = .ok (d.refine limit p) := by
  induction limit generalizing p with
  | zero => rfl
  | succ limit ih =>
    refine bind_eq_ok.2 ⟨_, split_eq_ok hd hp, ?_⟩
    rw [Dfa.refine]
    by_cases hcount : (d.split p).count = p.count
    · simp only [if_pos hcount]
      rfl
    · simp only [if_neg hcount]
      exact bind_eq_ok.2 ⟨_, ih (hp.split hd), rfl⟩

theorem leading_eq_ok (hp : d.Classes p) (hc : c < p.count) : leading d p c = .ok (d.state (p.leader c)) :=
  bind_eq_ok.2 ⟨_, lookUp_eq_ok hc 0, lookUp_states (hp.size_eq ▸ hp.proper.leader_lt c hc)⟩

theorem quotient_eq_ok (hd : d.WellFormed) (hp : d.Classes p) : quotient d p = .ok (d.quotient p) := by
  have hclass {i : Nat} (hi : i < d.size) : p.classOf i < p.count := hp.proper.classOf_lt i (hp.size_eq ▸ hi)
  have hmoves (c : Nat) (hc : c < p.count) :
      classMoves d p c = .ok (d.classMoves p c) ∧ ∀ m ∈ d.classMoves p c, m.2 < p.count := by
    refine ⟨bind_eq_ok.2 ⟨_, leading_eq_ok hp hc, moveClasses_eq_ok hd hp _⟩, fun m hm => ?_⟩
    obtain ⟨l, hl, rfl⟩ := List.mem_map.1 hm
    exact hclass (hd.target_lt _ l (Array.mem_toList_iff.1 hl))
  obtain ⟨hexplore, hinv⟩ := Exploration.explore_eq_exploreAll p.count hmoves (hclass hd.size_pos)
  refine bind_eq_ok.2 ⟨_, mapM_eq_ok (g := fun c => p.leader c) fun c hc => lookUp_eq_ok ?_ 0,
    bind_eq_ok.2 ⟨_, lookUp_classes hp hd.size_pos, bind_eq_ok.2 ⟨_, hexplore, ofExploration_eq_ok fun c hc => ?_⟩⟩⟩
  · obtain ⟨i, hi, rfl⟩ := Array.mem_iff_getElem.1 (Array.mem_toList_iff.1 hc)
    have := hp.proper.classOf_lt i hi
    rwa [Partition.classOf, Array.getD_eq_getD_getElem?, Array.getElem?_eq_getElem hi] at this
  · exact bind_eq_ok.2 ⟨_, leading_eq_ok hp (hinv.holds_of_mem hc), rfl⟩

/-- **States are merged without a look-up that fails.** -/
theorem minimize_eq_ok (hd : d.WellFormed) : minimize d = .ok d.minimize :=
  bind_eq_ok.2 ⟨_, refine_eq_ok hd d.size (Dfa.classes_initialPartition d),
    quotient_eq_ok hd (Dfa.refinement_spec hd).1⟩

end

end Checked
end PatternAutomata
