import Mathlib.Logic.Relation
import PatternAutomata.Dfa.OfNfa
/-!
# Path — the runs of a nondeterministic automaton

What an automaton can do, said without sets of states: `n.Path i w j` holds when reading `w` can lead from `i` to `j`,
with any number of empty moves on the way.  A path on a word makes empty moves up to the move on the first character
(`path_cons`), and it is decided by the moves alone, so two automata with the same moves have the same paths
(`Path.mono`).
-/
namespace PatternAutomata
namespace Nfa

open Relation (ReflTransGen)

def EmptyMove (n : Nfa) (i j : Nat) : Prop := ∃ s, n.states[i]? = some s ∧ j ∈ s.empties

def Move (n : Nfa) (i : Nat) (c : Char) (j : Nat) : Prop := ∃ s, n.states[i]? = some s ∧ j ∈ s.targets c

/-- Reading `w` can lead from one state to another. -/
inductive Path (n : Nfa) : Nat → Word → Nat → Prop where
  | nil (i : Nat) : Path n i [] i
  | empty {i j k : Nat} {w : Word} (first : n.EmptyMove i j) (rest : Path n j w k) : Path n i w k
  | move {i j k : Nat} {c : Char} {w : Word} (first : n.Move i c j) (rest : Path n j w k) : Path n i (c :: w) k

/-- Some run on `w` from the start ends in an accepting state. -/
def HasRun (n : Nfa) (w : Word) : Prop := ∃ j, n.isAccepting j = true ∧ n.Path n.start w j

variable {n m : Nfa} {i j k : Nat} {u v w : Word} {c : Char}

theorem State.mem_targets {s : State} : j ∈ s.targets c ↔ ∃ m ∈ s.moves, c ∈ m.1 ∧ m.2 = j := by
  simp only [State.targets, List.mem_map, List.mem_filter, Interval.contains_iff, and_assoc]

theorem mem_targets {states : List Nat} : j ∈ n.targets states c ↔ ∃ i ∈ states, n.Move i c j := by
  rw [targets, List.mem_flatMap]
  refine exists_congr fun i => and_congr_right fun _ => ?_
  unfold movesOf Move
  cases h : n.states[i]? with
  | none => simp
  | some s => simp [State.targets]

theorem isAccepting_eq_true : n.isAccepting i = true ↔ ∃ s, n.states[i]? = some s ∧ s.accepting = true := by
  unfold isAccepting
  cases h : n.states[i]? with
  | none => simp
  | some s => simp

namespace Path

theorem trans (h : n.Path i u j) (h' : n.Path j v k) : n.Path i (u ++ v) k := by
  induction h with
  | nil _ => exact h'
  | empty first _ ih => exact .empty first (ih h')
  | move first _ ih => exact .move first (ih h')

theorem mono (hempty : ∀ i j, n.EmptyMove i j → m.EmptyMove i j) (hmove : ∀ i c j, n.Move i c j → m.Move i c j)
    (h : n.Path i w j) : m.Path i w j := by
  induction h with
  | nil i => exact .nil i
  | empty first _ ih => exact .empty (hempty _ _ first) ih
  | move first _ ih => exact .move (hmove _ _ _ first) ih

theorem single (h : n.EmptyMove i j) : n.Path i [] j := .empty h (.nil j)

theorem char (h : n.Move i c j) : n.Path i [c] j := .move h (.nil j)

theorem eq_of_no_way_out (hempty : ∀ j, ¬ n.EmptyMove i j) (hmove : ∀ c j, ¬ n.Move i c j) (h : n.Path i w j) :
    w = [] ∧ i = j := by
  cases h with
  | nil _ => exact ⟨rfl, rfl⟩
  | empty first _ => exact absurd first (hempty _)
  | move first _ => exact absurd first (hmove _ _)

theorem keeps {P : Nat → Prop} (hempty : ∀ i j, P i → n.EmptyMove i j → P j)
    (hmove : ∀ i c j, P i → n.Move i c j → P j) (h : n.Path i w j) (hi : P i) : P j := by
  induction h with
  | nil _ => exact hi
  | empty first _ ih => exact ih (hempty _ _ hi first)
  | move first _ ih => exact ih (hmove _ _ _ hi first)

end Path

theorem path_nil : n.Path i [] j ↔ ReflTransGen n.EmptyMove i j := by
  constructor
  · intro h
    generalize hw : ([] : Word) = w at h
    induction h with
    | nil i => exact .refl
    | empty first _ ih => exact .head first (ih hw)
    | move _ _ _ => cases hw
  · intro h
    induction h using ReflTransGen.head_induction_on with
    | refl => exact .nil j
    | head first _ ih => exact .empty first ih

theorem path_cons : n.Path i (c :: w) k ↔ ∃ a b, ReflTransGen n.EmptyMove i a ∧ n.Move a c b ∧ n.Path b w k := by
  constructor
  · intro h
    generalize hw : c :: w = v at h
    induction h with
    | nil _ => cases hw
    | empty first _ ih =>
      obtain ⟨a, b, ha, hmove, hb⟩ := ih hw
      exact ⟨a, b, .head first ha, hmove, hb⟩
    | move first rest _ =>
      cases hw
      exact ⟨_, _, .refl, first, rest⟩
  · rintro ⟨a, b, ha, hmove, hb⟩
    exact (path_nil.2 ha).trans (.move hmove hb)

/-! ## Runs from a set of states -/

/-- Reading `w` can lead from one of the states to `j`. -/
def LeadsTo (n : Nfa) (states : List Nat) (w : Word) (j : Nat) : Prop := ∃ i ∈ states, n.Path i w j

/-- Some run on `w` from one of the states ends in an accepting state. -/
def HasRunFrom (n : Nfa) (states : List Nat) (w : Word) : Prop :=
  ∃ i ∈ states, ∃ j, n.isAccepting j = true ∧ n.Path i w j

/-- The members of `closed` are all that empty moves lead to from `states`. -/
def IsClosure (n : Nfa) (states closed : List Nat) : Prop :=
  ∀ j, j ∈ closed ↔ ∃ i ∈ states, ReflTransGen n.EmptyMove i j

variable {states closed : List Nat}

theorem hasRun_iff : n.HasRun w ↔ n.HasRunFrom [n.start] w := by
  simp only [HasRun, HasRunFrom, List.mem_singleton, exists_eq_left]

theorem hasRunFrom_iff_leadsTo : n.HasRunFrom states w ↔ ∃ j, n.LeadsTo states w j ∧ n.isAccepting j = true := by
  constructor
  · rintro ⟨i, hi, j, hj, hpath⟩
    exact ⟨j, ⟨i, hi, hpath⟩, hj⟩
  · rintro ⟨j, ⟨i, hi, hpath⟩, hj⟩
    exact ⟨i, hi, j, hj, hpath⟩

theorem IsClosure.mem_of_reflTransGen (h : n.IsClosure states closed) (hi : i ∈ closed)
    (hreach : ReflTransGen n.EmptyMove i j) : j ∈ closed := by
  obtain ⟨k, hk, hki⟩ := (h i).1 hi
  exact (h j).2 ⟨k, hk, hki.trans hreach⟩

theorem IsClosure.leadsTo_iff (h : n.IsClosure states closed) : n.LeadsTo closed w j ↔ n.LeadsTo states w j := by
  constructor
  · rintro ⟨k, hk, hpath⟩
    obtain ⟨i, hi, hreach⟩ := (h k).1 hk
    exact ⟨i, hi, (path_nil.2 hreach).trans hpath⟩
  · rintro ⟨i, hi, hpath⟩
    exact ⟨i, (h i).2 ⟨i, hi, .refl⟩, hpath⟩

theorem IsClosure.leadsTo_nil (h : n.IsClosure states closed) : n.LeadsTo closed [] j ↔ j ∈ closed :=
  ⟨fun ⟨_, hi, hpath⟩ => h.mem_of_reflTransGen hi (path_nil.1 hpath), fun hj => ⟨j, hj, .nil j⟩⟩

/-- **Reading a character** takes a closed set to the targets of its moves. -/
theorem IsClosure.leadsTo_cons (h : n.IsClosure states closed) :
    n.LeadsTo closed (c :: w) j ↔ n.LeadsTo (n.targets closed c) w j := by
  constructor
  · rintro ⟨i, hi, hpath⟩
    obtain ⟨a, b, ha, hmove, hb⟩ := path_cons.1 hpath
    exact ⟨b, mem_targets.2 ⟨a, h.mem_of_reflTransGen hi ha, hmove⟩, hb⟩
  · rintro ⟨b, hb, hpath⟩
    obtain ⟨i, hi, hmove⟩ := mem_targets.1 hb
    exact ⟨i, hi, .move hmove hpath⟩

theorem IsClosure.hasRunFrom_iff (h : n.IsClosure states closed) : n.HasRunFrom closed w ↔ n.HasRunFrom states w := by
  simp only [hasRunFrom_iff_leadsTo, h.leadsTo_iff]

/-- A closed set has a run on the empty word when one of its members is accepting. -/
theorem IsClosure.hasRunFrom_nil (h : n.IsClosure states closed) :
    n.HasRunFrom closed [] ↔ closed.any n.isAccepting = true := by
  simp only [hasRunFrom_iff_leadsTo, h.leadsTo_nil, List.any_eq_true]

theorem IsClosure.hasRunFrom_cons (h : n.IsClosure states closed) :
    n.HasRunFrom closed (c :: w) ↔ n.HasRunFrom (n.targets closed c) w := by
  simp only [hasRunFrom_iff_leadsTo, h.leadsTo_cons]

theorem not_hasRunFrom_nil : ¬ n.HasRunFrom [] w := fun ⟨_, h, _⟩ => (nomatch h)

/-! ## Paths in a well-formed automaton -/

theorem EmptyMove.lt (hn : n.WellFormed) (h : n.EmptyMove i j) : j < n.size := by
  obtain ⟨s, hs, hj⟩ := h
  exact hn.empty_lt i s hs j hj

theorem Move.lt (hn : n.WellFormed) (h : n.Move i c j) : j < n.size := by
  obtain ⟨s, hs, hj⟩ := h
  obtain ⟨m, hm, -, rfl⟩ := State.mem_targets.1 hj
  exact hn.move_lt i s hs m hm

theorem Path.lt (hn : n.WellFormed) (h : n.Path i w j) (hi : i < n.size) : j < n.size :=
  h.keeps (P := (· < n.size)) (fun _ _ _ h => h.lt hn) (fun _ _ _ _ h => h.lt hn) hi

theorem lt_of_mem_targets (hn : n.WellFormed) (h : j ∈ n.targets states c) : j < n.size := by
  obtain ⟨i, -, hmove⟩ := mem_targets.1 h
  exact hmove.lt hn

theorem lt_of_reflTransGen (hn : n.WellFormed) (h : ReflTransGen n.EmptyMove i j) (hi : i < n.size) : j < n.size :=
  (path_nil.2 h).lt hn hi

theorem IsClosure.lt (hn : n.WellFormed) (h : n.IsClosure states closed) (hstates : ∀ i ∈ states, i < n.size)
    (hj : j ∈ closed) : j < n.size := by
  obtain ⟨i, hi, hreach⟩ := (h j).1 hj
  exact lt_of_reflTransGen hn hreach (hstates i hi)

end Nfa
end PatternAutomata
