import PatternAutomata.Interval
/-!
# Nfa — nondeterministic automata with empty moves

The states of an automaton are numbered from 0 in the order in which they are added.  A state is left by a move, which
reads a character out of an interval, or by an empty move, which reads nothing; both lists keep the order in which they
were added.  Targets need not be states yet, so that an automaton can be wired in any order; whether they are in the end
is `Nfa.WellFormed`.
-/
namespace PatternAutomata

structure Nfa.State where
  accepting : Bool
  moves : List (Interval × Nat)
  empties : List Nat
deriving DecidableEq

structure Nfa where
  states : Array Nfa.State
  start : Nat
deriving DecidableEq

namespace Nfa

def empty : Nfa := ⟨#[], 0⟩

def size (n : Nfa) : Nat := n.states.size

/-- The state with a number, which must be one of the automaton's. -/
def state (n : Nfa) (i : Nat) : Except Fault State :=
  match n.states[i]? with
  | some s => .ok s
  | none => .error (.noSuchState n.size i)

/-- Adds a state without ways out; the answer is its number. -/
def addState (n : Nfa) (accepting : Bool) : Nat × Nfa :=
  (n.size, { n with states := n.states.push ⟨accepting, [], []⟩ })

/-- Adds a move from `source`, if that is a state. -/
def addMove (n : Nfa) (source : Nat) (label : Interval) (target : Nat) : Nfa :=
  { n with states := n.states.modify source fun s => { s with moves := s.moves ++ [(label, target)] } }

/-- Adds an empty move from `source`, if that is a state; it is not added twice. -/
def addEmpty (n : Nfa) (source target : Nat) : Nfa :=
  { n with
    states := n.states.modify source fun s =>
      if target ∈ s.empties then s else { s with empties := s.empties ++ [target] } }

/-- Makes a number the start, whether or not it is a state. -/
def setStart (n : Nfa) (start : Nat) : Nfa := { n with start := start }

/-- The result of a change to the state `source`, which must be one of the automaton's. -/
def changing (n : Nfa) (source : Nat) (changed : Nfa) : Except Fault Nfa :=
  if source < n.size then .ok changed else .error (.noSuchState n.size source)

/-- The start and all targets are states. -/
structure WellFormed (n : Nfa) : Prop where
  start_lt : n.start < n.size
  move_lt : ∀ (i : Nat) (s : State), n.states[i]? = some s → ∀ m ∈ s.moves, m.2 < n.size
  empty_lt : ∀ (i : Nat) (s : State), n.states[i]? = some s → ∀ j ∈ s.empties, j < n.size

theorem wellFormed_iff {n : Nfa} : n.WellFormed ↔
    n.start < n.size ∧ ∀ s ∈ n.states, (∀ m ∈ s.moves, m.2 < n.size) ∧ ∀ j ∈ s.empties, j < n.size := by
  constructor
  · rintro ⟨hstart, hmove, hempty⟩
    refine ⟨hstart, fun s hs => ?_⟩
    obtain ⟨i, hi⟩ := Array.getElem?_of_mem hs
    exact ⟨hmove i s hi, hempty i s hi⟩
  · rintro ⟨hstart, h⟩
    exact ⟨hstart, fun i s hs => (h s (Array.mem_of_getElem? hs)).1, fun i s hs => (h s (Array.mem_of_getElem? hs)).2⟩

instance (n : Nfa) : Decidable n.WellFormed := decidable_of_iff' _ wellFormed_iff

theorem state_eq_ok {n : Nfa} {i : Nat} {s : State} : n.state i = .ok s ↔ n.states[i]? = some s := by
  unfold state
  split
  · rename_i h; rw [h]; exact ⟨fun h => by cases h; rfl, fun h => by cases h; rfl⟩
  · rename_i h; rw [h]; exact ⟨fun h => (nomatch h), fun h => (nomatch h)⟩

theorem state_eq_error {n : Nfa} {i : Nat} {f : Fault} :
    n.state i = .error f ↔ n.size ≤ i ∧ f = .noSuchState n.size i := by
  unfold state
  split
  · rename_i h
    have := (Array.getElem?_eq_some_iff.1 h).1
    exact ⟨fun h => (nomatch h), fun ⟨hle, _⟩ => absurd this (Nat.not_lt.2 hle)⟩
  · rename_i h
    exact ⟨fun hf => by cases hf; exact ⟨Array.getElem?_eq_none_iff.1 h, rfl⟩, fun ⟨_, hf⟩ => hf ▸ rfl⟩

/-! ## What each change does to the states -/

@[simp] theorem size_addState (n : Nfa) (accepting : Bool) : (n.addState accepting).2.size = n.size + 1 :=
  Array.size_push _

@[simp] theorem size_addMove (n : Nfa) (source : Nat) (label : Interval) (target : Nat) :
    (n.addMove source label target).size = n.size :=
  Array.size_modify

@[simp] theorem size_addEmpty (n : Nfa) (source target : Nat) : (n.addEmpty source target).size = n.size :=
  Array.size_modify

@[simp] theorem size_setStart (n : Nfa) (start : Nat) : (n.setStart start).size = n.size := rfl

theorem getElem?_addState (n : Nfa) (accepting : Bool) (i : Nat) :
    (n.addState accepting).2.states[i]? = if i = n.size then some ⟨accepting, [], []⟩ else n.states[i]? :=
  Array.getElem?_push

theorem getElem?_addMove (n : Nfa) (source : Nat) (label : Interval) (target i : Nat) :
    (n.addMove source label target).states[i]? =
      if source = i then n.states[i]?.map fun s => { s with moves := s.moves ++ [(label, target)] } else n.states[i]? :=
  Array.getElem?_modify

theorem getElem?_addEmpty (n : Nfa) (source target i : Nat) :
    (n.addEmpty source target).states[i]? =
      if source = i then
        n.states[i]?.map fun s => if target ∈ s.empties then s else { s with empties := s.empties ++ [target] }
      else n.states[i]? :=
  Array.getElem?_modify

/-- A target is found behind an empty move once the move is added, and every other one as before. -/
theorem mem_empties_addEmpty {n : Nfa} {source target i j : Nat} {s : State} (h : n.states[i]? = some s) :
    (∃ t, (n.addEmpty source target).states[i]? = some t ∧ j ∈ t.empties) ↔
      j ∈ s.empties ∨ (source = i ∧ j = target) := by
  rw [getElem?_addEmpty, h]
  by_cases hi : source = i
  · rw [if_pos hi, Option.map_some]
    split <;> rename_i ht
    · refine ⟨fun ⟨t, hst, hj⟩ => by cases hst; exact .inl hj, fun hj => ⟨s, rfl, ?_⟩⟩
      rcases hj with hj | ⟨_, rfl⟩
      · exact hj
      · exact ht
    · refine ⟨fun ⟨t, hst, hj⟩ => ?_, fun hj => ⟨_, rfl, ?_⟩⟩
      · cases hst
        rcases List.mem_append.1 hj with hj | hj
        · exact .inl hj
        · exact .inr ⟨hi, List.mem_singleton.1 hj⟩
      · rcases hj with hj | ⟨_, rfl⟩
        · exact List.mem_append.2 (.inl hj)
        · exact List.mem_append.2 (.inr List.mem_cons_self)
  · rw [if_neg hi]
    refine ⟨fun ⟨t, hst, hj⟩ => by cases hst; exact .inl hj, fun hj => ?_⟩
    rcases hj with hj | ⟨hj, _⟩
    · exact ⟨s, rfl, hj⟩
    · exact absurd hj hi

end Nfa
end PatternAutomata
