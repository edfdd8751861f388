import PatternAutomata.Proofs.Checked.Dfa
import PatternAutomata.Proofs.Dfa.Forced
/-!
# Checked — forced runs, every state looked up

A walk along forced moves looks up the states it comes to and keeps those it has passed in an index set that admits the
numbers up to the number of states (`Tracks`).  In a well-formed automaton moves lead to states only, so that no walk
fails (`chain_eq_ok`, `offset_eq_ok`, `offsets_eq_ok`).
-/
namespace PatternAutomata
namespace Checked

def chainFrom (d : Dfa) : (limit : Nat) → (visited : IndexSet) → (current : Nat) → Except Fault (List Interval)
  | 0, _, _ => .ok []
  | limit + 1, visited, current => do
    match (← lookUp d.states current).moves.toList with
    | [(label, next)] =>
      let s ← lookUp d.states next
      if s.accepting ∧ s.moves ≠ #[] then return []
      else
        let (new, visited) ← visited.insert next
        if new then return label :: (← chainFrom d limit visited next) else return [label]
    | _ => return []

def chain (d : Dfa) : Except Fault (List Interval) := do
  let (_, visited) ← (IndexSet.empty d.size).insert 0
  chainFrom d d.size visited 0

/-- Goes on with a forced run that has passed the `depth` states `visited` and is in `current`. -/
def forcedFrom (d : Dfa) : (limit : Nat) → (visited : IndexSet) → (depth : Nat) → Option Offset → (current : Nat) →
    Except Fault (Option Offset × RunEnd)
  | 0, _, _, last, _ => .ok (last, .stuck)
  | limit + 1, visited, depth, last, current => do
    let s ← lookUp d.states current
    if s.accepting then return (last, .accepting)
    else
      let (new, visited) ← visited.insert current
      if new then
        match s.destinations, s.span with
        | [next], some range => forcedFrom d limit visited (depth + 1) (some ⟨depth, range⟩) next
        | [], _ => return (last, .stuck)
        | _, none => return (last, .stuck)
        | _, some _ => return (last, .fork current)
      else return (last, .stuck)

def forcedRun (d : Dfa) (start : Nat) : Except Fault (Option Offset × RunEnd) :=
  forcedFrom d (d.size + 1) (.empty d.size) 0 none start

def offset (d : Dfa) : Except Fault (Option Offset) := do
  match ← forcedRun d 0 with
  | (last, .accepting) => return last
  | _ => return none

def successors (d : Dfa) (start : Nat) : Except Fault (List (Unit × Nat)) := do
  match (← forcedRun d start).2 with
  | .fork s => return (← lookUp d.states s).destinations.map ((), ·)
  | _ => return []

/-- The states from which forced runs start; all of them go into one index set. -/
def runStarts (d : Dfa) : Except Fault (List Nat) := do
  let explored ← Exploration.explore (successors d) d.size 0
  let _ ← Nfa.insertAll (.empty d.size) explored.found.keys.toList
  return explored.found.keys.toList

def offsets (d : Dfa) : Except Fault (List (Nat × Offset)) := do
  let runs ← (ascending (← runStarts d)).mapM fun s => do return (← forcedRun d s).1.map (s, ·)
  return runs.filterMap id

/-- A set has the states of a list for members, and admits the numbers up to the number of states. -/
structure Tracks (d : Dfa) (set : IndexSet) (visited : List Nat) : Prop where
  bound_eq : set.bound = d.size
  mem_iff : ∀ i, i ∈ set.toList ↔ i ∈ visited

variable {d : Dfa} {set : IndexSet} {visited : List Nat} {i current : Nat} {last : Option Offset}

theorem tracks_empty (d : Dfa) : Tracks d (.empty d.size) [] := ⟨rfl, fun _ => by rw [IndexSet.toList_empty]⟩

/-- **A set that tracks a walk takes every state**, and says whether the walk has passed it. -/
theorem Tracks.insert (h : Tracks d set visited) (hi : i < d.size) :
    ∃ new next, set.insert i = .ok (new, next) ∧ (new = true ↔ i ∉ visited) ∧ Tracks d next (i :: visited) := by
  cases hinsert : set.insert i with
  | error f =>
    have := (IndexSet.insert_eq_error.1 hinsert).1
    rw [h.bound_eq] at this
    omega
  | ok r =>
    obtain ⟨new, next⟩ := r
    obtain ⟨hbound, hnew, hlist⟩ := IndexSet.insert_eq_ok hinsert
    refine ⟨new, next, rfl, by rw [hnew, h.mem_iff], hbound.trans h.bound_eq, fun j => ?_⟩
    rw [hlist, List.mem_cons, ← h.mem_iff j]
    split
    · rename_i hmem
      exact ⟨.inr, fun hj => hj.elim (fun hji => hji ▸ hmem) id⟩
    · rw [List.mem_append, List.mem_singleton, or_comm]

theorem chainFrom_eq_ok (hd : d.WellFormed) (limit : Nat) (h : Tracks d set visited) (hcurrent : current < d.size) :
    chainFrom d limit set current = .ok (d.chainFrom limit visited current) := by
  induction limit generalizing set visited current with
  | zero => rfl
  | succ limit ih =>
    have htarget (m : Interval × Nat) (hm : m ∈ (d.state current).moves.toList) : m.2 < d.size :=
      hd.target_lt current m (Array.mem_toList_iff.1 hm)
    refine bind_eq_ok.2 ⟨_, lookUp_states hcurrent, ?_⟩
    rw [Dfa.chainFrom]
    rcases hmoves : (d.state current).moves.toList with _ | ⟨⟨label, next⟩, _ | ⟨m, rest⟩⟩
    · rfl
    · have hnext : next < d.size := htarget (label, next) (by rw [hmoves]; exact List.mem_cons_self)
      obtain ⟨new, set', hinsert, hnew, h'⟩ := h.insert hnext
      refine bind_eq_ok.2 ⟨_, lookUp_states hnext, ?_⟩
      by_cases hstop : (d.state next).accepting ∧ (d.state next).moves ≠ #[]
      · simp only [if_pos hstop]
        rfl
      · simp only [if_neg hstop]
        refine bind_eq_ok.2 ⟨_, hinsert, ?_⟩
        cases new with
        | false =>
          have hvisited : next ∈ visited := by simpa using hnew
          rw [if_pos hvisited]
          rfl
        | true =>
          rw [if_neg (hnew.1 rfl)]
          exact bind_eq_ok.2 ⟨_, ih h' hnext, rfl⟩
    · rfl

theorem chain_eq_ok (hd : d.WellFormed) : chain d = .ok d.chain := by
  obtain ⟨new, set, hinsert, -, h⟩ := (tracks_empty d).insert hd.size_pos
  rw [chain, hinsert]
  exact chainFrom_eq_ok hd d.size h hd.size_pos

theorem forcedFrom_eq_ok (hd : d.WellFormed) (limit : Nat) (h : Tracks d set visited) (hcurrent : current < d.size) :
    forcedFrom d limit set visited.length last current = .ok (d.forcedFrom limit visited last current) := by
  induction limit generalizing set visited last current with
  | zero => rfl
  | succ limit ih =>
    obtain ⟨new, set', hinsert, hnew, h'⟩ := h.insert hcurrent
    refine bind_eq_ok.2 ⟨_, lookUp_states hcurrent, ?_⟩
    rw [Dfa.forcedFrom]
    by_cases haccepting : (d.state current).accepting = true
    · simp only [if_pos haccepting]
      rfl
    · simp only [if_neg haccepting]
      refine bind_eq_ok.2 ⟨_, hinsert, ?_⟩
      cases new with
      | false =>
        have hvisited : current ∈ visited := by simpa using hnew
        rw [if_pos hvisited]
        rfl
      | true =>
        rw [if_neg (hnew.1 rfl)]
        rcases hdests : (d.state current).destinations with _ | ⟨next, _ | ⟨t, rest⟩⟩
        · rfl
        · cases (d.state current).span with
          | none => rfl
          | some range => exact ih h' (hd.destination_lt (hdests ▸ List.mem_cons_self))
        · cases (d.state current).span with
          | none => rfl
          | some range => rfl

theorem forcedRun_eq_ok (hd : d.WellFormed) {start : Nat} (hstart : start < d.size) :
    forcedRun d start = .ok (d.forcedRun start) :=
  forcedFrom_eq_ok hd (d.size + 1) (tracks_empty d) hstart

theorem offset_eq_ok (hd : d.WellFormed) : offset d = .ok d.offset := by
  refine bind_eq_ok.2 ⟨_, forcedRun_eq_ok hd hd.size_pos, ?_⟩
  rw [Dfa.offset]
  rcases d.forcedRun 0 with ⟨last, _ | s | _⟩
  · rfl
  · rfl
  · rfl

theorem successors_eq_ok (hd : d.WellFormed) (hi : i < d.size) :
    successors d i = .ok ((d.successors i).map ((), ·)) ∧ ∀ m ∈ (d.successors i).map ((), ·), m.2 < d.size := by
  have hfork {s : Nat} (h : (d.forcedRun i).2 = .fork s) : s < d.size := hd.fork_lt hi h
  have hrun := forcedRun_eq_ok hd hi
  rw [successors, Dfa.successors, hrun]
  rcases hend : d.forcedRun i with ⟨last, _ | s | _⟩
  · exact ⟨rfl, fun _ hm => absurd hm List.not_mem_nil⟩
  · have hs : s < d.size := hfork (congrArg Prod.snd hend)
    refine ⟨bind_eq_ok.2 ⟨_, rfl, bind_eq_ok.2 ⟨_, lookUp_states hs, rfl⟩⟩, fun m hm => ?_⟩
    obtain ⟨t, ht, rfl⟩ := List.mem_map.1 hm
    exact hd.destination_lt ht
  · exact ⟨rfl, fun _ hm => absurd hm List.not_mem_nil⟩

theorem runStarts_eq_ok (hd : d.WellFormed) :
    runStarts d = .ok d.runStarts ∧ ∀ s ∈ d.runStarts, s < d.size := by
  have hmoves (s : Nat) (hs : s < d.size) := successors_eq_ok hd hs
  obtain ⟨hexplore, hinv⟩ := Exploration.explore_eq_exploreAll d.size hmoves hd.size_pos
  have hlt : ∀ s ∈ d.runStarts, s < d.size := fun s hs => hinv.holds_of_mem (Array.mem_toList_iff.1 hs)
  obtain ⟨set, hset, -⟩ := Nfa.exists_insertAll (s := .empty d.size) fun s hs => Nat.le_of_lt (hlt s hs)
  exact ⟨bind_eq_ok.2 ⟨_, hexplore, bind_eq_ok.2 ⟨_, hset, rfl⟩⟩, hlt⟩

theorem offsets_eq_ok (hd : d.WellFormed) : offsets d = .ok d.offsets := by
  obtain ⟨hstarts, hlt⟩ := runStarts_eq_ok hd
  refine bind_eq_ok.2 ⟨_, hstarts, bind_eq_ok.2 ⟨_, mapM_eq_ok fun s hs => bind_eq_ok.2 ⟨_, forcedRun_eq_ok hd
    (hlt s (Ascending.mem_ascending.1 hs)), rfl⟩, ?_⟩⟩
  rw [Dfa.offsets, List.filterMap_map]
  rfl

end Checked
end PatternAutomata
