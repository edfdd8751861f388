import Mathlib.Data.Char
import Mathlib.Data.List.Induction
import Mathlib.Data.List.Shortlex
import Mathlib.Order.Lattice
import PatternAutomata.Proofs.Dfa.Explored
/-!
# Shortlex — states in the order of their least words

Words are put in order by their lengths and, where these are the same, by their characters.  In an automaton that is
numbered breadth first, a state with a smaller number can be reached by a smaller word (`BreadthFirst.exists_precedes`),
so the states are numbered in the order of the least words that lead to them (`BreadthFirst.lt_iff_precedes`).  Hence the
numbers hold nothing of their own: if the same words lead to one state in two automata numbered breadth first, they lead
to states of the same number (`BreadthFirst.run?_eq`).
-/
namespace PatternAutomata

/-- `u` is shorter than `v`, or as long and before it by the characters. -/
abbrev Word.Precedes (u v : Word) : Prop := List.Shortlex (· < ·) u v

namespace Word

variable {u v w : Word} {a b : Char}

theorem precedes_wellFounded : WellFounded Precedes :=
  List.Shortlex.wf ((InvImage.wf Char.toNat Nat.lt_wfRel.wf).mono fun _ _ h => h)

theorem Precedes.trans (h : Precedes u v) (h' : Precedes v w) : Precedes u w := by
  rw [Precedes, List.shortlex_def] at h h' ⊢
  rcases h with h | ⟨h, hlex⟩ <;> rcases h' with h' | ⟨h', hlex'⟩
  · exact .inl (Nat.lt_trans h h')
  · exact .inl (h' ▸ h)
  · exact .inl (h ▸ h')
  · exact .inr ⟨h.trans h', lt_trans (α := Word) hlex hlex'⟩

theorem precedes_or_eq_or_precedes (u v : Word) : Precedes u v ∨ u = v ∨ Precedes v u := trichotomous_of Precedes u v

theorem lex_append_singleton (h : List.Lex (· < ·) u v) (hlen : u.length = v.length) :
    List.Lex (· < ·) (u ++ [a]) (v ++ [b]) := by
  induction h with
  | nil => cases hlen
  | cons _ ih => exact .cons (ih (Nat.succ.inj hlen))
  | rel h => exact .rel h

/-- What is added at the end does not change the order of different words. -/
theorem Precedes.append_singleton (h : Precedes u v) : Precedes (u ++ [a]) (v ++ [b]) := by
  rw [Precedes, List.shortlex_def] at h ⊢
  rw [List.length_append, List.length_append]
  exact h.imp (Nat.succ_lt_succ ·) fun ⟨hlen, hlex⟩ => ⟨congrArg Nat.succ hlen, lex_append_singleton hlex hlen⟩

theorem precedes_append_of_lt (u : Word) (h : a < b) : Precedes (u ++ [a]) (u ++ [b]) :=
  List.Shortlex.append_left ((List.shortlex_singleton_iff a b).2 h) u

end Word

namespace Dfa

open Word (Precedes)

variable {d e : Dfa} {i j k : Nat} {c : Char} {u v w : Word}

theorem run?_append_singleton : d.run? i (u ++ [c]) = (d.run? i u).bind fun k => (d.state k).next? c := by
  rw [run?_append]
  exact congrArg _ (funext fun k => by rw [run?_cons]; exact Option.bind_fun_some _)

/-- Of the words that lead from the root to state `i`, the word `u` is the least. -/
structure LeastTo (d : Dfa) (i : Nat) (u : Word) : Prop where
  run : d.run? 0 u = some i
  least : ∀ v, Precedes v u → d.run? 0 v ≠ some i

/-- **A state with a smaller number is reached by a smaller word.**  The last step of a word comes out of a state, and
what has a smaller number than the step's target was met from an earlier state or on an earlier character. -/
theorem BreadthFirst.exists_precedes (hd : d.BreadthFirst) (h : d.run? 0 u = some j) (hij : i < j) :
    ∃ v, d.run? 0 v = some i ∧ Precedes v u := by
  induction u using List.reverseRecOn generalizing i j with
  | nil =>
    cases h
    exact absurd hij (Nat.not_lt_zero i)
  | append_singleton u c ih =>
    rw [run?_append_singleton] at h
    obtain ⟨k, hk, hnext⟩ := Option.bind_eq_some_iff.1 h
    rcases Nat.eq_zero_or_pos i with rfl | hpos
    · exact ⟨[], rfl, .of_length_lt (by simp)⟩
    rcases hd.in_order k c i j hnext hpos hij with ⟨p, hp, b, hb⟩ | ⟨b, hbc, hb⟩
    · obtain ⟨v, hv, hvu⟩ := ih hk hp
      exact ⟨v ++ [b], by rw [run?_append_singleton, hv]; exact hb, hvu.append_singleton⟩
    · exact ⟨u ++ [b], by rw [run?_append_singleton, hk]; exact hb, Word.precedes_append_of_lt u hbc⟩

/-! ## Least words -/

theorem BreadthFirst.exists_leastTo (hd : d.BreadthFirst) (hi : i < d.size) : ∃ u, d.LeastTo i u := by
  obtain ⟨u, hu, hleast⟩ := Word.precedes_wellFounded.has_min {u | d.run? 0 u = some i} (hd.exists_run i hi)
  exact ⟨u, hu, fun v hvu hv => hleast v hv hvu⟩

theorem BreadthFirst.precedes_of_lt (hd : d.BreadthFirst) (hu : d.LeastTo i u) (hv : d.LeastTo j v) (hij : i < j) :
    Precedes u v := by
  obtain ⟨w, hw, hwv⟩ := hd.exists_precedes hv.run hij
  rcases Word.precedes_or_eq_or_precedes u w with h | rfl | h
  · exact h.trans hwv
  · exact hwv
  · exact absurd hw (hu.least w h)

/-- **States are numbered in the order of their least words.** -/
theorem BreadthFirst.lt_iff_precedes (hd : d.BreadthFirst) (hu : d.LeastTo i u) (hv : d.LeastTo j v) :
    i < j ↔ Precedes u v := by
  refine ⟨hd.precedes_of_lt hu hv, fun h => ?_⟩
  rcases Nat.lt_trichotomy i j with hij | rfl | hji
  · exact hij
  · exact absurd hu.run (hv.least u h)
  · exact absurd h (Std.Asymm.asymm _ _ (hd.precedes_of_lt hv hu hji))

/-! ## The numbers of two automata -/

/-- A word that leads to state `k` of one automaton leads to state `k` of the other, if the states before it are numbered
alike. -/
theorem BreadthFirst.run?_eq_some (hd : d.BreadthFirst) (he : e.BreadthFirst)
    (hdefined : ∀ u, (d.run? 0 u).isSome = (e.run? 0 u).isSome)
    (hsame : ∀ u v, d.run? 0 u = d.run? 0 v ↔ e.run? 0 u = e.run? 0 v)
    (ih : ∀ l < k, ∀ u, d.run? 0 u = some l ↔ e.run? 0 u = some l) (hu : d.run? 0 u = some k) :
    e.run? 0 u = some k := by
  induction u using Word.precedes_wellFounded.induction with
  | h u ihu =>
    obtain ⟨j, hj⟩ := Option.isSome_iff_exists.1 ((hdefined u).symm.trans (hu ▸ rfl))
    rcases Nat.lt_trichotomy j k with hjk | rfl | hkj
    · rw [(ih j hjk u).2 hj] at hu
      exact absurd (Option.some.inj hu) (Nat.ne_of_lt hjk)
    · exact hj
    · -- a smaller word leads to state `k` of the other automaton; where it leads to in this one has a larger number,
      -- and so a word that is smaller still leads to `k`
      obtain ⟨v, hv, hvu⟩ := he.exists_precedes hj hkj
      obtain ⟨l, hl⟩ := Option.isSome_iff_exists.1 ((hdefined v).trans (hv ▸ rfl))
      rcases Nat.lt_trichotomy l k with hlk | rfl | hkl
      · rw [(ih l hlk v).1 hl] at hv
        exact absurd (Option.some.inj hv) (Nat.ne_of_lt hlk)
      · rw [(hsame u v).1 (hu.trans hl.symm), hv]
      · obtain ⟨w, hw, hwv⟩ := hd.exists_precedes hl hkl
        rw [(hsame u w).1 (hu.trans hw.symm)]
        exact ihu w (hwv.trans hvu) hw

/-- **The numbers are decided by which words lead to one state.** -/
theorem BreadthFirst.run?_eq (hd : d.BreadthFirst) (he : e.BreadthFirst)
    (hdefined : ∀ u, (d.run? 0 u).isSome = (e.run? 0 u).isSome)
    (hsame : ∀ u v, d.run? 0 u = d.run? 0 v ↔ e.run? 0 u = e.run? 0 v) (u : Word) : d.run? 0 u = e.run? 0 u := by
  have hiff (k : Nat) : ∀ u, d.run? 0 u = some k ↔ e.run? 0 u = some k := by
    induction k using Nat.strongRecOn with
    | ind k ih =>
      exact fun u => ⟨hd.run?_eq_some he hdefined hsame ih,
        he.run?_eq_some hd (fun v => (hdefined v).symm) (fun v w => (hsame v w).symm) fun l hl v => (ih l hl v).symm⟩
  exact Option.ext fun k => hiff k u

/-- **Automata numbered breadth first are the same, up to how their moves are cut into intervals,** if words lead to
states that agree on acceptance, and two words to one state in both or in neither. -/
theorem BreadthFirst.agree (hd : d.WellFormed) (he : e.WellFormed) (hdb : d.BreadthFirst) (heb : e.BreadthFirst)
    (haccepting : ∀ u, (d.run? 0 u).map (fun i => (d.state i).accepting) =
      (e.run? 0 u).map fun i => (e.state i).accepting)
    (hsame : ∀ u v, d.run? 0 u = d.run? 0 v ↔ e.run? 0 u = e.run? 0 v) : Agree d e := by
  have hrun := hdb.run?_eq heb (fun u => by simpa using congrArg Option.isSome (haccepting u)) hsame
  have hsize : d.size = e.size := by
    refine Nat.le_antisymm (Nat.le_of_not_lt fun h => ?_) (Nat.le_of_not_lt fun h => ?_)
    · obtain ⟨u, hu⟩ := hdb.exists_run e.size h
      exact Nat.lt_irrefl _ (he.run_lt he.size_pos ((hrun u).symm.trans hu))
    · obtain ⟨u, hu⟩ := heb.exists_run d.size h
      exact Nat.lt_irrefl _ (hd.run_lt hd.size_pos ((hrun u).trans hu))
  have hout {i : Nat} (hi : ¬ i < d.size) : d.state i = e.state i := by
    rw [state_of_size_le (Nat.not_lt.1 hi), state_of_size_le (hsize ▸ Nat.not_lt.1 hi)]
  refine ⟨hsize, fun i => ?_, fun i c => ?_⟩
  · by_cases hi : i < d.size
    · obtain ⟨u, hu⟩ := hdb.exists_run i hi
      have := haccepting u
      rw [← hrun, hu] at this
      exact Option.some.inj this
    · rw [hout hi]
  · by_cases hi : i < d.size
    · obtain ⟨u, hu⟩ := hdb.exists_run i hi
      have := hrun (u ++ [c])
      rwa [run?_append_singleton, run?_append_singleton, ← hrun, hu] at this
    · rw [hout hi]

end Dfa
end PatternAutomata
