import PatternAutomata.Proofs.Dfa.Canonical
import PatternAutomata.Proofs.Nfa.OfPattern
/-!
# Distinct — which states merging leaves

Merging compares states by their moves, and there a missing move is not the same as one into a state from which nothing
is accepted.  What it leaves is distinct in that finer sense only.  Whether the words that are accepted tell all states
apart (`ToldApart`) depends on what was merged: they do exactly when states that accept the same words have moves on the
same characters (`toldApart_minimize_iff`), and always where every state leads to an accepting one.
-/
namespace PatternAutomata
namespace Dfa

/-- For any two states some word is accepted from one and not from the other, a missing move counting as rejection. -/
def ToldApart (d : Dfa) : Prop :=
  ∀ i j, i < d.size → j < d.size → i ≠ j → ∃ w, d.acceptsFrom i w ≠ d.acceptsFrom j w

/-- From states that accept the same words there are moves on the same characters. -/
def MovesAgree (d : Dfa) : Prop :=
  ∀ i j, i < d.size → j < d.size → (∀ w, d.acceptsFrom i w = d.acceptsFrom j w) →
    ∀ c, ((d.state i).next? c).isSome = ((d.state j).next? c).isSome

variable {d : Dfa} {i j : Nat}

theorem toldApart_iff : d.ToldApart ↔
    ∀ i j, i < d.size → j < d.size → (∀ w, d.acceptsFrom i w = d.acceptsFrom j w) → i = j := by
  refine forall_congr' fun i => forall_congr' fun j => imp_congr_right fun _ => imp_congr_right fun _ => ?_
  constructor
  · intro h hall
    by_contra hne
    obtain ⟨w, hw⟩ := h hne
    exact hw (hall w)
  · intro h hne
    by_contra hall
    exact hne (h fun w => by_contra fun hw => hall ⟨w, hw⟩)

/-- Where states that accept the same words have moves on the same characters, no word tells such states apart. -/
theorem MovesAgree.equivalent (h : d.MovesAgree) (hd : d.WellFormed) (hi : i < d.size) (hj : j < d.size)
    (heq : ∀ w, d.acceptsFrom i w = d.acceptsFrom j w) : d.Equivalent i j := fun w => by
  induction w generalizing i j with
  | nil => exact congrArg some (heq [])
  | cons c w ih =>
    have hc := h i j hi hj heq c
    rw [run?_cons, run?_cons]
    cases hk : (d.state i).next? c with
    | none =>
      rw [hk, Option.isSome_none, eq_comm, Option.isSome_eq_false_iff, Option.isNone_iff_eq_none] at hc
      rw [hc]
    | some k =>
      rw [hk] at hc
      obtain ⟨l, hl⟩ := Option.isSome_iff_exists.1 hc.symm
      rw [hl]
      refine ih (hd.next_lt hk) (hd.next_lt hl) fun v => ?_
      have := heq (c :: v)
      rwa [acceptsFrom_cons, acceptsFrom_cons, hk, hl] at this

/-- Each state that is met has its class among the states of the quotient. -/
theorem ClassesOf.exists_class {p : Partition} {keys : Array Nat} {q : Dfa} (hq : d.ClassesOf p keys q)
    (hd : d.WellFormed) (hp : d.Classes p) (hstable : d.Stable p) {u : Word} (hu : d.run? 0 u = some i) :
    ∃ x, x < q.size ∧ keys[x]? = some (p.classOf i) := by
  have hrun := hq.run?_eq hd hp hstable hd.size_pos (Explored.root_eq hq) u
  rw [hu] at hrun
  obtain ⟨x, -, hx⟩ := Option.bind_eq_some_iff.1 hrun
  exact ⟨x, Explored.lt_size hq hx, hx⟩

/-- **When merging leaves no two states that accept the same words.** -/
theorem toldApart_minimize_iff_movesAgree (hd : d.WellFormed) (hreach : ∀ i, i < d.size → ∃ u, d.run? 0 u = some i) :
    d.minimize.ToldApart ↔ d.MovesAgree := by
  obtain ⟨hp, hstable⟩ := refinement_spec hd
  obtain ⟨keys, hq, -⟩ := exists_minimize hd
  rw [toldApart_iff]
  constructor
  · intro h i j hi hj heq c
    obtain ⟨u, hu⟩ := hreach i hi
    obtain ⟨v, hv⟩ := hreach j hj
    obtain ⟨x, hx, hxi⟩ := hq.exists_class hd hp hstable hu
    obtain ⟨y, hy, hyj⟩ := hq.exists_class hd hp hstable hv
    have hclass := (hq.eq_iff hxi hyj).1 (h x y hx hy fun w => by
      rw [hq.acceptsFrom_eq hd hp hstable hi hxi, hq.acceptsFrom_eq hd hp hstable hj hyj, heq])
    have := congrArg Option.isSome (hstable i j hi hj hclass c)
    rwa [Option.isSome_map, Option.isSome_map] at this
  · intro h x y hx hy heq
    obtain ⟨i, hi, hxi⟩ := hq.exists_member hp hx
    obtain ⟨j, hj, hyj⟩ := hq.exists_member hp hy
    have hij : d.Equivalent i j := h.equivalent hd hi hj fun w => by
      rw [← hq.acceptsFrom_eq hd hp hstable hi hxi, ← hq.acceptsFrom_eq hd hp hstable hj hyj, heq]
    exact (hq.eq_iff hxi hyj).2 ((classOf_refinement hd hi hj).2 hij)

end Dfa

namespace Nfa

/-- **What merging leaves.**  No two states are equivalent.  All are told apart by the words they accept exactly when,
before merging, states that accept the same words had moves on the same characters; so they are if every state of the
automaton leads to an accepting one. -/
theorem toldApart_minimize_iff (n : Nfa) (hn : n.WellFormed) : ∃ raw, Dfa.ofNfa n = .ok raw ∧
    (∀ i j, i < raw.minimize.size → j < raw.minimize.size → raw.minimize.Equivalent i j → i = j) ∧
    (raw.minimize.ToldApart ↔ raw.MovesAgree) ∧
    ((∀ i, i < n.size → ∃ w j, n.isAccepting j = true ∧ n.Path i w j) → raw.minimize.ToldApart) := by
  obtain ⟨raw, keys, hraw, hsubsets⟩ := Dfa.exists_ofNfa hn
  have hd := hsubsets.wellFormed
  refine ⟨raw, hraw, fun i j hi hj => Dfa.eq_of_equivalent_minimize hd hi hj, ?_, fun hlive => ?_⟩
  · exact Dfa.toldApart_minimize_iff_movesAgree hd hsubsets.breadthFirst.exists_run
  · have hcanonical := Dfa.canonical_minimize hd fun i hi => hsubsets.live hn hlive hi
    exact Dfa.toldApart_iff.2 hcanonical.distinct

/-- From the start, `a` leads to acceptance and `b` to a dead end. -/
def siding : Nfa :=
  ((((empty.addState false).2.addState true).2.addState false).2.addMove 0 (.single 'a') 1).addMove 0 (.single 'b') 2

/-- A single dead end is told apart from the states that accept something. -/
theorem siding_toldApart : siding.WellFormed ∧ ∃ raw, Dfa.ofNfa siding = .ok raw ∧ raw.minimize.size = 3 ∧
    raw.minimize.ToldApart := by
  have hwf : siding.WellFormed := by decide
  have hcompute : (Dfa.ofNfa siding).toOption.map (fun d => (d.size, d.minimize.size,
      [d.acceptsFrom 0 [], d.acceptsFrom 1 [], d.acceptsFrom 2 []], d.acceptsFrom 0 ['a'], d.acceptsFrom 2 ['a'])) =
      some (3, 3, [false, true, false], true, false) := by decide +kernel
  obtain ⟨raw, hraw, -, hiff, -⟩ := toldApart_minimize_iff siding hwf
  rw [hraw] at hcompute
  simp only [Except.toOption, Option.map_some, Option.some.injEq, Prod.mk.injEq, List.cons.injEq, and_true] at hcompute
  obtain ⟨hsize, hmin, ⟨h₀, h₁, h₂⟩, ha₀, ha₂⟩ := hcompute
  refine ⟨hwf, raw, hraw, hmin, hiff.2 fun i j hi hj heq => ?_⟩
  have hempty := heq []
  have ha := heq ['a']
  rw [hsize] at hi hj
  have hij : i = j := by
    rcases i with _ | _ | _ | i <;> rcases j with _ | _ | _ | j <;> first | rfl | omega | simp_all
  exact fun c => by rw [hij]

/-- `a` followed by a character out of the empty set: no word is accepted from either of the two states, but only one
of them has a move. -/
theorem minimize_dead_ends : ∃ raw, Dfa.ofNfa (ofPattern (.seq (.word ['a']) (.oneOf []))) = .ok raw ∧
    raw.minimize.size = 2 ∧ (∀ w, raw.minimize.acceptsFrom 0 w = raw.minimize.acceptsFrom 1 w) ∧
    ¬ raw.minimize.ToldApart := by
  let d : Dfa := ⟨#[⟨false, #[(.single 'a', 1)]⟩, ⟨false, #[]⟩]⟩
  have hcompute : (Dfa.ofNfa (ofPattern (.seq (.word ['a']) (.oneOf [])))).toOption.map Dfa.minimize = some d := by
    decide +kernel
  obtain ⟨raw, _, hraw, -⟩ := Dfa.exists_ofNfa (wellFormed_ofPattern (.seq (.word ['a']) (.oneOf [])))
  rw [hraw] at hcompute
  have hmin : raw.minimize = d := Option.some.inj hcompute
  have hreject (i : Nat) (w : Word) : d.acceptsFrom i w = false := Dfa.acceptsFrom_eq_false (by decide) i w
  rw [← hmin] at hreject
  have heq (w : Word) : raw.minimize.acceptsFrom 0 w = raw.minimize.acceptsFrom 1 w := by rw [hreject, hreject]
  have hsize : raw.minimize.size = 2 := by rw [hmin]; rfl
  refine ⟨raw, hraw, hsize, heq, fun h => ?_⟩
  obtain ⟨w, hw⟩ := h 0 1 (by omega) (by omega) (by decide)
  exact hw (heq w)

end Nfa
end PatternAutomata
