import PatternAutomata.Proofs.Dfa.Behaviour
import PatternAutomata.Proofs.Partition
/-!
# Refinement — when the rounds stop

A round splits the classes whose members behave differently, so a partition that a round leaves as it is puts together
only states that behave alike (`Stable`).  There can be no more classes than states and every round but the last adds
one, so the limit is never what ends the rounds (`exists_rounds`).  Nor is a round ever too eager: states that no word
tells apart stay together (`Equivalent.classOf_refine`).  In the end two states are in one class exactly when no word
tells them apart (`classOf_refinement`).
-/
namespace PatternAutomata
namespace Dfa

/-- Every character leads from both states into one class, or from both nowhere. -/
def Alike (d : Dfa) (p : Partition) (i j : Nat) : Prop :=
  ∀ c, ((d.state i).next? c).map p.classOf = ((d.state j).next? c).map p.classOf

/-- Every word leads from both states to states that agree on acceptance, or from both nowhere. -/
def Equivalent (d : Dfa) (i j : Nat) : Prop :=
  ∀ w, (d.run? i w).map (fun k => (d.state k).accepting) = (d.run? j w).map fun k => (d.state k).accepting

variable {d : Dfa} {p q : Partition} {i j : Nat}

/-- What every partition on the way satisfies: it is one of the states, and none of its classes mixes accepting and
rejecting ones. -/
structure Classes (d : Dfa) (p : Partition) : Prop where
  proper : p.Proper
  size_eq : p.classes.size = d.size
  accepting_eq : ∀ i j, i < d.size → j < d.size → p.classOf i = p.classOf j →
    (d.state i).accepting = (d.state j).accepting

def Stable (d : Dfa) (p : Partition) : Prop :=
  ∀ i j, i < d.size → j < d.size → p.classOf i = p.classOf j → d.Alike p i j

theorem Alike.mono (hd : d.WellFormed) (hqp : q.Refines p) (hsize : p.classes.size = d.size) (h : d.Alike q i j) :
    d.Alike p i j := fun c => by
  have h := h c
  cases hi : (d.state i).next? c with
  | none =>
    rw [hi] at h
    rw [Option.map_eq_none_iff.1 h.symm]
  | some k =>
    rw [hi, Option.map_some] at h
    obtain ⟨l, hl, heq⟩ := Option.map_eq_some_iff.1 h.symm
    rw [hl, Option.map_some, Option.map_some,
      hqp k l (hsize ▸ hd.next_lt hi) (hsize ▸ hd.next_lt hl) heq.symm]

/-! ## One round -/

theorem roundKey_eq_iff (hd : d.WellFormed) :
    d.roundKey p i = d.roundKey p j ↔ p.classOf i = p.classOf j ∧ d.Alike p i j := by
  have hbehaviour := behaviour_eq_iff (p := p) (hd.ordered i) (hd.ordered j)
  rw [roundKey, roundKey, List.cons.injEq]
  constructor
  · rintro ⟨hclass, hmoves⟩
    exact ⟨hclass, hbehaviour.1 (encodeMoves_injective hmoves)⟩
  · rintro ⟨hclass, halike⟩
    exact ⟨hclass, congrArg _ (hbehaviour.2 halike)⟩

/-- **What a round does**: it splits a class into the parts that behave alike. -/
theorem classOf_split (hd : d.WellFormed) (hi : i < d.size) (hj : j < d.size) :
    (d.split p).classOf i = (d.split p).classOf j ↔ p.classOf i = p.classOf j ∧ d.Alike p i j := by
  have key {i : Nat} (hi : i < d.size) : ((List.range d.size).map (d.roundKey p))[i]? = some (d.roundKey p i) := by
    rw [List.getElem?_map, List.getElem?_range hi]
    rfl
  rw [split, Partition.classOf_ofKeys (key hi) (key hj), roundKey_eq_iff hd]

theorem split_refines (hd : d.WellFormed) (hp : d.Classes p) : (d.split p).Refines p := fun _ _ hi hj h =>
  ((classOf_split hd (hp.size_eq ▸ hi) (hp.size_eq ▸ hj)).1 h).1

theorem getElem?_map_accepting (d : Dfa) (i : Nat) : (d.states.toList.map (·.accepting.toNat))[i]? =
    if i < d.size then some (d.state i).accepting.toNat else none := by
  rw [List.getElem?_map, Array.getElem?_toList, state, Array.getD_eq_getD_getElem?]
  by_cases hi : i < d.states.size
  · rw [Array.getElem?_eq_getElem hi]
    exact (if_pos hi).symm
  · rw [Array.getElem?_eq_none (Nat.not_lt.1 hi)]
    exact (if_neg hi).symm

theorem classOf_initialPartition (hi : i < d.size) (hj : j < d.size) :
    d.initialPartition.classOf i = d.initialPartition.classOf j ↔ (d.state i).accepting = (d.state j).accepting := by
  have key {i : Nat} (hi : i < d.size) := (getElem?_map_accepting d i).trans (if_pos hi)
  rw [initialPartition, Partition.classOf_ofKeys (key hi) (key hj)]
  exact ⟨fun h => by revert h; cases (d.state i).accepting <;> cases (d.state j).accepting <;> simp, fun h => h ▸ rfl⟩

theorem classes_initialPartition (d : Dfa) : d.Classes d.initialPartition where
  proper := Partition.proper_ofKeys _
  size_eq := by simp [initialPartition, size]
  accepting_eq _ _ hi hj := (classOf_initialPartition hi hj).1

theorem Classes.split (hd : d.WellFormed) (hp : d.Classes p) : d.Classes (d.split p) where
  proper := Partition.proper_ofKeys _
  size_eq := by simp [Dfa.split]
  accepting_eq i j hi hj h := hp.accepting_eq i j hi hj ((classOf_split hd hi hj).1 h).1

/-- **A round that adds no class leaves only classes whose members behave alike.** -/
theorem Classes.stable_split (hd : d.WellFormed) (hp : d.Classes p) (hcount : (d.split p).count = p.count) :
    d.Stable (d.split p) := fun i j hi hj h => by
  have hq := hp.split hd
  have hsize : (d.split p).classes.size = p.classes.size := hq.size_eq.trans hp.size_eq.symm
  have hback : p.Refines (d.split p) := fun i j hi hj heq =>
    (split_refines hd hp).symm_of_count_le hp.proper hq.proper hsize (Nat.le_of_eq hcount) i j (hsize ▸ hi)
      (hsize ▸ hj) heq
  exact ((classOf_split hd hi hj).1 h).2.mono hd hback hq.size_eq

/-! ## All rounds -/

theorem Classes.iterate (hd : d.WellFormed) (hp : d.Classes p) : ∀ r, d.Classes (d.split^[r] p)
  | 0 => hp
  | r + 1 => by
    rw [Function.iterate_succ_apply']
    exact (hp.iterate hd r).split hd

/-- **Every round but the last adds classes.**  The rounds are as many as it takes until one adds none, whatever more of
them the limit allows. -/
theorem exists_rounds (hd : d.WellFormed) (limit : Nat) (hp : d.Classes p) (hlimit : d.size < p.count + limit) :
    ∃ m, (d.refine limit p).partition = d.split^[m + 1] p ∧
      (d.refine limit p).rounds =
        (List.range (m + 1)).map (fun r => ((d.split^[r] p).count, (d.split^[r + 1] p).count)) ∧
      (∀ r < m, (d.split^[r] p).count < (d.split^[r + 1] p).count) ∧
      (d.split^[m + 1] p).count = (d.split^[m] p).count := by
  induction limit generalizing p with
  | zero =>
    have := hp.proper.count_le
    rw [hp.size_eq] at this
    omega
  | succ limit ih =>
    have hq := hp.split hd
    by_cases hcount : (d.split p).count = p.count
    · refine ⟨0, ?_, ?_, fun r hr => absurd hr (Nat.not_lt_zero r), hcount⟩
      · rw [refine, if_pos hcount]
        rfl
      · rw [refine, if_pos hcount]
        rfl
    · have hle := (split_refines hd hp).count_le hp.proper hq.proper (hq.size_eq.trans hp.size_eq.symm)
      obtain ⟨m, hpartition, hrounds, hgrows, hstops⟩ := ih hq (by omega)
      refine ⟨m + 1, ?_, ?_, fun r hr => ?_, hstops⟩
      · rw [refine, if_neg hcount]
        exact hpartition
      · rw [refine, if_neg hcount, List.range_succ_eq_map, List.map_cons, List.map_map]
        exact congrArg (List.cons _) hrounds
      · cases r with
        | zero => exact Nat.lt_of_le_of_ne hle (Ne.symm hcount)
        | succ r => exact hgrows r (Nat.lt_of_succ_lt_succ hr)

/-- **The rounds end in a partition that no further round would split.** -/
theorem stable_refine (hd : d.WellFormed) (limit : Nat) (hp : d.Classes p) (hlimit : d.size < p.count + limit) :
    d.Classes (d.refine limit p).partition ∧ d.Stable (d.refine limit p).partition := by
  obtain ⟨m, hpartition, -, -, hstops⟩ := exists_rounds hd limit hp hlimit
  have hm := hp.iterate hd m
  rw [Function.iterate_succ_apply'] at hpartition hstops
  rw [hpartition]
  exact ⟨hm.split hd, hm.stable_split hd hstops⟩

theorem Equivalent.next (h : d.Equivalent i j) (c : Char) :
    (∃ k l, (d.state i).next? c = some k ∧ (d.state j).next? c = some l ∧ d.Equivalent k l) ∨
      (d.state i).next? c = none ∧ (d.state j).next? c = none := by
  have hc := h [c]
  simp only [run?_cons, run?_nil] at hc
  cases hi : (d.state i).next? c with
  | none =>
    rw [hi] at hc
    cases hj : (d.state j).next? c with
    | none => exact .inr ⟨rfl, rfl⟩
    | some l => rw [hj] at hc; cases hc
  | some k =>
    rw [hi] at hc
    cases hj : (d.state j).next? c with
    | none => rw [hj] at hc; cases hc
    | some l =>
      refine .inl ⟨k, l, rfl, rfl, fun w => ?_⟩
      have := h (c :: w)
      rwa [run?_cons, run?_cons, hi, hj] at this

/-- **No round splits states that no word tells apart.** -/
theorem Equivalent.classOf_refine (hd : d.WellFormed) (limit : Nat)
    (hp : ∀ i j, i < d.size → j < d.size → d.Equivalent i j → p.classOf i = p.classOf j) :
    ∀ i j, i < d.size → j < d.size → d.Equivalent i j →
      (d.refine limit p).partition.classOf i = (d.refine limit p).partition.classOf j := by
  induction limit generalizing p with
  | zero => exact hp
  | succ limit ih =>
    have hsplit : ∀ i j, i < d.size → j < d.size → d.Equivalent i j →
        (d.split p).classOf i = (d.split p).classOf j := fun i j hi hj h => by
      refine (classOf_split hd hi hj).2 ⟨hp i j hi hj h, fun c => ?_⟩
      rcases h.next c with ⟨k, l, hk, hl, hkl⟩ | ⟨hk, hl⟩
      · rw [hk, hl, Option.map_some, Option.map_some, hp k l (hd.next_lt hk) (hd.next_lt hl) hkl]
      · rw [hk, hl]
    unfold refine
    by_cases hcount : (d.split p).count = p.count
    · rw [if_pos hcount]
      exact hsplit
    · rw [if_neg hcount]
      exact ih hsplit

/-- States of one class of a stable partition are told apart by no word. -/
theorem Stable.equivalent (hd : d.WellFormed) (hp : d.Classes p) (h : d.Stable p) (hi : i < d.size) (hj : j < d.size)
    (heq : p.classOf i = p.classOf j) : d.Equivalent i j := fun w => by
  induction w generalizing i j with
  | nil => exact congrArg some (hp.accepting_eq i j hi hj heq)
  | cons c w ih =>
    have hc := h i j hi hj heq c
    rw [run?_cons, run?_cons]
    cases hk : (d.state i).next? c with
    | none =>
      rw [hk] at hc
      rw [Option.map_eq_none_iff.1 hc.symm]
    | some k =>
      rw [hk, Option.map_some] at hc
      obtain ⟨l, hl, hlk⟩ := Option.map_eq_some_iff.1 hc.symm
      rw [hl]
      exact ih (hd.next_lt hk) (hd.next_lt hl) hlk.symm

theorem refinement_spec (hd : d.WellFormed) :
    d.Classes d.refinement.partition ∧ d.Stable d.refinement.partition := by
  have hp := classes_initialPartition d
  refine stable_refine hd d.size hp ?_
  have := hp.proper.classOf_lt 0 (hp.size_eq ▸ hd.size_pos)
  omega

/-- **In the end states are in one class exactly when no word tells them apart.** -/
theorem classOf_refinement (hd : d.WellFormed) (hi : i < d.size) (hj : j < d.size) :
    d.refinement.partition.classOf i = d.refinement.partition.classOf j ↔ d.Equivalent i j := by
  obtain ⟨hclasses, hstable⟩ := refinement_spec hd
  constructor
  · exact hstable.equivalent hd hclasses hi hj
  · refine Equivalent.classOf_refine hd d.size (fun i j hi hj h => ?_) i j hi hj
    exact (classOf_initialPartition hi hj).2 (Option.some.inj (h []))

end Dfa
end PatternAutomata
