import Mathlib.Data.Finset.Card
import PatternAutomata.Partition
/-!
# Partition — counting classes

Every class has a leader, and the leader is one of its members (`Proper`).  So a partition that splits the classes of
another has at least as many, and if it has no more then it has split none (`Refines.symm_of_count_le`): a loop that
splits classes may stop as soon as their number stays the same.
-/
namespace PatternAutomata
namespace Partition

/-- Classes are numbered without gaps, each by a leader out of its members. -/
structure Proper (p : Partition) : Prop where
  classOf_lt : ∀ i < p.classes.size, p.classOf i < p.count
  leader_lt : ∀ c < p.count, p.leader c < p.classes.size
  classOf_leader : ∀ c < p.count, p.classOf (p.leader c) = c

/-- Things that are in one class of `q` are in one class of `p`. -/
def Refines (q p : Partition) : Prop :=
  ∀ i j, i < p.classes.size → j < p.classes.size → q.classOf i = q.classOf j → p.classOf i = p.classOf j

variable {p q : Partition} {c i : Nat}

/-! ## Putting a thing into its class -/

theorem classOf_add_self : (p.add c).classOf p.classes.size = c := by
  simp [add, classOf]

theorem classOf_add_of_lt (hi : i < p.classes.size) : (p.add c).classOf i = p.classOf i := by
  simp [add, classOf, Array.getElem_push_lt, hi, Nat.lt_succ_of_lt hi]

theorem count_add_of_new (h : c = p.count) : (p.add c).count = p.count + 1 := by
  have h : c = p.leaders.size := h
  simp [count, add, if_pos h]

theorem count_add_of_lt (h : c < p.count) : (p.add c).count = p.count := by
  have h : c ≠ p.leaders.size := Nat.ne_of_lt h
  simp [count, add, if_neg h]

theorem leader_add_self (h : c = p.count) : (p.add c).leader c = p.classes.size := by
  subst h
  simp [add, leader, count]

theorem leader_add_of_lt {b : Nat} (hb : b < p.count) : (p.add c).leader b = p.leader b := by
  have hb : b < p.leaders.size := hb
  by_cases h : c = p.leaders.size
  · simp [add, leader, if_pos h, Array.getElem_push_lt, hb, Nat.lt_succ_of_lt hb]
  · rw [leader, leader, add, if_neg h]

theorem Proper.add (h : p.Proper) (hc : c ≤ p.count) : (p.add c).Proper := by
  have hsize : (p.add c).classes.size = p.classes.size + 1 := Array.size_push _
  -- a class after the step is one from before it, or the class of the new thing, which leads it
  have hold {b : Nat} (hb : b < p.count) :
      (p.add c).leader b < p.classes.size + 1 ∧ (p.add c).classOf ((p.add c).leader b) = b := by
    have hlt := h.leader_lt b hb
    rw [leader_add_of_lt hb, classOf_add_of_lt hlt]
    exact ⟨Nat.lt_succ_of_lt hlt, h.classOf_leader b hb⟩
  have hcount : p.count ≤ (p.add c).count ∧ c < (p.add c).count ∧
      ∀ b < (p.add c).count, b < p.count ∨ b = p.count ∧ c = b := by
    rcases Nat.lt_or_eq_of_le hc with hlt | heq
    · rw [count_add_of_lt hlt]
      exact ⟨Nat.le_refl _, hlt, fun b hb => .inl hb⟩
    · rw [count_add_of_new heq]
      exact ⟨Nat.le_succ _, by omega, fun b hb => by omega⟩
  have hleader (b : Nat) (hb : b < (p.add c).count) :
      (p.add c).leader b < p.classes.size + 1 ∧ (p.add c).classOf ((p.add c).leader b) = b := by
    rcases hcount.2.2 b hb with hb | ⟨heq, rfl⟩
    · exact hold hb
    · rw [leader_add_self heq, classOf_add_self]
      exact ⟨Nat.lt_succ_self _, rfl⟩
  refine ⟨fun i hi => ?_, fun b hb => hsize ▸ (hleader b hb).1, fun b hb => (hleader b hb).2⟩
  rcases Nat.lt_or_eq_of_le (Nat.lt_succ_iff.1 (hsize ▸ hi)) with hi | rfl
  · rw [classOf_add_of_lt hi]
    exact Nat.lt_of_lt_of_le (h.classOf_lt i hi) hcount.1
  · rw [classOf_add_self]
    exact hcount.2.1

/-! ## Counting -/

theorem Proper.count_le (h : p.Proper) : p.count ≤ p.classes.size := by
  have hmaps : Set.MapsTo p.leader (Finset.range p.count) (Finset.range p.classes.size) := fun c hc =>
    Finset.mem_coe.2 (Finset.mem_range.2 (h.leader_lt c (Finset.mem_range.1 (Finset.mem_coe.1 hc))))
  have hinj : Set.InjOn p.leader (Finset.range p.count) := fun a ha b hb heq => by
    have ha := h.classOf_leader a (Finset.mem_range.1 (Finset.mem_coe.1 ha))
    rw [← ha, heq, h.classOf_leader b (Finset.mem_range.1 (Finset.mem_coe.1 hb))]
  have := Finset.card_le_card_of_injOn p.leader hmaps hinj
  rwa [Finset.card_range, Finset.card_range] at this

theorem Proper.leader_classOf (h : p.Proper) (hi : i < p.classes.size) :
    p.leader (p.classOf i) < p.classes.size ∧ p.classOf (p.leader (p.classOf i)) = p.classOf i :=
  ⟨h.leader_lt _ (h.classOf_lt i hi), h.classOf_leader _ (h.classOf_lt i hi)⟩

/-- Every class of `p` holds a class of `q`: that of its leader. -/
theorem Refines.surjOn (h : q.Refines p) (hp : p.Proper) (hq : q.Proper) (hsize : q.classes.size = p.classes.size) :
    Set.SurjOn (fun c => p.classOf (q.leader c)) (Finset.range q.count) (Finset.range p.count) := fun c hc => by
  have hc := Finset.mem_range.1 (Finset.mem_coe.1 hc)
  have hl : p.leader c < q.classes.size := hsize ▸ hp.leader_lt c hc
  obtain ⟨hlt, heq⟩ := hq.leader_classOf hl
  refine ⟨q.classOf (p.leader c), Finset.mem_coe.2 (Finset.mem_range.2 (hq.classOf_lt _ hl)), ?_⟩
  exact (h _ _ (hsize ▸ hlt) (hsize ▸ hl) heq).trans (hp.classOf_leader c hc)

theorem Refines.count_le (h : q.Refines p) (hp : p.Proper) (hq : q.Proper)
    (hsize : q.classes.size = p.classes.size) : p.count ≤ q.count := by
  have := Finset.card_le_card_of_surjOn _ (h.surjOn hp hq hsize)
  rwa [Finset.card_range, Finset.card_range] at this

/-- **A partition that splits classes and has no more of them has split none.** -/
theorem Refines.symm_of_count_le (h : q.Refines p) (hp : p.Proper) (hq : q.Proper)
    (hsize : q.classes.size = p.classes.size) (hcount : q.count ≤ p.count) : p.Refines q := fun i j hi hj heq => by
  have hinj := Finset.injOn_of_surjOn_of_card_le (fun c => p.classOf (q.leader c)) (s := Finset.range q.count)
    (t := Finset.range p.count)
    (fun c hc => by
      have hlt := hq.leader_lt c (Finset.mem_range.1 (Finset.mem_coe.1 hc))
      exact Finset.mem_coe.2 (Finset.mem_range.2 (hp.classOf_lt _ (hsize ▸ hlt))))
    (h.surjOn hp hq hsize) (by rwa [Finset.card_range, Finset.card_range])
  have hval {k : Nat} (hk : k < q.classes.size) : p.classOf (q.leader (q.classOf k)) = p.classOf k := by
    obtain ⟨hlt, heq⟩ := hq.leader_classOf hk
    exact h _ _ (hsize ▸ hlt) (hsize ▸ hk) heq
  refine hinj (Finset.mem_coe.2 (Finset.mem_range.2 (hq.classOf_lt i hi)))
    (Finset.mem_coe.2 (Finset.mem_range.2 (hq.classOf_lt j hj))) ?_
  exact (hval hi).trans (heq.trans (hval hj).symm)

/-! ## The partition by keys -/

open Std (TransOrd LawfulEqOrd)

variable {κ : Type} [Ord κ] [TransOrd κ] [LawfulEqOrd κ]

theorem proper_addKeys (n : Numbering κ) (ks : List κ) (hp : p.Proper) (hn : n.keys.size = p.count) :
    (addKeys n p ks).Proper ∧ (addKeys n p ks).classes.size = p.classes.size + ks.length := by
  induction ks generalizing n p with
  | nil => exact ⟨hp, rfl⟩
  | cons k ks ih =>
    have hstep : (n.number k).1 ≤ p.count ∧ (n.number k).2.keys.size = (p.add (n.number k).1).count := by
      by_cases h : k ∈ n.keys
      · obtain ⟨i, hi⟩ := Array.getElem?_of_mem h
        have hlt : i < p.count := hn ▸ (Array.getElem?_eq_some_iff.1 hi).1
        rw [Numbering.number_of_met hi, count_add_of_lt hlt]
        exact ⟨Nat.le_of_lt hlt, hn⟩
      · obtain ⟨h₁, h₂⟩ := Numbering.number_of_new h
        rw [h₁, h₂, hn, count_add_of_new rfl, Array.size_push, hn]
        exact ⟨Nat.le_refl _, rfl⟩
    obtain ⟨hproper, hsize⟩ := ih _ (hp.add hstep.1) hstep.2
    refine ⟨hproper, ?_⟩
    rw [addKeys, hsize, add, Array.size_push, List.length_cons]
    omega

theorem proper_empty : Proper ⟨#[], #[]⟩ :=
  ⟨fun _ h => absurd h (Nat.not_lt_zero _), fun _ h => absurd h (Nat.not_lt_zero _),
    fun _ h => absurd h (Nat.not_lt_zero _)⟩

theorem proper_ofKeys (keys : List κ) : (ofKeys keys).Proper :=
  (proper_addKeys Numbering.empty keys proper_empty rfl).1

@[simp] theorem size_ofKeys (keys : List κ) : (ofKeys keys).classes.size = keys.length :=
  (proper_addKeys Numbering.empty keys proper_empty rfl).2.trans (Nat.zero_add _)

end Partition
end PatternAutomata
