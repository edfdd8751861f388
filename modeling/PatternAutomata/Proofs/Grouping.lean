import Mathlib.Data.Nat.Log
import PatternAutomata.Pattern.Balanced
/-!
# Grouping — lists joined two by two

A list can be joined by an operation on two things in as many ways as there are trees over it.  What the operation keeps
holds of the result (`Grouping.join_induction`), and what turns it into another operation may be done at the leaves
(`Grouping.map_join`).  Joining by halves is one of the ways, and one in which no leaf lies deep
(`Grouping.exists_shallow_of_balanced`).
-/
namespace PatternAutomata

/-- A list in the order of its leaves, grouped by twos. -/
inductive Grouping (α : Type) where
  | one (a : α)
  | pair (left right : Grouping α)

namespace Grouping

variable {α β : Type} {op : α → α → α}

def leaves : Grouping α → List α
  | one a => [a]
  | pair left right => left.leaves ++ right.leaves

def join (op : α → α → α) : Grouping α → α
  | one a => a
  | pair left right => op (left.join op) (right.join op)

/-- How many joins lie above the deepest leaf. -/
def depth : Grouping α → Nat
  | one _ => 0
  | pair left right => 1 + max left.depth right.depth

def map (f : α → β) : Grouping α → Grouping β
  | one a => one (f a)
  | pair left right => pair (left.map f) (right.map f)

theorem leaves_ne_nil : ∀ g : Grouping α, g.leaves ≠ []
  | one _ => List.cons_ne_nil _ _
  | pair left right => List.append_ne_nil_of_left_ne_nil left.leaves_ne_nil right.leaves

theorem join_induction {P : α → Prop} {g : Grouping α} (hop : ∀ a b, P a → P b → P (op a b))
    (hleaves : ∀ a ∈ g.leaves, P a) : P (g.join op) := by
  induction g with
  | one a => exact hleaves a List.mem_cons_self
  | pair left right ihl ihr =>
    exact hop _ _ (ihl fun a ha => hleaves a (List.mem_append_left _ ha))
      (ihr fun a ha => hleaves a (List.mem_append_right _ ha))

theorem leaves_map (f : α → β) (g : Grouping α) : (g.map f).leaves = g.leaves.map f := by
  induction g with
  | one a => rfl
  | pair left right ihl ihr => rw [map, leaves, ihl, ihr, leaves, List.map_append]

theorem map_join {f : α → β} {op' : β → β → β} (hf : ∀ a b, f (op a b) = op' (f a) (f b)) (g : Grouping α) :
    f (g.join op) = (g.map f).join op' := by
  induction g with
  | one a => rfl
  | pair left right ihl ihr => rw [join, hf, ihl, ihr]; rfl

/-- What grows by at most one with each join grows by at most the depth. -/
theorem join_le {f : α → Nat} {bound : Nat} {g : Grouping α} (hop : ∀ a b, f (op a b) ≤ 1 + max (f a) (f b))
    (hleaves : ∀ a ∈ g.leaves, f a ≤ bound) : f (g.join op) ≤ bound + g.depth := by
  induction g with
  | one a => exact hleaves a List.mem_cons_self
  | pair left right ihl ihr =>
    have hl := ihl fun a ha => hleaves a (List.mem_append_left _ ha)
    have hr := ihr fun a ha => hleaves a (List.mem_append_right _ ha)
    have hjoin := hop (left.join op) (right.join op)
    rw [join, depth]
    omega

/-- The larger half has a logarithm less by one. -/
theorem one_add_clog_halves_le {n : Nat} (hn : 2 ≤ n) :
    1 + max (Nat.clog 2 (n / 2)) (Nat.clog 2 (n - n / 2)) ≤ Nat.clog 2 n := by
  have hlarger : Nat.clog 2 n = Nat.clog 2 ((n + 2 - 1) / 2) + 1 := Nat.clog_of_two_le (by decide) hn
  have hfirst : Nat.clog 2 (n / 2) ≤ Nat.clog 2 ((n + 2 - 1) / 2) := Nat.clog_mono_right 2 (by omega)
  have hsecond : Nat.clog 2 (n - n / 2) ≤ Nat.clog 2 ((n + 2 - 1) / 2) := Nat.clog_mono_right 2 (by omega)
  omega

/-- **Joining by halves keeps the order, and its depth is logarithmic.** -/
theorem exists_shallow_of_balanced {join' : Pattern → Pattern → Pattern} {ps : List Pattern} {p : Pattern}
    (hp : Pattern.balanced join' ps = some p) :
    ∃ g : Grouping Pattern, g.leaves = ps ∧ g.join join' = p ∧ g.depth ≤ Nat.clog 2 ps.length := by
  fun_induction Pattern.balanced join' ps generalizing p with
  | case1 ps hlen =>
    cases ps with
    | nil => cases hp
    | cons q ps =>
      cases hp
      rw [List.eq_nil_of_length_eq_zero (Nat.le_zero.1 (Nat.le_of_succ_le_succ hlen))]
      exact ⟨one p, rfl, rfl, Nat.zero_le _⟩
  | case2 ps hlen first second hsecond hfirst ih₁ ih₂ =>
    cases hp
    obtain ⟨g, hg, rfl, hgdepth⟩ := ih₁ hfirst
    obtain ⟨h, hh, rfl, hhdepth⟩ := ih₂ hsecond
    refine ⟨pair g h, by rw [leaves, hg, hh, List.take_append_drop], rfl, ?_⟩
    have hhalves := one_add_clog_halves_le (n := ps.length) (by omega)
    rw [List.length_take, Nat.min_eq_left (Nat.div_le_self _ _)] at hgdepth
    rw [List.length_drop] at hhdepth
    rw [depth]
    omega
  | case3 => cases hp

theorem exists_of_balanced {join' : Pattern → Pattern → Pattern} {ps : List Pattern} {p : Pattern}
    (hp : Pattern.balanced join' ps = some p) : ∃ g : Grouping Pattern, g.leaves = ps ∧ g.join join' = p := by
  obtain ⟨g, hleaves, hjoin, -⟩ := exists_shallow_of_balanced hp
  exact ⟨g, hleaves, hjoin⟩

end Grouping
end PatternAutomata
