/-!
# Ascending — finite sets as ascending lists

A list in strictly ascending order is a set written in the one way it can be: two such lists with the same members are
equal (`Ascending.ext`).  `ascending xs` is the set of the members of `xs`.
-/
namespace PatternAutomata

open Std (TransOrd LawfulEqOrd)

variable {α : Type} [Ord α]

/-- Every member comes before all that follow it, so none is repeated. -/
def Ascending (xs : List α) : Prop := xs.Pairwise fun a b => compare a b = .lt

instance (xs : List α) : Decidable (Ascending xs) := by unfold Ascending; infer_instance

/-- `x` put into its place, unless it is there already. -/
def insertAscending (x : α) : List α → List α
  | [] => [x]
  | y :: ys =>
    match compare x y with
    | .lt => x :: y :: ys
    | .eq => y :: ys
    | .gt => y :: insertAscending x ys

/-- The members of `xs` in ascending order, each once. -/
def ascending (xs : List α) : List α := xs.foldr insertAscending []

theorem length_insertAscending_le (x : α) : ∀ ys : List α, (insertAscending x ys).length ≤ ys.length + 1
  | [] => Nat.le_refl 1
  | y :: ys => by
    unfold insertAscending
    split
    · exact Nat.le_refl _
    · exact Nat.le_succ _
    · exact Nat.succ_le_succ (length_insertAscending_le x ys)

theorem length_ascending_le (xs : List α) : (ascending xs).length ≤ xs.length := by
  induction xs with
  | nil => exact Nat.le_refl 0
  | cons x xs ih => exact Nat.le_trans (length_insertAscending_le x _) (Nat.succ_le_succ ih)

namespace Ascending

theorem nil : Ascending ([] : List α) := List.Pairwise.nil

theorem singleton (x : α) : Ascending [x] := List.pairwise_singleton _ x

variable [LawfulEqOrd α]

theorem mem_insertAscending {x z : α} : ∀ {ys : List α}, z ∈ insertAscending x ys ↔ z = x ∨ z ∈ ys
  | [] => by simp [insertAscending]
  | y :: ys => by
    unfold insertAscending
    split
    · exact List.mem_cons
    · rename_i h
      rw [Std.compare_eq_iff_eq.1 h, List.mem_cons]
      exact ⟨Or.inr, fun h => h.elim Or.inl id⟩
    · rw [List.mem_cons, mem_insertAscending, List.mem_cons]
      exact ⟨fun h => h.elim (Or.inr ∘ Or.inl) (·.imp_right Or.inr), fun h =>
        h.elim (Or.inr ∘ Or.inl) (·.imp_right Or.inr)⟩

@[simp] theorem mem_ascending {z : α} {xs : List α} : z ∈ ascending xs ↔ z ∈ xs := by
  induction xs with
  | nil => rfl
  | cons x xs ih => rw [ascending, List.foldr_cons, mem_insertAscending, List.mem_cons]; exact or_congr_right ih

theorem nodup {xs : List α} (h : Ascending xs) : xs.Nodup := h.imp fun hab heq => by simp [heq] at hab

variable [TransOrd α]

theorem insert {x : α} : ∀ {ys : List α}, Ascending ys → Ascending (insertAscending x ys)
  | [], _ => singleton x
  | y :: ys, h => by
    obtain ⟨hy, hys⟩ := List.pairwise_cons.1 h
    unfold insertAscending
    split
    · rename_i hlt
      exact List.pairwise_cons.2 ⟨fun z hz => (List.mem_cons.1 hz).elim (fun e => e ▸ hlt)
        (fun hz => Std.TransCmp.lt_trans hlt (hy z hz)), h⟩
    · exact h
    · rename_i hgt
      refine List.pairwise_cons.2 ⟨fun z hz => ?_, insert hys⟩
      rcases mem_insertAscending.1 hz with rfl | hz
      · exact Std.OrientedCmp.gt_iff_lt.1 hgt
      · exact hy z hz

theorem ascending (xs : List α) : Ascending (ascending xs) := by
  induction xs with
  | nil => exact nil
  | cons x xs ih => exact insert ih

theorem not_lt_of_mem {x : α} {xs : List α} (h : Ascending (x :: xs)) {y : α} (hy : y ∈ x :: xs) :
    compare y x ≠ .lt := by
  rcases List.mem_cons.1 hy with rfl | hy
  · simp
  · exact fun hlt => by
      have := Std.TransCmp.lt_trans hlt ((List.pairwise_cons.1 h).1 y hy)
      simp at this

/-- **A set has one ascending list.** -/
theorem ext : ∀ {xs ys : List α}, Ascending xs → Ascending ys → (∀ z, z ∈ xs ↔ z ∈ ys) → xs = ys
  | [], [], _, _, _ => rfl
  | [], y :: ys, _, _, h => absurd ((h y).2 List.mem_cons_self) (List.not_mem_nil)
  | x :: xs, [], _, _, h => absurd ((h x).1 List.mem_cons_self) (List.not_mem_nil)
  | x :: xs, y :: ys, hx, hy, h => by
    have hxy : x = y := by
      have h₁ := not_lt_of_mem hy ((h x).1 List.mem_cons_self)
      have h₂ := not_lt_of_mem hx ((h y).2 List.mem_cons_self)
      cases hc : compare x y with
      | lt => exact absurd hc h₁
      | eq => exact Std.compare_eq_iff_eq.1 hc
      | gt => exact absurd (Std.OrientedCmp.gt_iff_lt.1 hc) h₂
    subst hxy
    obtain ⟨ax, hx⟩ := List.pairwise_cons.1 hx
    obtain ⟨ay, hy⟩ := List.pairwise_cons.1 hy
    have irrefl (z : α) : compare z z ≠ .lt := by simp
    refine congrArg _ (ext hx hy fun z => ⟨fun hz => ?_, fun hz => ?_⟩)
    · exact ((List.mem_cons.1 ((h z).1 (List.mem_cons_of_mem _ hz))).resolve_left
        fun e => irrefl x (e ▸ ax z hz))
    · exact ((List.mem_cons.1 ((h z).2 (List.mem_cons_of_mem _ hz))).resolve_left
        fun e => irrefl x (e ▸ ay z hz))

/-! ## Neighbours in an ascending list of numbers -/

/-- Between two neighbours in an ascending list there is no member. -/
theorem le_or_ge_of_mem_zip_tail : ∀ {xs : List Nat} {a b : Nat}, Ascending xs → (a, b) ∈ xs.zip xs.tail →
    a < b ∧ a ∈ xs ∧ b ∈ xs ∧ ∀ x ∈ xs, x ≤ a ∨ b ≤ x
  | [], _, _, _, h => nomatch h
  | [_], _, _, _, h => nomatch h
  | y :: z :: rest, a, b, hxs, h => by
    obtain ⟨hy, hrest⟩ := List.pairwise_cons.1 hxs
    have hy (x : Nat) (hx : x ∈ z :: rest) : y < x := Nat.compare_eq_lt.1 (hy x hx)
    rcases List.mem_cons.1 h with h | h
    · cases h
      refine ⟨hy _ List.mem_cons_self, List.mem_cons_self, List.mem_cons_of_mem _ List.mem_cons_self, fun x hx => ?_⟩
      rcases List.mem_cons.1 hx with rfl | hx
      · exact .inl (Nat.le_refl x)
      · rcases List.mem_cons.1 hx with rfl | hx
        · exact .inr (Nat.le_refl x)
        · exact .inr (Nat.le_of_lt (Nat.compare_eq_lt.1 ((List.pairwise_cons.1 hrest).1 x hx)))
    · obtain ⟨hab, ha, hb, hx⟩ := le_or_ge_of_mem_zip_tail hrest h
      refine ⟨hab, List.mem_cons_of_mem _ ha, List.mem_cons_of_mem _ hb, fun x hx' => ?_⟩
      rcases List.mem_cons.1 hx' with rfl | hx'
      · exact .inl (Nat.le_of_lt (hy a ha))
      · exact hx x hx'

/-- A number between two members of an ascending list lies between two neighbours. -/
theorem exists_mem_zip_tail {n : Nat} : ∀ {xs : List Nat} {x y : Nat}, Ascending xs → x ∈ xs → y ∈ xs → x ≤ n →
    n < y → ∃ a b, (a, b) ∈ xs.zip xs.tail ∧ a ≤ n ∧ n < b
  | [], _, _, _, h, _, _, _ => nomatch h
  | [w], x, y, _, hx, hy, hxn, hny => by
    rw [List.mem_singleton] at hx hy
    omega
  | w :: z :: rest, x, y, hxs, hx, hy, hxn, hny => by
    obtain ⟨hw, hrest⟩ := List.pairwise_cons.1 hxs
    have hw (v : Nat) (hv : v ∈ z :: rest) : w < v := Nat.compare_eq_lt.1 (hw v hv)
    have hwn : w ≤ n := by
      rcases List.mem_cons.1 hx with rfl | hx
      · exact hxn
      · exact Nat.le_of_lt (Nat.lt_of_lt_of_le (hw x hx) hxn)
    have hy : y ∈ z :: rest := (List.mem_cons.1 hy).resolve_left (by omega)
    by_cases hzn : n < z
    · exact ⟨w, z, List.mem_cons_self, hwn, hzn⟩
    · obtain ⟨a, b, hab, h⟩ := exists_mem_zip_tail hrest List.mem_cons_self hy (Nat.not_lt.1 hzn) hny
      exact ⟨a, b, List.mem_cons_of_mem _ hab, h⟩

/-- A neighbour pair ends before the next begins. -/
theorem pairwise_zip_tail : ∀ {xs : List Nat}, Ascending xs → (xs.zip xs.tail).Pairwise fun p q => p.2 ≤ q.1
  | [], _ => List.Pairwise.nil
  | [_], _ => List.Pairwise.nil
  | y :: z :: rest, hxs => by
    obtain ⟨-, hrest⟩ := List.pairwise_cons.1 hxs
    refine List.pairwise_cons.2 ⟨fun (a, b) hab => ?_, pairwise_zip_tail hrest⟩
    obtain ⟨-, ha, -⟩ := le_or_ge_of_mem_zip_tail hrest hab
    rcases List.mem_cons.1 ha with rfl | ha
    · exact Nat.le_refl a
    · exact Nat.le_of_lt (Nat.compare_eq_lt.1 ((List.pairwise_cons.1 hrest).1 a ha))

end Ascending

/-- Lists that ascend strictly by a measure are equal if they have the same members. -/
theorem eq_of_pairwise_lt {β : Type} (f : β → Nat) {xs ys : List β} (hxs : xs.Pairwise fun a b => f a < f b)
    (hys : ys.Pairwise fun a b => f a < f b) (h : ∀ x, x ∈ xs ↔ x ∈ ys) : xs = ys := by
  have hnodup {zs : List β} (hzs : zs.Pairwise fun a b => f a < f b) : zs.Nodup :=
    hzs.imp fun hab => ne_of_apply_ne f (Nat.ne_of_lt hab)
  exact ((List.perm_ext_iff_of_nodup (hnodup hxs) (hnodup hys)).2 h).eq_of_pairwise
    (fun _ _ _ _ hab hba => absurd (Nat.lt_trans hab hba) (Nat.lt_irrefl _)) hxs hys

end PatternAutomata
