import Mathlib.Data.Prod.Lex
import Mathlib.Order.WithBot
import PatternAutomata.Proofs.Alternatives
/-!
# Preference — the set that serves a search best

Candidates are compared by their standing: a missing set is below the empty one, which is below all others, and these
are compared by their merit.  `best` keeps its right candidate unless the left one stands higher (`best_eq_ite`).  So of
a row of candidates, however they are grouped, it keeps the last one that no other stands above (`join_best_eq_iff`);
there is only one such candidate, hence grouping makes no difference.
-/
namespace PatternAutomata

/-! ## The last of the greatest -/

section

variable {α β : Type} [LinearOrder β] {value : α → β} {a b : α} {xs ys : List α}

/-- `a` stands at a place in the list where nothing before it has a greater value and all behind it have less. -/
def IsLastGreatest (value : α → β) (xs : List α) (a : α) : Prop :=
  ∃ before behind, xs = before ++ a :: behind ∧ (∀ x ∈ before, value x ≤ value a) ∧ ∀ x ∈ behind, value x < value a

theorem isLastGreatest_singleton (value : α → β) (a : α) : IsLastGreatest value [a] a :=
  ⟨[], [], rfl, by simp, by simp⟩

theorem IsLastGreatest.le (h : IsLastGreatest value xs a) {x : α} (hx : x ∈ xs) : value x ≤ value a := by
  obtain ⟨before, behind, rfl, hbefore, hbehind⟩ := h
  rcases List.mem_append.1 hx with hx | hx
  · exact hbefore x hx
  · rcases List.mem_cons.1 hx with rfl | hx
    · exact le_refl _
    · exact le_of_lt (hbehind x hx)

theorem IsLastGreatest.append_left (hb : IsLastGreatest value ys b) (h : ∀ x ∈ xs, value x ≤ value b) :
    IsLastGreatest value (xs ++ ys) b := by
  obtain ⟨before, behind, rfl, hbefore, hbehind⟩ := hb
  refine ⟨xs ++ before, behind, (List.append_assoc ..).symm, fun x hx => ?_, hbehind⟩
  rcases List.mem_append.1 hx with hx | hx
  · exact h x hx
  · exact hbefore x hx

theorem IsLastGreatest.append_right (ha : IsLastGreatest value xs a) (h : ∀ x ∈ ys, value x < value a) :
    IsLastGreatest value (xs ++ ys) a := by
  obtain ⟨before, behind, rfl, hbefore, hbehind⟩ := ha
  refine ⟨before, behind ++ ys, by rw [List.append_assoc, List.cons_append], hbefore, fun x hx => ?_⟩
  rcases List.mem_append.1 hx with hx | hx
  · exact hbehind x hx
  · exact h x hx

theorem IsLastGreatest.unique (ha : IsLastGreatest value xs a) (hb : IsLastGreatest value xs b) : a = b := by
  -- if `c` stood before `d`, then `d` would be less than `c` and `c` no greater than `d`
  have first {c d : α} {u v w between : List α} (hc : ∀ x ∈ v, value x < value c)
      (hd : ∀ x ∈ w ++ between, value x ≤ value d) (h : c :: v = between ++ d :: u) : c = d := by
    cases between with
    | nil => exact (List.cons.inj h).1
    | cons e between =>
      obtain ⟨rfl, rfl⟩ := List.cons.inj h
      exact absurd (hc d (by simp)) (not_lt_of_ge (hd c (by simp)))
  obtain ⟨before, behind, rfl, hbefore, hbehind⟩ := ha
  obtain ⟨before', behind', heq, hbefore', hbehind'⟩ := hb
  rcases List.append_eq_append_iff.1 heq with ⟨between, rfl, h⟩ | ⟨between, rfl, h⟩
  · exact first hbehind hbefore' h
  · exact (first hbehind' hbefore h).symm

end

namespace WordSet

variable {s t : WordSet} {u v w : Word}

/-! ## The sizes of a set -/

theorem shortest_eq_iff (hs : s.words ≠ []) {n : Nat} :
    s.shortest = n ↔ (∃ w ∈ s, w.length = n) ∧ ∀ w ∈ s, n ≤ w.length := by
  have hmin (m : Nat) : (s.words.map List.length).min? = some m ↔
      (∃ w ∈ s, w.length = m) ∧ ∀ w ∈ s, m ≤ w.length := by
    rw [List.min?_eq_some_iff]
    simp [mem_def]
  rw [← hmin, shortest]
  cases h : (s.words.map List.length).min? with
  | none => exact absurd (List.map_eq_nil_iff.1 (List.min?_eq_none_iff.1 h)) hs
  | some m => simp

theorem exists_shortest (hs : s.words ≠ []) : ∃ w ∈ s, w.length = s.shortest := ((shortest_eq_iff hs).1 rfl).1

theorem shortest_le (hw : w ∈ s) : s.shortest ≤ w.length :=
  ((shortest_eq_iff (List.ne_nil_of_mem hw)).1 rfl).2 w hw

/-- A set with a further word is larger. -/
theorem size_lt_of_subset (h : ∀ w ∈ s, w ∈ t) (hw : w ∈ t) (hnew : w ∉ s) : s.size < t.size :=
  (List.nodup_cons.2 ⟨hnew, s.ascending.nodup⟩).length_le_of_subset (List.cons_subset.2 ⟨hw, h⟩)

/-- How well a set with words serves: by a longer shortest word, then by fewer words, then by more characters in all. -/
abbrev Merit : Type := Nat ×ₗ Natᵒᵈ ×ₗ Nat

def merit (s : WordSet) : Merit := toLex (s.shortest, toLex (OrderDual.toDual s.size, s.total))

theorem merit_lt_iff : s.merit < t.merit ↔ s.shortest < t.shortest ∨
    s.shortest = t.shortest ∧ (t.size < s.size ∨ t.size = s.size ∧ s.total < t.total) := by
  rw [merit, merit, Prod.Lex.toLex_lt_toLex, Prod.Lex.toLex_lt_toLex]
  simp only [OrderDual.toDual_lt_toDual, OrderDual.toDual_inj, eq_comm]

end WordSet

namespace Facts

open WordSet (Merit merit)

variable {a b c : Option WordSet} {s t : WordSet} {v w : Word}

/-! ## The standing of a candidate -/

/-- A missing set stands below the empty one, and that below all others, which stand as their merits say. -/
def standing : Option WordSet → WithBot (WithBot Merit)
  | none => ⊥
  | some s => WithBot.some (if s.words = [] then ⊥ else WithBot.some s.merit)

theorem standing_none_lt (s : WordSet) : standing none < standing (some s) := WithBot.bot_lt_coe _

theorem standing_empty (hs : s.words = []) : standing (some s) = WithBot.some ⊥ := congrArg WithBot.some (if_pos hs)

theorem standing_some (hs : s.words ≠ []) : standing (some s) = WithBot.some (WithBot.some s.merit) :=
  congrArg WithBot.some (if_neg hs)

theorem standing_empty_lt (hs : s.words = []) (ht : t.words ≠ []) : standing (some s) < standing (some t) := by
  rw [standing_empty hs, standing_some ht]
  exact WithBot.coe_lt_coe.2 (WithBot.bot_lt_coe _)

theorem standing_some_lt (hs : s.words ≠ []) (ht : t.words ≠ []) :
    standing (some s) < standing (some t) ↔ s.merit < t.merit := by
  rw [standing_some hs, standing_some ht]
  exact WithBot.coe_lt_coe.trans WithBot.coe_lt_coe

theorem isBetter_iff : isBetter s t = true ↔ t.merit < s.merit := by
  rw [WordSet.merit_lt_iff, isBetter]
  simp

/-- **The left candidate is chosen exactly if it stands higher.** -/
theorem choose_eq_left_iff : choose a b = .left ↔ standing b < standing a := by
  rcases a with _ | s
  · exact ⟨fun h => (nomatch h), fun h => absurd h not_lt_bot⟩
  rcases b with _ | t
  · exact ⟨fun _ => standing_none_lt s, fun _ => rfl⟩
  rw [choose, WordSet.isEmpty, WordSet.isEmpty]
  by_cases hs : s.words = []
  · have hle : standing (some s) ≤ standing (some t) := by
      rw [standing_empty hs]
      exact WithBot.coe_le_coe.2 bot_le
    simp [hs, hle]
  by_cases ht : t.words = []
  · simp [hs, ht, standing_empty_lt ht hs]
  rw [standing_some_lt ht hs, ← isBetter_iff]
  simp [hs, ht]

theorem best_eq_ite (a b : Option WordSet) : best a b = if standing b < standing a then a else b := by
  rw [best]
  cases h : choose a b with
  | left => rw [if_pos (choose_eq_left_iff.1 h)]
  | right => rw [if_neg fun hlt => by simp [choose_eq_left_iff.2 hlt] at h]

/-- By the numbers alone the empty set would come before that of the empty word, which has more words. -/
example : isBetter (.ofList []) .emptyWord = true ∧ best (some (.ofList [])) (some .emptyWord) = some .emptyWord := by
  decide

theorem best_eq_left (h : standing b < standing a) : best a b = a := by
  rw [best_eq_ite, if_pos h]

theorem best_eq_right (h : standing a ≤ standing b) : best a b = b := by
  rw [best_eq_ite, if_neg (not_lt_of_ge h)]

/-- A candidate that stands higher is preferred on either side. -/
theorem best_of_lt (h : standing a < standing b) : best a b = b ∧ best b a = b :=
  ⟨best_eq_right (le_of_lt h), best_eq_left h⟩

theorem isLastGreatest_best {as bs : List (Option WordSet)} (ha : IsLastGreatest standing as a)
    (hb : IsLastGreatest standing bs b) : IsLastGreatest standing (as ++ bs) (best a b) := by
  rcases lt_or_ge (standing b) (standing a) with h | h
  · rw [best_eq_left h]
    exact ha.append_right fun x hx => lt_of_le_of_lt (hb.le hx) h
  · rw [best_eq_right h]
    exact hb.append_left fun x hx => le_trans (ha.le hx) h

theorem isLastGreatest_join_best (g : Grouping (Option WordSet)) :
    IsLastGreatest standing g.leaves (g.join best) := by
  induction g with
  | one a => exact isLastGreatest_singleton standing a
  | pair left right ihl ihr => exact isLastGreatest_best ihl ihr

theorem join_best_eq_iff {g : Grouping (Option WordSet)} : g.join best = a ↔ IsLastGreatest standing g.leaves a :=
  ⟨fun h => h ▸ isLastGreatest_join_best g, (isLastGreatest_join_best g).unique⟩

theorem best_assoc (a b c : Option WordSet) : best (best a b) c = best a (best b c) :=
  (join_best_eq_iff (g := .pair (.pair (.one a) (.one b)) (.one c))).2
    (isLastGreatest_join_best (.pair (.one a) (.pair (.one b) (.one c))))

/-- Longer words serve better. -/
theorem standing_lt_product (hs : s.words ≠ []) (hv : v ≠ []) :
    standing (some s) < standing (some (s.product (.ofList [v]))) := by
  have hmem {x : Word} : x ∈ s.product (.ofList [v]) ↔ ∃ u ∈ s, u ++ v = x := by
    simp [WordSet.mem_product]
  obtain ⟨u, hu⟩ := List.exists_mem_of_ne_nil _ hs
  have hne : (s.product (.ofList [v])).words ≠ [] := List.ne_nil_of_mem (hmem.2 ⟨u, hu, rfl⟩)
  obtain ⟨x, hx, hlen⟩ := WordSet.exists_shortest hne
  obtain ⟨u, hu, rfl⟩ := hmem.1 hx
  refine (standing_some_lt hs hne).2 (WordSet.merit_lt_iff.2 (.inl ?_))
  calc s.shortest ≤ u.length := WordSet.shortest_le hu
    _ < (u ++ v).length := by
      rw [List.length_append]
      exact Nat.lt_add_of_pos_right (List.length_pos_iff.2 hv)
    _ = _ := hlen

/-- Fewer words serve better, if the shortest ones are as long. -/
theorem standing_union_lt (hs : s.words ≠ []) (hw : w ∉ s) (hlen : s.shortest ≤ w.length) :
    standing (some (s.union (.ofList [w]))) < standing (some s) := by
  have hmem {x : Word} : x ∈ s.union (.ofList [w]) ↔ x ∈ s ∨ x = w := by simp
  have hne : (s.union (.ofList [w])).words ≠ [] := List.ne_nil_of_mem (hmem.2 (.inr rfl))
  have hshortest : (s.union (.ofList [w])).shortest = s.shortest := by
    obtain ⟨u, hu, hshort⟩ := WordSet.exists_shortest hs
    refine (WordSet.shortest_eq_iff hne).2 ⟨⟨u, hmem.2 (.inl hu), hshort⟩, fun x hx => ?_⟩
    rcases hmem.1 hx with hx | rfl
    · exact WordSet.shortest_le hx
    · exact hlen
  have hsize : s.size < (s.union (.ofList [w])).size :=
    WordSet.size_lt_of_subset (fun x hx => hmem.2 (.inl hx)) (hmem.2 (.inr rfl)) hw
  exact (standing_some_lt hne hs).2 (WordSet.merit_lt_iff.2 (.inr ⟨hshortest, .inl hsize⟩))

/-- **The best of some candidates is the last of those that stand highest**, however they are grouped, so that `best` is
associative.  Words that are all made longer serve better, on either side, and so does a set without a further word
that is no shorter than its shortest one. -/
theorem best_of_any_grouping :
    (∀ (g : Grouping (Option WordSet)) (a : Option WordSet),
      g.join best = a ↔ IsLastGreatest standing g.leaves a) ∧
    (∀ a b c, best (best a b) c = best a (best b c)) ∧ (∀ a, best a a = a) ∧
    ∀ s : WordSet, s.words ≠ [] →
      (∀ v ≠ [], best (some s) (some (s.product (.ofList [v]))) = some (s.product (.ofList [v])) ∧
        best (some (s.product (.ofList [v]))) (some s) = some (s.product (.ofList [v]))) ∧
      ∀ w ∉ s, s.shortest ≤ w.length → best (some s) (some (s.union (.ofList [w]))) = some s ∧
        best (some (s.union (.ofList [w]))) (some s) = some s := by
  refine ⟨fun g a => join_best_eq_iff, best_assoc, fun a => best_eq_right (le_refl _), fun s hs => ⟨fun v hv => ?_,
    fun w hw hlen => ?_⟩⟩
  · exact best_of_lt (standing_lt_product hs hv)
  · exact (best_of_lt (standing_union_lt hs hw hlen)).symm

/-- Of two sets that stand equally high the last is kept, whatever stands around them; and `ab` and `c` serve worse than
`abx` and `cx`, but better than with `de` besides. -/
theorem best_of_any_grouping_tie :
    let row : Grouping (Option WordSet) :=
      .pair (.pair (.one (some (.ofList [['a', 'b']]))) (.one none))
        (.pair (.one (some (.ofList [['c', 'd']]))) (.one (some (.ofList []))))
    let s : WordSet := .ofList [['a', 'b'], ['c']]
    IsLastGreatest standing row.leaves (some (.ofList [['c', 'd']])) ∧
      (s.words ≠ [] ∧ ['x'] ≠ ([] : Word) ∧ ['d', 'e'] ∉ s ∧ s.shortest ≤ ['d', 'e'].length) ∧
      best (some (s.product (.ofList [['x']]))) (some s) = some (s.product (.ofList [['x']])) ∧
      best (some s) (some (s.union (.ofList [['d', 'e']]))) = some s := by
  intro row s
  have hs : s.words ≠ [] := by decide
  have hx : ['x'] ≠ ([] : Word) := List.cons_ne_nil _ _
  have hnew : ['d', 'e'] ∉ s := by simp [s]
  have hlen : s.shortest ≤ ['d', 'e'].length := by decide
  obtain ⟨hlonger, hfewer⟩ := best_of_any_grouping.2.2.2 s hs
  exact ⟨(best_of_any_grouping.1 row _).1 (by decide), ⟨hs, hx, hnew, hlen⟩, (hlonger _ hx).2, (hfewer _ hnew hlen).1⟩

end Facts
end PatternAutomata
