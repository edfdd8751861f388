import PatternAutomata.Pattern
/-!
# Balanced — joining many patterns into a shallow tree

Sequences and alternations take two patterns; a list of them is joined by halves, so that the tree is only
logarithmically tall.
-/
namespace PatternAutomata
namespace Pattern

/-- Joins the patterns in order, the first half with the second; no pattern comes of none. -/
def balanced (join : Pattern → Pattern → Pattern) (ps : List Pattern) : Option Pattern :=
  if ps.length ≤ 1 then ps.head?
  else
    match balanced join (ps.take (ps.length / 2)), balanced join (ps.drop (ps.length / 2)) with
    | some first, some second => some (join first second)
    | _, _ => none
termination_by ps.length
decreasing_by
  · rw [List.length_take]; omega
  · rw [List.length_drop]; omega

@[simp] theorem balanced_nil (join : Pattern → Pattern → Pattern) : balanced join [] = none := by
  rw [balanced]
  rfl

theorem balanced_isSome (join : Pattern → Pattern → Pattern) {ps : List Pattern} (h : ps ≠ []) :
    (balanced join ps).isSome := by
  fun_induction balanced join ps with
  | case1 ps _ => cases ps with
    | nil => exact absurd rfl h
    | cons p ps => rfl
  | case2 => rfl
  | case3 ps hlen hnone ih₁ ih₂ =>
    have h₁ := ih₁ (List.ne_nil_of_length_pos (by rw [List.length_take]; omega))
    have h₂ := ih₂ (List.ne_nil_of_length_pos (by rw [List.length_drop]; omega))
    obtain ⟨a, ha⟩ := Option.isSome_iff_exists.1 h₁
    obtain ⟨b, hb⟩ := Option.isSome_iff_exists.1 h₂
    exact (hnone a b ha hb).elim

end Pattern
end PatternAutomata
