import PatternAutomata.Proofs.Pattern.Grammar
/-!
# Spellable — patterns that can be written

No text stands for a sign in a word, for a class without members, or for an interval that begins with a hyphen or a
bracket or ends with a bracket.  A pattern is spellable if it asks for none of these; its reversal asks for no more, and
neither do the runs of a class for more than its members (`Interval.spellable_compact`).
-/
namespace PatternAutomata

open Pattern (brackets signs)

/-- What may end a range that has begun with `lo`. -/
theorem Pattern.readRangeEnd_eq_ok {offset : Nat} {lo c : Char} {i : Interval} :
    readRangeEnd offset lo c = .ok i ↔ c ∉ brackets ∧ ∃ h : lo ≤ c, i = ⟨lo, c, h⟩ := by
  have hbrackets : (c = ']' ∨ c = '[' ∨ c = '(' ∨ c = ')') ↔ c ∈ brackets := by simp [brackets, or_left_comm]
  unfold readRangeEnd
  simp only [hbrackets]
  constructor
  · intro h
    split at h
    · cases h
    · rename_i hc
      split at h
      · rename_i hle
        cases h
        exact ⟨hc, hle, rfl⟩
      · cases h
  · rintro ⟨hc, hle, rfl⟩
    rw [if_neg hc, dif_pos hle]

namespace Interval

variable {i j : Interval} {is : List Interval}

/-- The interval can be a member of a class. -/
structure Spellable (i : Interval) : Prop where
  lo_not_mem : i.lo ∉ '-' :: brackets
  hi_not_mem : i.hi ∉ brackets

instance (i : Interval) : Decidable i.Spellable :=
  decidable_of_iff (i.lo ∉ '-' :: brackets ∧ i.hi ∉ brackets) ⟨fun h => ⟨h.1, h.2⟩, fun h => ⟨h.1, h.2⟩⟩

theorem spellable_single {c : Char} : (single c).Spellable ↔ c ∉ '-' :: brackets :=
  ⟨Spellable.lo_not_mem, fun h => ⟨h, fun hc => h (List.mem_cons_of_mem _ hc)⟩⟩

theorem Spellable.span (hi : i.Spellable) (hj : j.Spellable) : (i.span j).Spellable := by
  constructor
  · unfold Interval.span
    dsimp only
    split
    · exact hi.lo_not_mem
    · exact hj.lo_not_mem
  · unfold Interval.span
    dsimp only
    split
    · exact hj.hi_not_mem
    · exact hi.hi_not_mem

theorem spellable_joinRuns (h : ∀ k ∈ i :: is, k.Spellable) : ∀ k ∈ joinRuns i is, k.Spellable := by
  fun_induction joinRuns i is with
  | case1 => exact h
  | case2 i j rest _ ih =>
    obtain ⟨hi, hrest⟩ := List.forall_mem_cons.1 h
    exact List.forall_mem_cons.2 ⟨hi, ih hrest⟩
  | case3 i j rest _ ih =>
    obtain ⟨hi, hrest⟩ := List.forall_mem_cons.1 h
    obtain ⟨hj, hrest⟩ := List.forall_mem_cons.1 hrest
    exact ih (List.forall_mem_cons.2 ⟨hi.span hj, hrest⟩)

/-- **The runs begin and end where members do.** -/
theorem spellable_compact (h : ∀ i ∈ is, i.Spellable) : ∀ i ∈ compact is, i.Spellable := by
  have hsorted : ∀ i ∈ ascending is, i.Spellable := fun i hi => h i (Ascending.mem_ascending.1 hi)
  unfold compact
  split
  · exact List.forall_mem_nil _
  · rename_i heq
    rw [heq] at hsorted
    exact spellable_joinRuns hsorted

end Interval

namespace Pattern

/-- The pattern can be written: its words hold no signs, and its character sets are classes. -/
def Spellable : Pattern → Prop
  | word w => ∀ c ∈ w, c ∉ signs
  | seq head tail => head.Spellable ∧ tail.Spellable
  | alt left right => left.Spellable ∧ right.Spellable
  | star p => p.Spellable
  | count p _ => p.Spellable
  | oneOf intervals => intervals ≠ [] ∧ ∀ i ∈ intervals, i.Spellable

instance decidableSpellable : ∀ p : Pattern, Decidable p.Spellable
  | word w => List.decidableBAll (fun c => c ∉ signs) w
  | seq head tail => @instDecidableAnd _ _ (decidableSpellable head) (decidableSpellable tail)
  | alt left right => @instDecidableAnd _ _ (decidableSpellable left) (decidableSpellable right)
  | star p => decidableSpellable p
  | count p _ => decidableSpellable p
  | oneOf intervals => inferInstanceAs (Decidable (intervals ≠ [] ∧ ∀ i ∈ intervals, i.Spellable))

theorem spellable_reverse : ∀ {p : Pattern}, p.Spellable → p.reverse.Spellable
  | word _, h => fun c hc => h c (List.mem_reverse.1 hc)
  | seq head tail, ⟨hh, ht⟩ => ⟨spellable_reverse (p := tail) ht, spellable_reverse (p := head) hh⟩
  | alt left right, ⟨hl, hr⟩ => ⟨spellable_reverse (p := left) hl, spellable_reverse (p := right) hr⟩
  | star p, h => spellable_reverse (p := p) h
  | count p _, h => spellable_reverse (p := p) h
  | oneOf _, h => h

end Pattern
end PatternAutomata
