import PatternAutomata.Pattern.Printer
import PatternAutomata.Proofs.Pattern.Reader
import PatternAutomata.Proofs.Pattern.Recognition
/-!
# Rendering — what is written is read again

A spellable pattern, written out, can be derived from a symbol that depends only on what is outermost in it
(`writes_render`), and parentheses stand where a part would be derived from too weak a symbol.  So the text is read, as
a pattern that is interchangeable with the one that was written (`exists_read_render`).
-/
namespace PatternAutomata

namespace Interval

open Pattern (Members)

variable {t : List Char} {i : Interval} {is js : List Interval}

theorem members_render (ht : Members t js) (hi : i.Spellable) : Members (t ++ i.render) (i :: js) := by
  unfold render
  split
  · rename_i hsingle
    have heq : i = single i.lo := ext rfl (eq_of_beq hsingle).symm
    have hchar : Members (t ++ [i.lo]) (single i.lo :: js) := ht.char hi.lo_not_mem
    rwa [← heq] at hchar
  · exact ht.range hi.lo_not_mem hi.hi_not_mem i.lo_le_hi

theorem members_flatMap_render (ht : Members t js) (h : ∀ i ∈ is, i.Spellable) :
    Members (t ++ is.flatMap render) (is.reverse ++ js) := by
  induction is generalizing t js with
  | nil =>
    rw [List.flatMap_nil, List.append_nil]
    exact ht
  | cons i is ih =>
    obtain ⟨hi, his⟩ := List.forall_mem_cons.1 h
    rw [List.flatMap_cons, ← List.append_assoc t, List.reverse_cons, List.append_assoc is.reverse]
    exact ih (members_render ht hi) his

end Interval

namespace Pattern

variable {t : List Char} {p : Pattern} {is : List Interval} {w : Word}

theorem numeral_toDigits (n : Nat) : Numeral (Nat.toDigits 10 n) n where
  ne_nil := Nat.toDigits_ne_nil
  isDigit _ hd := Nat.isDigit_of_mem_toDigits (by decide) (by decide) hd
  value_eq := Nat.ofDigitChars_toDigits (by decide) (by decide)

theorem writes_oneOf (hne : is ≠ []) (h : ∀ i ∈ is, i.Spellable) : Writes .item (oneOf is).render (oneOf is) := by
  have hmembers : Members (is.flatMap Interval.render) is.reverse := by
    have := Interval.members_flatMap_render .nil h
    rwa [List.nil_append, List.append_nil] at this
  have ht : is.flatMap Interval.render ≠ [] := mt hmembers.eq_nil_iff.1 (mt List.reverse_eq_nil_iff.1 hne)
  refine ⟨oneOf is.reverse, .atom (.oneOf hmembers ht), interchangeable_oneOf fun c => ?_⟩
  simp only [Interval.Covers, List.mem_reverse]

/-- What a pattern is derived from when it is written out. -/
def binding (p : Pattern) : Symbol := if p.isAlt then .branches else if p.isLong then .branch else .item

theorem isLong_of_isAlt (h : p.isAlt = true) : p.isLong = true := by
  cases p with
  | alt => rfl
  | word | seq | star | count | oneOf => cases h

namespace Writes

theorem as_branches (h : Writes p.binding t p) : Writes .branches t p := by
  unfold binding at h
  split at h
  · exact h
  · split at h
    · exact h.branches
    · exact h.branch.branches

/-- Grouped if it is an alternation, a pattern can stand in a sequence. -/
theorem as_branch (h : Writes p.binding t p) : Writes .branch (groupedIf p.isAlt t) p := by
  unfold binding at h
  split at h <;> rename_i halt
  · rw [groupedIf, if_pos halt]
    exact h.group.branch
  · rw [groupedIf, if_neg halt]
    split at h
    · exact h
    · exact h.branch

/-- Grouped if it is long, a pattern can be repeated. -/
theorem as_item (h : Writes p.binding t p) : Writes .item (groupedIf p.isLong t) p := by
  unfold binding at h
  split at h <;> rename_i halt
  · rw [groupedIf, if_pos (isLong_of_isAlt halt)]
    exact h.group
  · split at h <;> rename_i hlong
    · rw [groupedIf, if_pos hlong]
      exact h.branches.group
    · rw [groupedIf, if_neg hlong]
      exact h

end Writes

theorem writes_render_word (h : ∀ c ∈ w, c ∉ signs) : Writes (word w).binding (word w).render (word w) := by
  match w, h with
  | [], _ => exact (Derives.atom (.group .empty)).writes
  | [c], h => exact writes_char (h c List.mem_cons_self)
  | c :: d :: w, h => exact writes_word (List.cons_ne_nil _ _) h

/-- **A spellable pattern, written out, can be derived.** -/
theorem writes_render : ∀ {p : Pattern}, p.Spellable → Writes p.binding p.render p
  | word _, h => writes_render_word h
  | seq head tail, ⟨hh, ht⟩ => (writes_render hh).as_branch.seq (writes_render ht).as_branch
  | alt left right, ⟨hl, hr⟩ => (writes_render hl).as_branches.alt (writes_render hr).as_branches
  | star p, h => (writes_render (p := p) h).as_item.star
  | count p times, h => by
    have hitem := (writes_render (p := p) h).as_item
    have hcount := hitem.count (numeral_toDigits times.least) (numeral_toDigits times.greatest)
    simp only [List.append_assoc, List.cons_append] at hcount
    exact hcount
  | oneOf _, ⟨hne, h⟩ => writes_oneOf hne h

/-- **What is written is read**, as a pattern that is interchangeable with the one written. -/
theorem exists_read_render (h : p.Spellable) : ∃ q, read p.render = .ok q ∧ q.Interchangeable p := by
  obtain ⟨r, hr, hrp⟩ := (writes_render h).as_branches
  obtain ⟨q, hq, hqr⟩ := exists_read (.pattern hr)
  exact ⟨q, hq, hqr.trans hrp⟩

/-- **Writing and reading again keeps the meaning** of every spellable pattern, and what is read is spellable. -/
theorem read_render : (∀ p : Pattern, p.Spellable → ∃ q, read p.render = .ok q ∧ ∀ w, q.Matches w ↔ p.Matches w) ∧
    ∀ text p, read text = .ok p →
      p.Spellable ∧ ∃ q, read p.render = .ok q ∧ ∀ w, q.Matches w ↔ p.Matches w := by
  have hrender (p : Pattern) (hp : p.Spellable) :
      ∃ q, read p.render = .ok q ∧ ∀ w, q.Matches w ↔ p.Matches w := by
    obtain ⟨q, hq, hqp⟩ := exists_read_render hp
    exact ⟨q, hq, hqp.matches_iff⟩
  refine ⟨hrender, fun text p hp => ?_⟩
  exact ⟨spellable_of_read hp, hrender p (spellable_of_read hp)⟩

/-- A group inside a sequence inside a sequence, written as `a(bc|()){0,2}[+--x]`; and `ab*|c`, read and written. -/
theorem read_render_nested :
    (∃ p : Pattern, p.Spellable ∧ p.render = "a(bc|())\x7b0,2\x7d[+--x]".toList ∧
      ∃ q, read p.render = .ok q ∧ ∀ w, q.Matches w ↔ p.Matches w) ∧
    ∃ p, read "ab*|c".toList = .ok p ∧ p.Spellable ∧ ∃ q, read p.render = .ok q ∧ ∀ w, q.Matches w ↔ p.Matches w := by
  let p : Pattern := .seq (.word ['a']) (.seq
    (.count (.alt (.word ['b', 'c']) (.word [])) ⟨0, 2, by decide, by decide⟩)
    (.oneOf [⟨'+', '-', by decide⟩, .single 'x']))
  have hp : p.Spellable := by decide
  have hread : read "ab*|c".toList = .ok (.alt (.seq (.word ['a']) (.star (.word ['b']))) (.word ['c'])) := by
    with_unfolding_all rfl
  exact ⟨⟨p, hp, by decide, read_render.1 p hp⟩, _, hread, read_render.2 _ _ hread⟩

end Pattern
end PatternAutomata
