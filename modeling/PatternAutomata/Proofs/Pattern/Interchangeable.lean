import PatternAutomata.Proofs.Grouping
import PatternAutomata.Proofs.Pattern.Accepted
/-!
# Interchangeable — patterns that do the same wherever they stand

Two patterns with the same matches need not have automata that accept the same words, since the automaton of a
repetition depends on how the repeated part comes back to its start.  Patterns that agree on the matches, on the words
accepted and on those that lead back are interchangeable inside any larger pattern.  How a sequence or an alternation is
grouped makes no such difference, nor how a word is cut into smaller ones or a character set into its intervals; so a
list of patterns may be joined in any way (`Joins.join_leaves`).
-/
namespace PatternAutomata
namespace Pattern

/-- Neither the matches nor the automaton tells the two apart, in any larger pattern. -/
structure Interchangeable (p q : Pattern) : Prop where
  matches_iff : ∀ w, p.Matches w ↔ q.Matches w
  accepted_iff : ∀ w, p.Accepted w ↔ q.Accepted w
  reenters_iff : ∀ w, p.Reenters w ↔ q.Reenters w

variable {p p' q q' r : Pattern} {ps qs rs : List Pattern} {is js : List Interval} {v w : Word}

namespace Interchangeable

theorem refl (p : Pattern) : p.Interchangeable p := ⟨fun _ => Iff.rfl, fun _ => Iff.rfl, fun _ => Iff.rfl⟩

theorem symm (h : p.Interchangeable q) : q.Interchangeable p :=
  ⟨fun w => (h.matches_iff w).symm, fun w => (h.accepted_iff w).symm, fun w => (h.reenters_iff w).symm⟩

theorem trans (h : p.Interchangeable q) (h' : q.Interchangeable r) : p.Interchangeable r where
  matches_iff w := (h.matches_iff w).trans (h'.matches_iff w)
  accepted_iff w := (h.accepted_iff w).trans (h'.accepted_iff w)
  reenters_iff w := (h.reenters_iff w).trans (h'.reenters_iff w)

theorem seq (hp : p.Interchangeable p') (hq : q.Interchangeable q') :
    (Pattern.seq p q).Interchangeable (Pattern.seq p' q') where
  matches_iff _ := followed_congr hp.matches_iff hq.matches_iff
  accepted_iff _ := followed_congr hp.accepted_iff hq.accepted_iff
  reenters_iff := hp.reenters_iff

theorem alt (hp : p.Interchangeable p') (hq : q.Interchangeable q') :
    (Pattern.alt p q).Interchangeable (Pattern.alt p' q') where
  matches_iff w := or_congr (hp.matches_iff w) (hq.matches_iff w)
  accepted_iff w := or_congr (hp.accepted_iff w) (hq.accepted_iff w)
  reenters_iff _ := Iff.rfl

theorem star (h : p.Interchangeable q) : (Pattern.star p).Interchangeable (Pattern.star q) := by
  have hround (w : Word) : p.Accepted w ∨ p.Reenters w ↔ q.Accepted w ∨ q.Reenters w :=
    or_congr (h.accepted_iff w) (h.reenters_iff w)
  exact ⟨fun _ => exists_congr fun _ => repeats_congr h.matches_iff,
    fun _ => exists_congr fun _ => repeats_congr hround, fun _ => exists_congr fun _ => repeats_congr hround⟩

theorem count {times : Bounds} (h : p.Interchangeable q) :
    (Pattern.count p times).Interchangeable (Pattern.count q times) where
  matches_iff _ := exists_congr fun _ => and_congr_right fun _ => and_congr_right fun _ => repeats_congr h.matches_iff
  accepted_iff _ := exists_congr fun _ => and_congr_right fun _ => and_congr_right fun _ => repeats_congr h.accepted_iff
  reenters_iff _ := Iff.rfl

end Interchangeable

/-! ## What makes no difference -/

theorem interchangeable_seq_assoc : (seq (seq p q) r).Interchangeable (seq p (seq q r)) :=
  ⟨fun _ => followed_assoc, fun _ => followed_assoc, fun _ => Iff.rfl⟩

theorem interchangeable_alt_assoc : (alt (alt p q) r).Interchangeable (alt p (alt q r)) :=
  ⟨fun _ => or_assoc, fun _ => or_assoc, fun _ => Iff.rfl⟩

theorem interchangeable_word_append : (seq (word v) (word w)).Interchangeable (word (v ++ w)) :=
  ⟨fun _ => followed_word, fun _ => followed_word, fun _ => Iff.rfl⟩

theorem matches_oneOf : (oneOf is).Matches w ↔ ∃ c, Interval.Covers is c ∧ w = [c] := by
  constructor
  · rintro ⟨i, hi, c, hc, rfl⟩
    exact ⟨c, ⟨i, hi, hc⟩, rfl⟩
  · rintro ⟨c, ⟨i, hi, hc⟩, rfl⟩
    exact ⟨i, hi, c, hc, rfl⟩

/-- Only the characters that the intervals cover count. -/
theorem interchangeable_oneOf (h : ∀ c, Interval.Covers is c ↔ Interval.Covers js c) :
    (oneOf is).Interchangeable (oneOf js) := by
  have hiff (w : Word) : (oneOf is).Matches w ↔ (oneOf js).Matches w := by
    rw [matches_oneOf, matches_oneOf]
    exact exists_congr fun c => and_congr_left' (h c)
  exact ⟨hiff, hiff, fun _ => Iff.rfl⟩

theorem interchangeable_oneOf_append : (alt (oneOf is) (oneOf js)).Interchangeable (oneOf (is ++ js)) := by
  have hiff (w : Word) : (oneOf is).Matches w ∨ (oneOf js).Matches w ↔ (oneOf (is ++ js)).Matches w := by
    simp only [Matches, List.mem_append, or_and_right, exists_or]
  exact ⟨hiff, hiff, fun _ => Iff.rfl⟩

/-! ## Patterns in a row -/

/-- A way to join two patterns for which grouping makes no difference. -/
structure Joins (join : Pattern → Pattern → Pattern) : Prop where
  congr : ∀ {p p' q q' : Pattern}, p.Interchangeable p' → q.Interchangeable q' →
    (join p q).Interchangeable (join p' q')
  assoc : ∀ {p q r : Pattern}, (join (join p q) r).Interchangeable (join p (join q r))

theorem joins_seq : Joins seq := ⟨Interchangeable.seq, interchangeable_seq_assoc⟩

theorem joins_alt : Joins alt := ⟨Interchangeable.alt, interchangeable_alt_assoc⟩

/-- The patterns in order, joined from the last to the first; nothing at all is the empty word. -/
def joined (join : Pattern → Pattern → Pattern) : List Pattern → Pattern
  | [] => word []
  | [p] => p
  | p :: q :: ps => join p (joined join (q :: ps))

variable {join : Pattern → Pattern → Pattern}

theorem joined_cons (h : ps ≠ []) : joined join (p :: ps) = join p (joined join ps) := by
  obtain ⟨q, ps, rfl⟩ := List.exists_cons_of_ne_nil h
  rfl

namespace Joins

variable (h : Joins join)

include h

theorem append : ∀ {ps : List Pattern}, ps ≠ [] → qs ≠ [] →
    (joined join (ps ++ qs)).Interchangeable (join (joined join ps) (joined join qs))
  | [], hps, _ => absurd rfl hps
  | [p], _, hqs => by
    rw [List.singleton_append, joined_cons hqs]
    exact .refl _
  | p :: q :: ps, _, hqs => by
    rw [List.cons_append, joined_cons (List.append_ne_nil_of_left_ne_nil (List.cons_ne_nil q ps) qs)]
    exact (h.congr (.refl p) (append (List.cons_ne_nil q ps) hqs)).trans h.assoc.symm

/-- What comes last in a row may be exchanged. -/
theorem append_congr (hqs : qs ≠ []) (hrs : rs ≠ []) (hqr : (joined join qs).Interchangeable (joined join rs)) :
    (joined join (ps ++ qs)).Interchangeable (joined join (ps ++ rs)) := by
  by_cases hps : ps = []
  · rw [hps]
    exact hqr
  · exact (h.append hps hqs).trans ((h.congr (.refl _) hqr).trans (h.append hps hrs).symm)

theorem join_leaves (g : Grouping Pattern) : (g.join join).Interchangeable (joined join g.leaves) := by
  induction g with
  | one p => exact .refl p
  | pair left right ihl ihr =>
    exact (h.congr ihl ihr).trans (h.append left.leaves_ne_nil right.leaves_ne_nil).symm

/-- **Patterns joined by halves** are interchangeable with the patterns in a row. -/
theorem balanced (hp : balanced join ps = some p) : p.Interchangeable (joined join ps) := by
  obtain ⟨g, rfl, rfl⟩ := Grouping.exists_of_balanced hp
  exact h.join_leaves g

end Joins

/-- A character set is its intervals as alternatives. -/
theorem joined_oneOf : ∀ {is : List Interval}, is ≠ [] →
    (joined alt (is.map fun i => oneOf [i])).Interchangeable (oneOf is)
  | [], h => absurd rfl h
  | [_], _ => .refl _
  | _ :: _ :: _, _ => ((Interchangeable.refl _).alt (joined_oneOf (List.cons_ne_nil _ _))).trans
      interchangeable_oneOf_append

end Pattern
end PatternAutomata
